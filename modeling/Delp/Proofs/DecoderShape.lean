import Delp.Proofs.Delivery
import Delp.Proofs.MatrixShape
import Delp.Proofs.ParseTotality

/-! A decoder survives every packet that the parsers can hand it, as long as the packet's
coefficients belong to the decoder's field and no id is `u32::MAX`. -/

namespace Delp
open Machine Gf

namespace DecodingMatrix
variable {ev : EncodingVector} {map : Std.TreeMap SourceSymbolId UInt8}

def Lists (ev : EncodingVector) (id : SourceSymbolId) (c : UInt8) : Prop :=
  ∃ i : ℕ, ev.sourceIds[i]? = some id ∧ coefAt ev i id = .ok c ∧ c ≠ 0

private theorem zipIdx_split {visited rest : List (SourceSymbolId × ℕ)} {id : SourceSymbolId} {i : ℕ}
    (split : visited ++ (id, i) :: rest = ev.sourceIds.zipIdx) : ev.sourceIds[i]? = some id :=
  List.mem_zipIdx_iff_getElem?.mp (split ▸ List.mem_append_right visited List.mem_cons_self)

theorem coefMap_lists (read : coefMap ev = .ok map) {id : SourceSymbolId} {c : UInt8} (found : map[id]? = some c) :
    Lists ev id c := by
  refine Outcome.foldlM_preserves ev.sourceIds.zipIdx
    (fun _ map => ∀ (id : SourceSymbolId) c, map[id]? = some c → Lists ev id c) ?_ ∅ map (by simp) read id c found
  rintro visited ⟨other, i⟩ rest state next split kept stepped id c found
  obtain ⟨d, derived, stepped⟩ := Outcome.bind_eq_ok.mp stepped
  cases stepped
  split at found
  next nonzero =>
    rw [Std.TreeMap.getElem?_insert] at found
    split at found
    next same =>
      cases found
      cases Std.LawfulEqCmp.eq_of_compare same
      exact ⟨i, zipIdx_split split, derived, nonzero⟩
    next => exact kept id c found
  next => exact kept id c found

/-- The coefficients of a vector can be told when explicit ones are complete, and implicit ones
have a coded id to be derived from. -/
theorem coefMap_returns (complete : ev.hasExplicitCoefs = true → ev.coefficients.length = ev.sourceIds.length)
    (implicit : ev.hasExplicitCoefs = false → ev.sourceIds ≠ [] → ev.codedId ≠ 0) : ∃ map, coefMap ev = .ok map := by
  have derives (i : ℕ) (id : SourceSymbolId) (listed : ev.sourceIds[i]? = some id) : ∃ c, coefAt ev i id = .ok c := by
    unfold coefAt
    split
    next explicit =>
      have inside : i < ev.coefficients.length := by
        rw [complete explicit]
        exact (List.getElem?_eq_some_iff.mp listed).1
      exact ⟨_, index_of inside⟩
    next unlisted =>
      have some : ev.sourceIds ≠ [] := by
        rintro empty
        simp [empty] at listed
      have positive : 1 ≤ ev.codedId := by
        have nonzero := implicit (by simpa using unlisted) some
        rw [ne_eq, eq_iff, UInt32.toNat_zero] at nonzero
        rw [le_iff, UInt32.toNat_one]
        omega
      unfold CoefGen.vandermondeCoef Gf2_8.vandermonde Gf2_4.vandermonde
      cases ev.field with
      | gf2_8 => exact ⟨_, by rw [Outcome.require_of positive]; rfl⟩
      | gf2_4 => exact ⟨_, by rw [Outcome.require_of positive]; rfl⟩
  suffices ∃ map, coefMap ev = .ok map ∧ True by
    obtain ⟨map, read, _⟩ := this
    exact ⟨map, read⟩
  refine Outcome.foldlM_returns _ ev.sourceIds.zipIdx (fun _ _ => True) ?_ ∅ trivial
  rintro visited ⟨id, i⟩ rest state split _
  obtain ⟨c, derived⟩ := derives i id (zipIdx_split split)
  exact ⟨_, by dsimp only; rw [derived, Outcome.ok_bind]; rfl, trivial⟩

end DecodingMatrix

/-- A coded packet whose coefficients a decoder over one field can work with: implicit ones
have a coded id, and those that are not zero lie in the field and belong to ids below `u32::MAX`. -/
structure CodedPacket.Fits (field : Config.Field) (packet : CodedPacket) : Prop where
  implicit : packet.ev.hasExplicitCoefs = false → packet.ev.sourceIds ≠ [] → packet.ev.codedId ≠ 0
  below : ∀ id c, DecodingMatrix.Lists packet.ev id c → id < 0xFFFFFFFF
  inField : ∀ id c, DecodingMatrix.Lists packet.ev id c → InField field c

theorem CodedPacket.Fits.map {field : Config.Field} {packet : CodedPacket} (fits : packet.Fits field)
    {map : Std.TreeMap SourceSymbolId UInt8} (read : DecodingMatrix.coefMap packet.ev = .ok map) :
    DecodingMatrix.CoefficientsFit field map where
  below id member := by
    obtain ⟨c, found⟩ := Option.isSome_iff_exists.mp (Std.TreeMap.mem_iff_isSome_getElem?.mp member)
    exact fits.below id c (DecodingMatrix.coefMap_lists read found)
  inField id c found := fits.inField id c (DecodingMatrix.coefMap_lists read found)

namespace SymbolBuffer

/-- The span from the pointer to the highest id, and one more, fits 32 bits. -/
def Spans (buffer : SymbolBuffer) : Prop := buffer.nextDeliveryId = 0 → (0xFFFFFFFF : SourceSymbolId) ∉ buffer.symbols

theorem Drains.spans {buffer final : SymbolBuffer} {out : List (SourceSymbolId × Bytes)} (drains : Drains buffer final out)
    (spans : buffer.Spans) : final.Spans := by
  intro zero member
  by_cases inside : buffer.nextDeliveryId.toNat + out.length < 4294967296
  · have pointer := drains.pointer_of_lt inside
    rw [zero, UInt32.toNat_zero] at pointer
    exact spans (by rw [eq_iff, UInt32.toNat_zero]; omega) (drains.mem_rest.mp member).2
  · exact (drains.wrapped inside).2 _ member

theorem Settles.spans {buffer drained : SymbolBuffer} {out : List (SourceSymbolId × Bytes)} {floor : SourceSymbolId}
    (settles : Settles buffer drained out floor) (spans : buffer.Spans) : (buffer.settle floor).Spans := by
  rcases settles.ends with ⟨_, same, _⟩ | ⟨above, same, _⟩
  · exact same ▸ settles.drains.spans spans
  · intro zero
    rw [same, pruned_next above] at zero
    rw [lt_iff, zero, UInt32.toNat_zero] at above
    omega

end SymbolBuffer

namespace FeedbackPacket

theorem build_returns (firstSrcId nbMissingSrc nbNotUsedCoded : UInt32) (loss : LossRate) (ackedIds : List UInt32) :
    ∃ pkt, build firstSrcId nbMissingSrc nbNotUsedCoded loss ackedIds = .ok pkt := by
  suffices ∃ sack, buildSack firstSrcId ackedIds = .ok sack by
    obtain ⟨sack, built⟩ := this
    exact ⟨_, by rw [build, built, Outcome.ok_bind]; rfl⟩
  unfold buildSack
  cases ackedIds with
  | nil => exact ⟨[], rfl⟩
  | cons first rest =>
    obtain ⟨_, bound⟩ := foldl_max first rest
    dsimp only
    split
    · exact ⟨[], rfl⟩
    obtain ⟨sack, built, _⟩ := Outcome.foldlM_returns (setSackBit firstSrcId) (first :: rest)
      (fun _ sack => sack.length = ((rest.foldl max first - firstSrcId).toNat + 1 + 7) / 8)
      (by
        rintro visited id later sack split length
        unfold setSackBit
        dsimp only
        split
        · exact ⟨sack, rfl, length⟩
        next above =>
          have listed : id ∈ first :: rest := split ▸ List.mem_append_right _ List.mem_cons_self
          have bounded := bound id listed
          rw [lt_iff] at above
          rw [le_iff] at bounded
          have offset := toNat_sub (show firstSrcId ≤ id by rw [le_iff]; omega)
          have span := toNat_sub (show firstSrcId ≤ rest.foldl max first by rw [le_iff]; omega)
          have inside : (id - firstSrcId).toNat / 8 < sack.length := by
            rw [length]
            omega
          exact ⟨_, by rw [index_of inside, Outcome.ok_bind]; rfl, by rw [List.length_set, length]⟩)
      _ (List.length_replicate)
    exact ⟨sack, built⟩

end FeedbackPacket

namespace Decoder
variable {P : Type} [FeedbackPolicy P]

omit [FeedbackPolicy P] in
theorem countMissing_returns {self : Decoder P} (spans : self.buffer.Spans) : ∃ count, self.countMissing = .ok count := by
  unfold countMissing
  dsimp only
  split
  · exact ⟨0, rfl⟩
  next above =>
    have fits : (self.buffer.highestId.getD self.buffer.nextDeliveryId - self.buffer.nextDeliveryId).toNat +
        (1 : UInt32).toNat < 4294967296 := by
      rw [lt_iff] at above
      rw [toNat_sub (by rw [le_iff]; omega), UInt32.toNat_one]
      have bounded := toNat_lt (self.buffer.highestId.getD self.buffer.nextDeliveryId)
      by_contra beyond
      have zero : self.buffer.nextDeliveryId = 0 := by
        rw [eq_iff, UInt32.toNat_zero]
        omega
      have high : self.buffer.highestId.getD self.buffer.nextDeliveryId = 0xFFFFFFFF := by
        rw [eq_iff]
        change _ = 4294967295
        omega
      unfold SymbolBuffer.highestId at high
      cases last : self.buffer.symbols.keys.getLast? with
      | none =>
        rw [last, Option.getD_none, zero] at high
        cases high
      | some id =>
        rw [last, Option.getD_some] at high
        exact spans zero (high ▸ OrderedKeys.last_mem last)
    rw [addU32_eq_ok.mpr ⟨fits, rfl⟩]
    exact ⟨_, rfl⟩

private theorem maybeSendFeedback_returns {self : Decoder P} (spans : self.buffer.Spans) : self.maybeSendFeedback.Returns := by
  obtain ⟨count, counted⟩ := countMissing_returns spans
  unfold maybeSendFeedback makeState
  rw [counted, Outcome.ok_bind, Outcome.pure_def, Outcome.ok_bind]
  dsimp only
  split
  · obtain ⟨again, recounted⟩ := countMissing_returns
      (show ({ self with feedbackPolicy := (FeedbackPolicy.shouldSendFeedback self.feedbackPolicy _).2 } : Decoder P).buffer.Spans
        from spans)
    rw [recounted, Outcome.ok_bind]
    obtain ⟨pkt, built⟩ := FeedbackPacket.build_returns self.buffer.nextDeliveryId again
      (UInt32.ofNat self.matrix.rowCount) self.loss.lossRate
      ((self.buffer.idsFrom self.buffer.nextDeliveryId).take 256)
    rw [built]
    exact Outcome.returns_ok _
  · exact Outcome.returns_ok _

theorem finish_returns {self : Decoder P} {gained : List (SourceSymbolId × Bytes)}
    (spans : (self.buffer.absorb gained).drainDeliverable.1.Spans) : (self.finish gained).Returns := by
  simp only [finish, foldl_absorbRecovered, drainToEvents]
  refine Outcome.returns_bind.mpr ⟨maybeSendFeedback_returns spans, fun _ _ => ?_⟩
  exact Outcome.returns_ok _

/-- What a decoder that panics on nothing keeps of its state. -/
structure Shaped (config : DecoderConfig) (state : Decoder P) : Prop where
  sameConfig : state.config = config
  sameField : state.matrix.field = config.field
  rows : DecodingMatrix.Rows.Shaped config.field config.symbolSize state.matrix.rows
  bounded : DecodingMatrix.Rows.Bounded state.matrix.rows
  known : ∀ (id : SourceSymbolId) data, state.known[id]? = some data → data.length = config.symbolSize
  ahead : state.buffer.Ahead
  spans : state.buffer.Spans

def Survives (before : Decoder P) : Arrival → Prop
  | .source packet => packet.payload.length = before.config.symbolSize → packet.sourceSymbolId = 0xFFFFFFFF →
    before.buffer.nextDeliveryId ≠ 0
  | .coded packet => packet.payload.length = before.config.symbolSize → packet.Fits before.config.field

end Decoder

def Arrival.Complete : Arrival → Prop
  | .source _ => True
  | .coded packet => packet.ev.hasExplicitCoefs = true → packet.ev.coefficients.length = packet.ev.sourceIds.length

def Arrival.Parsed : Arrival → Prop
  | .source packet => ∃ buf, SourcePacket.parse buf = .ok packet
  | .coded packet => ∃ buf, CodedPacket.parse buf = .ok packet

theorem Arrival.Parsed.complete {arrival : Arrival} (parsed : arrival.Parsed) : arrival.Complete := by
  cases arrival with
  | source packet => trivial
  | coded packet =>
    obtain ⟨buf, parsed⟩ := parsed
    obtain ⟨consumed, _, vector, _⟩ := CodedPacket.parse_ok parsed
    intro explicit
    rcases vector.length_coefficients with none | all
    · simp [EncodingVector.hasExplicitCoefs, none] at explicit
    · exact all

namespace Decoder
variable {P : Type} [FeedbackPolicy P] {config : DecoderConfig}

omit [FeedbackPolicy P] in
theorem accept_sized {before : Decoder P} {arrival : Arrival} {result : DecodingMatrix × List (SourceSymbolId × Bytes)}
    (accepted : before.accept arrival = .ok result) : arrival.payload.length = before.config.symbolSize := by
  by_contra wrong
  cases arrival with
  | source packet | coded packet =>
    rw [accept, if_pos (show packet.payload.length ≠ before.config.symbolSize from wrong)] at accepted
    cases accepted

/-- What an accepted arrival brings a well-formed decoder: a well-formed matrix, and symbols of the
right size with ids below `u32::MAX`, a source packet's own apart. -/
structure Gains (config : DecoderConfig) (before : Decoder P) (arrival : Arrival) (matrix : DecodingMatrix)
    (gained : List (SourceSymbolId × Bytes)) : Prop where
  accepted : before.accept arrival = .ok (matrix, gained)
  sameField : matrix.field = before.matrix.field
  rows : DecodingMatrix.Rows.Shaped config.field config.symbolSize matrix.rows
  bounded : DecodingMatrix.Rows.Bounded matrix.rows
  sized : ∀ symbol ∈ gained, symbol.2.length = config.symbolSize
  below : ∀ symbol ∈ gained, symbol.1 < 0xFFFFFFFF ∨
    ∃ packet, arrival = .source packet ∧ symbol.1 = packet.sourceSymbolId

omit [FeedbackPolicy P] in
theorem accept_source {before : Decoder P} (shaped : before.Shaped config) {packet : SourcePacket}
    (sized : packet.payload.length = config.symbolSize) :
    ∃ matrix gained, Gains config before (.source packet) matrix gained := by
  have right : ¬ packet.payload.length ≠ before.config.symbolSize := not_not.mpr (shaped.sameConfig ▸ sized)
  obtain ⟨rows, recovered, added, rowsShaped, _, good, limited⟩ := DecodingMatrix.addKnownSource_keeps (.bounded _ _)
    (show DecodingMatrix.Rows.Shaped before.matrix.field config.symbolSize before.matrix.rows from
      shaped.sameField ▸ shaped.rows) sized packet.sourceSymbolId
    (before.known.insertIfNew packet.sourceSymbolId packet.payload)
  obtain ⟨rowsBounded, below⟩ := limited shaped.bounded trivial
  refine ⟨{ before.matrix with rows }, (packet.sourceSymbolId, packet.payload) :: recovered, ?_, rfl,
    shaped.sameField ▸ rowsShaped, rowsBounded, ?_, ?_⟩
  · simp only [accept, if_neg right, added, Outcome.ok_bind, Outcome.pure_def]
  · intro symbol member
    rcases List.mem_cons.mp member with rfl | member
    · exact sized
    · exact good symbol member
  · intro symbol member
    rcases List.mem_cons.mp member with rfl | member
    · exact .inr ⟨packet, rfl, rfl⟩
    · exact .inl (below symbol member)

omit [FeedbackPolicy P] in
theorem accept_coded {before : Decoder P} (shaped : before.Shaped config) {packet : CodedPacket}
    {map : Std.TreeMap SourceSymbolId UInt8} (read : DecodingMatrix.coefMap packet.ev = .ok map)
    (fits : DecodingMatrix.CoefficientsFit config.field map) (sized : packet.payload.length = config.symbolSize) :
    ∃ matrix gained, Gains config before (.coded packet) matrix gained := by
  have right : ¬ packet.payload.length ≠ before.config.symbolSize := not_not.mpr (shaped.sameConfig ▸ sized)
  obtain ⟨rows, recovered, added, rowsShaped, rowsBounded, good⟩ := DecodingMatrix.addCoded_shaped
    (show DecodingMatrix.Rows.Shaped before.matrix.field config.symbolSize before.matrix.rows from
      shaped.sameField ▸ shaped.rows) shaped.bounded read (shaped.sameField ▸ fits) sized
    (fun symbol listed => shaped.known symbol.1 symbol.2 (Std.TreeMap.mem_toList_iff_getElem?_eq_some.mp listed))
  refine ⟨{ before.matrix with rows }, recovered, ?_, rfl, shaped.sameField ▸ rowsShaped, rowsBounded,
    fun symbol member => (good symbol member).1, fun symbol member => .inl (good symbol member).2⟩
  simp only [accept, if_neg right]
  exact added

omit [FeedbackPolicy P] in
theorem accept_survives {before : Decoder P} (shaped : before.Shaped config) {arrival : Arrival} (complete : arrival.Complete)
    (fits : before.Survives arrival) (sized : arrival.payload.length = config.symbolSize) :
    ∃ matrix gained, Gains config before arrival matrix gained ∧
      ∀ symbol ∈ gained, symbol.1 = 0xFFFFFFFF → before.buffer.nextDeliveryId ≠ 0 := by
  cases arrival with
  | source packet =>
    obtain ⟨matrix, gained, gains⟩ := accept_source shaped sized
    refine ⟨matrix, gained, gains, fun symbol member last => ?_⟩
    rcases gains.below symbol member with below | ⟨packet', same, own⟩
    · exact absurd last (fun last => absurd (last ▸ below) (by decide))
    · cases same
      exact fits (shaped.sameConfig ▸ sized) (own ▸ last)
  | coded packet =>
    have fits := fits (shaped.sameConfig ▸ sized)
    rw [shaped.sameConfig] at fits
    obtain ⟨map, read⟩ := DecodingMatrix.coefMap_returns complete fits.implicit
    obtain ⟨matrix, gained, gains⟩ := accept_coded shaped read (fits.map read) sized
    refine ⟨matrix, gained, gains, fun symbol member last => ?_⟩
    rcases gains.below symbol member with below | ⟨packet', same, _⟩
    · exact absurd last (fun last => absurd (last ▸ below) (by decide))
    · cases same

omit [FeedbackPolicy P] in
private theorem absorb_spans {before : Decoder P} (shaped : before.Shaped config) {gained : List (SourceSymbolId × Bytes)}
    (maxless : ∀ symbol ∈ gained, symbol.1 = 0xFFFFFFFF → before.buffer.nextDeliveryId ≠ 0) :
    (before.buffer.absorb gained).Spans := by
  intro zero member
  rw [SymbolBuffer.absorb_next] at zero
  rcases SymbolBuffer.mem_absorb.mp member with held | ⟨entered, _⟩
  · exact shaped.spans zero held
  · obtain ⟨symbol, listed, last⟩ := List.mem_map.mp entered
    exact maxless symbol listed last zero

omit [FeedbackPolicy P] in
theorem Refuses.shaped {before after : Decoder P} {arrival : Arrival} (refuses : before.Refuses arrival after)
    (shaped : before.Shaped config) : after.Shaped config :=
  ⟨refuses.config.trans shaped.sameConfig, refuses.matrix ▸ shaped.sameField, refuses.matrix ▸ shaped.rows,
    refuses.matrix ▸ shaped.bounded, refuses.known ▸ shaped.known, refuses.buffer ▸ shaped.ahead, refuses.buffer ▸ shaped.spans⟩

omit [FeedbackPolicy P] in
theorem Takes.shaped {before after : Decoder P} {arrival : Arrival} {matrix : DecodingMatrix}
    {gained : List (SourceSymbolId × Bytes)} {events : List DecoderEvent}
    (takes : before.Takes arrival matrix gained after events) (shaped : before.Shaped config)
    (gains : Gains config before arrival matrix gained)
    (maxless : ∀ symbol ∈ gained, symbol.1 = 0xFFFFFFFF → before.buffer.nextDeliveryId ≠ 0) : after.Shaped config := by
  have settles := SymbolBuffer.settles (SymbolBuffer.absorb_ahead shaped.ahead gained) (before.floor arrival)
  refine ⟨takes.config.trans shaped.sameConfig, ?_, ?_, ?_, ?_, ?_, ?_⟩
  · rw [takes.matrix, gains.sameField, shaped.sameField]
  · rw [takes.matrix]
    exact gains.rows
  · rw [takes.matrix]
    exact gains.bounded
  · rw [takes.known]
    intro id data stored
    rcases KnownSources.learn_source stored with before | gained
    · exact shaped.known id data before
    · exact gains.sized _ gained
  · rw [takes.buffer]
    exact settles.ahead
  · rw [takes.buffer]
    exact settles.spans (absorb_spans shaped maxless)

/-- A call that does not panic hands the next one a well-formed decoder. -/
theorem handle_shaped {before after : Decoder P} (shaped : before.Shaped config) {arrival : Arrival}
    (complete : arrival.Complete) (fits : before.Survives arrival) {reply : Reply}
    (handled : before.handle arrival = .ok (after, reply)) : after.Shaped config := by
  cases reply with
  | error error => exact (handle_error handled).shaped shaped
  | ok events =>
    obtain ⟨matrix, gained, takes⟩ := handle_ok handled
    obtain ⟨_, _, gains, maxless⟩ := accept_survives shaped complete fits (shaped.sameConfig ▸ accept_sized takes.accepted)
    cases takes.accepted.symm.trans gains.accepted
    exact takes.shaped shaped gains maxless

theorem handle_returns {before : Decoder P} (shaped : before.Shaped config) {arrival : Arrival}
    (complete : arrival.Complete) (fits : before.Survives arrival) : (before.handle arrival).Returns := by
  by_cases sized : arrival.payload.length = config.symbolSize
  · obtain ⟨matrix, gained, gains, maxless⟩ := accept_survives shaped complete fits sized
    have accepted := gains.accepted
    have spans := (SymbolBuffer.drain_drains (SymbolBuffer.absorb_ahead shaped.ahead gained)).spans
      (absorb_spans shaped maxless)
    rw [← shaped.sameConfig] at sized
    rw [accept_eq, if_neg (not_not.mpr sized)] at accepted
    obtain ⟨⟨matrix, recovered⟩, added, accepted⟩ := Outcome.bind_eq_ok.mp accepted
    cases accepted
    rw [handle_eq, if_neg (not_not.mpr sized), added]
    cases arrival with
    | source packet =>
      rw [Arrival.carried, List.singleton_append, SymbolBuffer.absorb_cons] at spans
      exact finish_returns spans
    | coded packet => exact finish_returns spans
  · rw [← shaped.sameConfig] at sized
    rw [handle_eq, if_pos sized]
    exact Outcome.returns_ok _

omit [FeedbackPolicy P] in
theorem new_shaped (config : DecoderConfig) (policy : P) : (new config policy).Shaped config where
  sameConfig := rfl
  sameField := rfl
  rows := by intro pid row found; simp [new, DecodingMatrix.new] at found
  bounded := by intro pid row found; simp [new, DecodingMatrix.new] at found
  known := by intro id data found; simp [new] at found
  ahead := SymbolBuffer.new_ahead 0
  spans := by intro _ member; simp [new, SymbolBuffer.new] at member

section Runs
variable {policy : P} {calls : List (Call (Decoder P) Arrival Reply)} {final : Decoder P}

theorem run_shaped (run : Run handle (new config policy) calls final)
    (met : ∀ call ∈ calls, call.input.Complete ∧ call.before.Survives call.input) : final.Shaped config :=
  run.preserves (fun _ state => state.Shaped config) (fun call => call.input.Complete ∧ call.before.Survives call.input)
    (new_shaped config policy) (fun _ _ _ _ _ shaped handled met => handle_shaped shaped met.1 met.2 handled) met

/-- A decoder that has only taken parsed packets which it survives returns on the next one. -/
theorem survives_parsed_packets (run : Run handle (new config policy) calls final)
    (parsed : ∀ call ∈ calls, call.input.Parsed) (met : ∀ call ∈ calls, call.before.Survives call.input)
    {arrival : Arrival} (arrived : arrival.Parsed) (fits : final.Survives arrival) : (final.handle arrival).Returns :=
  handle_returns (run_shaped run fun call member => ⟨(parsed call member).complete, met call member⟩) arrived.complete fits

end Runs

theorem fifthAlone_parsed : (Arrival.coded fifthAlone).Parsed :=
  ⟨[0x10, 0, 5, 1, 0, 0, 0, 1, 3, 2, 1, 1, 0, 0, 0, 5, 0x10, 0, 0, 0, 0], by decide +kernel⟩

theorem fifthAlone_lists {id : SourceSymbolId} {c : UInt8} (lists : DecodingMatrix.Lists fifthAlone.ev id c) :
    id = 5 ∧ c = 1 := by
  obtain ⟨i, member, derived, _⟩ := lists
  obtain ⟨rfl, rfl⟩ : i = 0 ∧ id = 5 := by
    simpa [fifthAlone, CodedPacket.plain, List.getElem?_singleton, eq_comm] using member
  cases derived
  exact ⟨rfl, rfl⟩

theorem fifthAlone_fits : fifthAlone.Fits .gf2_4 := by
  refine ⟨by decide, fun id c lists => ?_, fun id c lists => ?_⟩
  · rw [(fifthAlone_lists lists).1]
    decide
  · rw [(fifthAlone_lists lists).2]
    exact inField_one

theorem survives_parsed_packets_fifth : ∃ calls final, Run handle (small 512) calls final ∧ calls.length = 1 ∧
    (final.handle (.coded fifthAlone)).Returns := by
  obtain ⟨calls, final, run, checked⟩ := Run.exists_of_check handle (small 512) [.source (.plain 0 [7])]
    (fun reached => reached.1.all (·.input == .source (.plain 0 [7])) && reached.1.length == 1 &&
      reached.2.config.field == .gf2_4) (by decide +kernel)
  obtain ⟨checked, field⟩ := Bool.and_eq_true_iff.mp checked
  obtain ⟨inputs, one⟩ := Bool.and_eq_true_iff.mp checked
  have input (call : Call (Decoder ImmediateFeedbackPolicy) Arrival Reply) (member : call ∈ calls) :
      call.input = .source (.plain 0 [7]) := eq_of_beq (List.all_eq_true.mp inputs call member)
  refine ⟨calls, final, run, eq_of_beq one, survives_parsed_packets run ?_ ?_ fifthAlone_parsed ?_⟩
  · intro call member
    rw [input call member]
    exact ⟨[0x10, 0, 2, 0, 0, 0, 0, 0, 7], by decide +kernel⟩
  · intro call member
    rw [input call member]
    exact fun _ last => absurd last (by decide)
  · intro _
    rw [eq_of_beq field]
    exact fifthAlone_fits

/-- A source packet with the last id, given to a fresh decoder. -/
theorem survives_parsed_packets_fails : ¬ ∀ calls final, Run handle (small 512) calls final →
    (∀ call ∈ calls, call.input.Parsed) → ∀ arrival : Arrival, arrival.Parsed → (final.handle arrival).Returns := by
  intro claim
  have returns := claim [] (small 512) .start (by simp) (.source (.plain 0xFFFFFFFF [0]))
    ⟨[0x10, 0, 2, 0, 0xFF, 0xFF, 0xFF, 0xFF, 0], by decide +kernel⟩
  revert returns
  decide +kernel

/-- A coefficient outside the decoder's field leaves a pivot without an inverse. -/
example : ¬ ((small 512).handle (.coded { fifthAlone with ev := { fifthAlone.ev with
    field := .gf2_8, coefficients := [0x10] } })).Returns := by decide +kernel

/-- Implicit coefficients of the coded id 0. -/
example : ¬ ((small 512).handle (.coded { fifthAlone with ev := { fifthAlone.ev with
    codedId := 0, coefficients := [] } })).Returns := by decide +kernel

/-- Two rows that end at the last id. -/
example : ¬ (Run.execute handle (small 512)
    [.coded { fifthAlone with ev := { fifthAlone.ev with sourceIds := [0xFFFFFFFE, 0xFFFFFFFF], coefficients := [1, 1] } },
     .coded { fifthAlone with ev := { fifthAlone.ev with sourceIds := [0xFFFFFFFE, 0xFFFFFFFF], coefficients := [1, 2] } }]
    ).Returns := by decide +kernel

end Decoder
end Delp
