import Delp.Proofs.Accounting
import Delp.Proofs.DatagramTruth

/-! From one end to the other: what a receiver delivers is a part of what was submitted, in order, unless
a source packet comes late, behind a coded packet that covers it. -/

namespace Delp
open Machine Gf Elimination

def within (field : Config.Field) (ids : Set SourceSymbolId) : Submodule field.Elem (SymbolEquation field) :=
  (Submodule.pi idsᶜ fun _ => ⊥).comap (LinearMap.fst _ _ _)

theorem mem_within {field : Config.Field} {ids : Set SourceSymbolId} {equation : SymbolEquation field} :
    equation ∈ within field ids ↔ ∀ id ∉ ids, equation.1 id = 0 := by
  simp [within, Submodule.mem_pi]

theorem within_mono (field : Config.Field) {ids more : Set SourceSymbolId} (subset : ids ⊆ more) :
    within field ids ≤ within field more :=
  fun _ inside => mem_within.mpr fun id absent => mem_within.mp inside id fun member => absent (subset member)

theorem symbolEquation_mem_within {field : Config.Field} {ids : Set SourceSymbolId} {id : SourceSymbolId} {data : Bytes} :
    symbolEquation field id data ∈ within field ids ↔ id ∈ ids := by
  rw [mem_within]
  constructor
  · intro outside
    by_contra absent
    have zero : Pi.single (M := fun _ => field.Elem) id 1 id = 0 := outside id absent
    rw [Pi.single_eq_same] at zero
    exact one_ne_zero zero
  · intro member other absent
    exact Pi.single_eq_of_ne (fun same : other = id => absent (same ▸ member)) _

theorem Arrival.equation_mem_within (field : Config.Field) (arrival : Arrival) :
    arrival.equation field ∈ within field {id | id ∈ arrival.ids} := by
  cases arrival with
  | source packet => exact symbolEquation_mem_within.mpr (List.mem_singleton.mpr rfl)
  | coded packet => exact mem_within.mpr fun id absent => DecodingMatrix.row_unlisted field absent

def DecoderEvent.delivery : DecoderEvent → Option (SourceSymbolId × Bytes)
  | .sourceReady id data => some (id, data)
  | _ => none

namespace Arrival

/-- A source packet that has come before, or that no coded packet has covered so far. -/
def Timely (earlier : List Arrival) : Arrival → Prop
  | .source packet => (∃ prior ∈ earlier, prior.kind = .source ∧ packet.sourceSymbolId ∈ prior.ids) ∨
    ∀ prior ∈ earlier, packet.sourceSymbolId ∉ prior.ids
  | .coded _ => True

instance (earlier : List Arrival) (arrival : Arrival) : Decidable (arrival.Timely earlier) :=
  match arrival with
  | .source _ => inferInstanceAs (Decidable (_ ∨ _))
  | .coded _ => isTrue trivial

def SourcesFirst (arrivals : List Arrival) : Prop := ∀ (i : ℕ) (inside : i < arrivals.length), arrivals[i].Timely (arrivals.take i)

instance (arrivals : List Arrival) : Decidable (SourcesFirst arrivals) := Nat.decidableBallLT _ _

theorem sourcesFirst_append {arrivals : List Arrival} {arrival : Arrival} (first : SourcesFirst (arrivals ++ [arrival])) :
    SourcesFirst arrivals ∧ arrival.Timely arrivals := by
  constructor
  · intro i inside
    have timely := first i (by rw [List.length_append]; omega)
    rwa [List.getElem_append_left inside, List.take_append_of_le_length (Nat.le_of_lt inside)] at timely
  · have timely := first arrivals.length (by rw [List.length_append]; exact Nat.lt_succ_self _)
    rwa [List.getElem_concat_length rfl, List.take_left] at timely

end Arrival

namespace Decoder
variable {P : Type}

def deliveries (calls : List (Call (Decoder P) Arrival Reply)) : List (SourceSymbolId × Bytes) :=
  calls.flatMap fun call => call.output.events.filterMap (·.delivery)

theorem deliveries_ids (calls : List (Call (Decoder P) Arrival Reply)) : (deliveries calls).map (·.1) = delivered calls := by
  have each (event : DecoderEvent) : event.delivery.map (·.1) = event.deliveredId := by cases event <;> rfl
  rw [deliveries, delivered, List.map_flatMap]
  simp only [List.map_filterMap, each]

/-- A decoder that has heard of some ids only, and holds true symbols. -/
structure Faithful (config : DecoderConfig) (x : SourceSymbolId → Bytes) (heard : Set SourceSymbolId) (state : Decoder P) : Prop where
  solid : state.Solid config (truths config.field x ⊓ within config.field heard) ⊥
  ahead : state.buffer.Ahead
  buffered : ∀ (id : SourceSymbolId) data, state.buffer.symbols[id]? = some data → id ∈ heard ∧ data = x id

variable {config : DecoderConfig} {x : SourceSymbolId → Bytes} {heard : Set SourceSymbolId}

theorem Faithful.key {state : Decoder P} (faithful : state.Faithful config x heard) {pid : SourceSymbolId}
    (key : pid ∈ state.matrix.rows) : pid ∈ heard ∧ pid ∉ state.known := by
  obtain ⟨row, stored⟩ := DecodingMatrix.Rows.mem_keySet.mp key
  have monic := faithful.solid.matrix.system.monic stored
  constructor
  · by_contra unheard
    have inside := (Submodule.mem_inf.mp (faithful.solid.matrix.system.sound pid row stored)).2
    exact one_ne_zero (monic.symm.trans (mem_within.mp inside pid unheard))
  · intro known
    exact one_ne_zero (monic.symm.trans (faithful.solid.matrix.free pid row pid stored known))

variable [FeedbackPolicy P]

/-- A true packet keeps a decoder faithful, and what it delivers is true. -/
theorem Faithful.handle {before after : Decoder P} {arrival : Arrival} {reply : Reply} (faithful : before.Faithful config x heard)
    (sized : ∀ id, (x id).length = config.symbolSize) (carries : arrival.Carries config x) (free : before.KeyFree arrival)
    (handled : before.handle arrival = .ok (after, reply)) :
    after.Faithful config x (heard ∪ {id | id ∈ arrival.ids}) ∧ (∃ events, reply = .ok events) ∧
      (∀ symbol ∈ reply.events.filterMap (·.delivery), symbol.1 ∈ heard ∪ {id | id ∈ arrival.ids} ∧ symbol.2 = x symbol.1) ∧
      (∀ id ∈ before.known, id ∈ after.known) ∧ (arrival.kind = .source → ∀ id ∈ arrival.ids, id ∈ after.known) := by
  have weaker : truths config.field x ⊓ within config.field heard ≤
      truths config.field x ⊓ within config.field (heard ∪ {id | id ∈ arrival.ids}) :=
    inf_le_inf_left _ (within_mono _ Set.subset_union_left)
  have inside : arrival.equation config.field ∈
      truths config.field x ⊓ within config.field (heard ∪ {id | id ∈ arrival.ids}) :=
    Submodule.mem_inf.mpr ⟨carries.equation_mem sized,
      within_mono _ Set.subset_union_right (arrival.equation_mem_within config.field)⟩
  obtain ⟨matrix, gained, events, rfl, recovers, takes, solid⟩ := faithful.solid.handle weaker (carries.acceptable sized) free inside
    (show (⊥ : Submodule config.field.Elem _) ≤ _ from bot_le) (.inr rfl) handled
  have settles := SymbolBuffer.settles (SymbolBuffer.absorb_ahead faithful.ahead gained) (before.floor arrival)
  have absorbed (id : SourceSymbolId) (data : Bytes) (stored : (before.buffer.absorb gained).symbols[id]? = some data) :
      id ∈ heard ∪ {id | id ∈ arrival.ids} ∧ data = x id := by
    rcases SymbolBuffer.absorb_source stored with old | new
    · obtain ⟨before, same⟩ := faithful.buffered id data old
      exact ⟨.inl before, same⟩
    · obtain ⟨fits, holds⟩ := recovers.gained (id, data) new
      obtain ⟨true, inside⟩ := Submodule.mem_inf.mp holds
      exact ⟨symbolEquation_mem_within.mp inside,
        symbol_injective (fits.trans (sized id).symm) (symbolEquation_mem_truths.mp true)⟩
  refine ⟨⟨solid, takes.buffer ▸ settles.ahead, fun id data stored => ?_⟩, ⟨_, rfl⟩, fun symbol member => ?_, fun id known => ?_, ?_⟩
  · rw [takes.buffer] at stored
    exact absorbed id data (settles.stored stored)
  · obtain ⟨event, listed, same⟩ := List.mem_filterMap.mp member
    cases event with
    | sourceReady id data =>
      cases same
      exact absorbed id data (settles.drains.stored (id, data) (takes.ready_mem_iff.mp listed))
    | sendFeedback | unrecoverableGap => cases same
  · rw [takes.known]
    exact KnownSources.mem_learn.mpr (.inl known)
  · intro own id member
    cases arrival with
    | coded packet => cases own
    | source packet =>
      cases List.mem_singleton.mp member
      have accepted := takes.accepted
      rw [accept_eq] at accepted
      split at accepted
      · cases accepted
      · obtain ⟨_, _, same⟩ := Outcome.bind_eq_ok.mp accepted
        cases same
        rw [takes.known]
        exact KnownSources.mem_learn.mpr (.inr List.mem_cons_self)

section Runs
variable {policy : P} {calls : List (Call (Decoder P) Arrival Reply)} {final : Decoder P}

def heardOf (calls : List (Call (Decoder P) Arrival Reply)) : Set SourceSymbolId := {id | ∃ call ∈ calls, id ∈ call.input.ids}

omit [FeedbackPolicy P] in
theorem heardOf_append (calls : List (Call (Decoder P) Arrival Reply)) (call : Call (Decoder P) Arrival Reply) :
    heardOf (calls ++ [call]) = heardOf calls ∪ {id | id ∈ call.input.ids} := by
  ext id
  simp [heardOf, or_and_right, exists_or]

structure Learned (config : DecoderConfig) (x : SourceSymbolId → Bytes) (calls : List (Call (Decoder P) Arrival Reply))
    (state : Decoder P) : Prop where
  faithful : state.Faithful config x (heardOf calls)
  free : ∀ call ∈ calls, call.before.KeyFree call.input
  taken : ∀ call ∈ calls, ∃ events, call.output = .ok events
  delivered : ∀ symbol ∈ deliveries calls, symbol.1 ∈ heardOf calls ∧ symbol.2 = x symbol.1
  sources : ∀ call ∈ calls, call.input.kind = .source → ∀ id ∈ call.input.ids, id ∈ state.known

omit [FeedbackPolicy P] in
theorem Learned.keyFree {state : Decoder P} (learned : Learned config x calls state) {arrival : Arrival}
    (timely : arrival.Timely (calls.map (·.input))) : state.KeyFree arrival := by
  cases arrival with
  | coded packet => trivial
  | source packet =>
    intro key
    obtain ⟨⟨call, member, heard⟩, unknown⟩ := learned.faithful.key key
    rcases timely with ⟨prior, listed, own, copy⟩ | fresh
    · obtain ⟨other, inside, rfl⟩ := List.mem_map.mp listed
      exact unknown (learned.sources other inside own _ copy)
    · exact fresh call.input (List.mem_map_of_mem member) heard

/-- While no source packet comes late, true packets leave the decoder faithful to what they speak of. -/
theorem run_learned (run : Run handle (new config policy) calls final) (sized : ∀ id, (x id).length = config.symbolSize)
    (carries : ∀ call ∈ calls, call.input.Carries config x) (first : Arrival.SourcesFirst (calls.map (·.input))) :
    Learned config x calls final := by
  refine run.preserves (fun calls state => Arrival.SourcesFirst (calls.map (·.input)) → Learned config x calls state)
    (fun call => call.input.Carries config x) ?_ ?_ carries first
  · intro _
    refine ⟨⟨new_solid config policy _, SymbolBuffer.new_ahead 0, ?_⟩, fun _ member => (List.not_mem_nil member).elim,
      fun _ member => (List.not_mem_nil member).elim, ?_, fun _ member => (List.not_mem_nil member).elim⟩
    · intro id data stored
      simp [new, SymbolBuffer.new] at stored
    · exact fun _ member => (List.not_mem_nil member).elim
  · intro calls before arrival after reply kept handled carries first
    rw [List.map_append, List.map_singleton] at first
    obtain ⟨earlier, timely⟩ := Arrival.sourcesFirst_append first
    have learned := kept earlier
    have free := learned.keyFree timely
    obtain ⟨next, took, ready, grows, own⟩ := learned.faithful.handle sized carries free handled
    have each {claim : Call (Decoder P) Arrival Reply → Prop} (old : ∀ call ∈ calls, claim call)
        (new : claim ⟨before, arrival, after, reply⟩) : ∀ call ∈ calls ++ [⟨before, arrival, after, reply⟩], claim call := by
      intro call member
      rcases List.mem_append.mp member with inside | last
      · exact old call inside
      · cases List.mem_singleton.mp last
        exact new
    refine ⟨heardOf_append calls _ ▸ next, each learned.free free, each learned.taken took, fun symbol member => ?_,
      each (fun call inside kind id held => grows id (learned.sources call inside kind id held)) own⟩
    rw [heardOf_append]
    rw [deliveries, List.flatMap_append] at member
    rcases List.mem_append.mp member with old | new
    · exact ⟨.inl (learned.delivered symbol old).1, (learned.delivered symbol old).2⟩
    · exact ready symbol (by simpa using new)

theorem run_accounted (run : Run handle (new config policy) calls final)
    (regular : ∀ call ∈ calls, call.input.Regular config.field) : Accounted config calls final := by
  refine run.preserves (Accounted config) (fun call => call.input.Regular config.field) ⟨new_shaped config policy, ?_, .nil, ?_⟩
    (fun _ _ _ _ _ accounted handled regular => accounted.call regular handled) regular
  · simp [new, SymbolBuffer.new]
  · intro id
    rw [if_neg (show ¬ id < (new config policy).buffer.nextDeliveryId from UInt32.not_lt_zero)]
    rfl

omit [FeedbackPolicy P] in
theorem Accounted.delivered_range (accounted : Accounted config calls final) (whole : gaps calls = []) :
    (delivered calls).map UInt32.toNat = List.range final.buffer.nextDeliveryId.toNat := by
  have ascending : ((delivered calls).map UInt32.toNat).Pairwise (· < ·) :=
    List.pairwise_map.mpr (accounted.sorted.imp fun less => (lt_iff _ _).mp less)
  refine ascending.eq_of_mem_iff List.pairwise_lt_range fun rank => ?_
  rw [List.mem_range, List.mem_map]
  have count (id : SourceSymbolId) : id ∈ delivered calls ↔ id < final.buffer.nextDeliveryId := by
    have tally := accounted.tally id
    rw [Decoder.tally, whole, List.countP_nil, Nat.add_zero] at tally
    rw [← List.count_pos_iff, tally]
    split <;> simp [*]
  constructor
  · rintro ⟨id, member, rfl⟩
    exact (lt_iff _ _).mp ((count id).mp member)
  · intro below
    have small : rank < 4294967296 := below.trans (toNat_lt _)
    refine ⟨UInt32.ofNat rank, (count _).mpr ?_, toNat_ofNat small⟩
    rw [lt_iff, toNat_ofNat small]
    exact below

end Runs
end Decoder

theorem Arrival.Carries.regular {config : DecoderConfig} {x : SourceSymbolId → Bytes} {arrival : Arrival}
    (carries : arrival.Carries config x) (below : ∀ id ∈ arrival.ids, id < 0xFFFFFFFF) : arrival.Regular config.field := by
  cases arrival with
  | source packet => exact below _ (List.mem_singleton.mpr rfl)
  | coded packet =>
    exact ⟨below, fun _ _ lists => ((show packet.States config.field config.symbolSize x from carries).regular.lists lists).2⟩

/-- What a decoder has delivered is a part of what was submitted, under the right ids and in order, and the
first symbols of it are complete until a gap is reported. -/
structure Conveys {P : Type} (submitted : List Bytes) (calls : List (Call (Decoder P) Arrival Reply)) (state : Decoder P) : Prop where
  taken : ∀ call ∈ calls, ∃ events, call.output = .ok events
  own : ∀ symbol ∈ Decoder.deliveries calls, submitted[symbol.1.toNat]? = some symbol.2
  ordered : ((Decoder.deliveries calls).map (·.1)).Pairwise (· < ·)
  part : ((Decoder.deliveries calls).map (·.2)).Sublist submitted
  complete : Decoder.gaps calls = [] →
    (Decoder.deliveries calls).map (·.2) = submitted.take state.buffer.nextDeliveryId.toNat

theorem sublist_of_ascending {α : Type} {whole : List α} {out : List (SourceSymbolId × α)}
    (ascending : (out.map (·.1)).Pairwise (· < ·)) (own : ∀ entry ∈ out, whole[entry.1.toNat]? = some entry.2) :
    (out.map (·.2)).Sublist whole := by
  suffices behind : ∀ base, (∀ entry ∈ out, base ≤ entry.1.toNat) → (out.map (·.2)).Sublist (whole.drop base) from
    behind 0 fun _ _ => Nat.zero_le _
  induction out with
  | nil => exact fun base _ => List.nil_sublist _
  | cons entry out ih =>
    intro base above
    rw [List.map_cons, List.pairwise_cons] at ascending
    have rest := ih ascending.2 (fun entry member => own entry (List.mem_cons_of_mem _ member)) (entry.1.toNat + 1)
      fun later member => (lt_iff _ _).mp (ascending.1 later.1 (List.mem_map_of_mem member))
    obtain ⟨inside, found⟩ := List.getElem?_eq_some_iff.mp (own entry List.mem_cons_self)
    have here : (entry :: out).map (·.2) = entry.2 :: out.map (·.2) := rfl
    rw [here, ← found]
    refine List.Sublist.trans ?_ (List.drop_sublist_drop_left whole (above entry List.mem_cons_self))
    rw [List.drop_eq_getElem_cons inside]
    exact rest.cons_cons _

theorem take_of_range {α : Type} {whole : List α} {out : List (SourceSymbolId × α)} {count : ℕ}
    (range : out.map (·.1.toNat) = List.range count) (own : ∀ entry ∈ out, whole[entry.1.toNat]? = some entry.2) :
    out.map (·.2) = whole.take count := by
  refine List.ext_getElem? fun i => ?_
  have rank : (out[i]?).map (·.1.toNat) = if i < count then some i else none := by
    rw [← List.getElem?_map, range]
    split
    next below => exact List.getElem?_range below
    next above =>
      apply List.getElem?_eq_none
      rw [List.length_range]
      exact Nat.le_of_not_lt above
  rw [List.getElem?_map, List.getElem?_take]
  cases found : out[i]? with
  | none =>
    rw [found] at rank
    split at rank
    · cases rank
    next above => rw [if_neg above, Option.map_none]
  | some entry =>
    rw [found, Option.map_some] at rank
    split at rank
    next below =>
      rw [if_pos below, Option.map_some, ← own entry (List.mem_of_getElem? found), Option.some.inj rank]
    next => cases rank

namespace Network
variable {W C F P : Type} [WindowPolicy W] [CongestionControl C] [FecRateController F] [FeedbackPolicy P]
  {config : EncoderConfig} {windowPolicy : W} {cc : C} {fec : F} {receivers : ReceiverId → DecoderConfig × P}
  {calls : List (Call (Network W C F P) NetworkAction NetworkReply)} {final : Network W C F P}

theorem arrivals_true (run : Run step (new config windowPolicy cc fec receivers) calls final) (fits : ∀ call ∈ calls, CoversFit call)
    (few : (accepted calls).length < 4294967296) {receiver : ReceiverId} (matched : (receivers receiver).1.Matches config)
    {own : Call (Decoder P) Arrival Reply} (member : own ∈ arrivals receiver calls) :
    own.input.Carries (receivers receiver).1 (stream config (accepted calls)) ∧
      ∀ id ∈ own.input.ids, id.toNat < (accepted calls).length := by
  obtain ⟨call, listed, found⟩ := List.mem_filterMap.mp member
  obtain ⟨index, datagram, _, _, sent, reads, _, _⟩ := arrivalAt_eq_some.mp found
  obtain ⟨earlier, before, ⟨later, same⟩, _⟩ := run.at_call listed
  have inside : accepted earlier <+: accepted calls :=
    accepted_prefix ⟨call :: later, by rw [← same, List.append_assoc, List.singleton_append]⟩
  have told := run_told before fun call member => fits call (by rw [← same]; simp [member])
  have holds := told.sent (accepted calls) inside few datagram (List.mem_of_getElem? sent)
  exact ⟨holds.carries _ matched _ reads, fun id held =>
    Nat.lt_of_lt_of_le (holds.below _ reads id held) inside.length_le⟩

theorem accepted_sized (run : Run step (new config windowPolicy cc fec receivers) calls final) :
    ∀ data ∈ accepted calls, data.length = config.symbolSize := by
  rw [← accepted_eq]
  exact (Encoder.runs_sound (encoder_run run)).sized

theorem conveys (run : Run step (new config windowPolicy cc fec receivers) calls final)
    (fits : ∀ call ∈ calls, CoversFit call) (few : (accepted calls).length < 4294967296) {receiver : ReceiverId}
    (matched : (receivers receiver).1.Matches config) (first : Arrival.SourcesFirst ((arrivals receiver calls).map (·.input))) :
    Conveys (accepted calls) (arrivals receiver calls) (final.decoders receiver) := by
  have sized : ∀ id, (stream config (accepted calls) id).length = (receivers receiver).1.symbolSize := by
    rw [matched.symbolSize]
    exact stream_sized (accepted_sized run)
  have own := receiver_run run receiver
  have learned := Decoder.run_learned own sized (fun call member => (arrivals_true run fits few matched member).1) first
  have entries : ∀ symbol ∈ Decoder.deliveries (arrivals receiver calls), (accepted calls)[symbol.1.toNat]? = some symbol.2 := by
    intro symbol member
    obtain ⟨⟨call, listed, heard⟩, same⟩ := learned.delivered symbol member
    have inside := (arrivals_true run fits few matched listed).2 symbol.1 heard
    rw [same, stream, List.getD_eq_getElem _ _ inside]
    exact List.getElem?_eq_getElem inside
  have accounted := Decoder.run_accounted own fun call member => (arrivals_true run fits few matched member).1.regular fun id held => by
    have inside := (arrivals_true run fits few matched member).2 id held
    rw [lt_iff, show (0xFFFFFFFF : UInt32).toNat = 4294967295 from rfl]
    omega
  have ordered := accounted.sorted
  rw [← Decoder.deliveries_ids] at ordered
  refine ⟨learned.taken, entries, ordered, sublist_of_ascending ordered entries, fun whole => take_of_range ?_ entries⟩
  have range := accounted.delivered_range whole
  rwa [← Decoder.deliveries_ids, List.map_map] at range

/-- Where no source packet comes late, a receiver takes every packet and delivers a part of the submitted symbols, in
order, and it delivers the first of them without exception until it reports a gap. -/
theorem delivers_stream (run : Run step (new config windowPolicy cc fec receivers) calls final)
    (fits : ∀ call ∈ calls, CoversFit call) (few : (accepted calls).length < 4294967296) (receiver : ReceiverId)
    (matched : (receivers receiver).1.Matches config) (first : Arrival.SourcesFirst ((arrivals receiver calls).map (·.input))) :
    Conveys (accepted calls) (arrivals receiver calls) (final.decoders receiver) :=
  conveys run fits few matched first

instance (cover : List SourceSymbolId) : Decidable (Encoder.CoverFits cover) := inferInstanceAs (Decidable (_ ∧ _))

def coversFit (calls : List (Call SmallNetwork NetworkAction NetworkReply)) : Bool :=
  calls.all fun call => match call.input with
    | .encode action => decide (Encoder.CoverFits (call.before.encoder.covers action))
    | _ => true

theorem of_coversFit {calls : List (Call SmallNetwork NetworkAction NetworkReply)} (checked : coversFit calls = true) :
    ∀ call ∈ calls, CoversFit call := by
  intro call member action outputs bytes input _ _
  have fits := List.all_eq_true.mp checked call member
  rw [input] at fits
  exact of_decide_eq_true fits

/-- The receiver of the first of two symbols and of a packet that covers both delivers both. -/
theorem delivers_stream_two :
    ∃ (calls : List (Call SmallNetwork NetworkAction NetworkReply)) (final : SmallNetwork),
      Run step (new Encoder.smallConfig {} {} ⟨0, 1, 0⟩ smallReceivers) calls final ∧ accepted calls = [[1], [2]] ∧
        Decoder.deliveries (arrivals 7 calls) = [(0, [1]), (1, [2])] ∧
        Conveys [[1], [2]] (arrivals 7 calls) (final.decoders 7) := by
  obtain ⟨calls, final, run, check⟩ := Run.exists_of_check step
    (new Encoder.smallConfig {} {} ⟨0, 1, 0⟩ smallReceivers : SmallNetwork)
    [.encode (.submit [1]), .encode (.submit [2]), .encode .coded, .deliver 7 0, .deliver 7 2]
    (fun result => decide (accepted result.1 = [[1], [2]] ∧ Decoder.deliveries (arrivals 7 result.1) = [(0, [1]), (1, [2])] ∧
      Arrival.SourcesFirst ((arrivals 7 result.1).map (·.input))) && coversFit result.1) (by decide +kernel)
  obtain ⟨shape, fits⟩ := Bool.and_eq_true_iff.mp check
  obtain ⟨symbols, delivered, first⟩ := of_decide_eq_true shape
  have few : (accepted calls).length < 4294967296 := by
    rw [symbols]
    decide
  have conveys := delivers_stream run (of_coversFit fits) few 7 ⟨rfl, rfl⟩ first
  rw [symbols] at conveys
  exact ⟨calls, final, run, symbols, delivered, conveys⟩

end Network
end Delp
