import Delp.Proofs.CauchyPoints
import Delp.Proofs.TrueDelivery
import Delp.Proofs.VandermondePoints

/-! What the repair packets of a submission repair: as many lost symbols of the window as there are
packets, for either strategy, at a receiver that keeps every row. -/

namespace Delp
open Machine Config Gf Elimination

namespace Encoder
variable {W C F : Type}

/-- The point of an id: coded packets do not tell ids of one point apart. -/
def pointOf (config : EncoderConfig) (id : SourceSymbolId) : ℕ :=
  match config.matrixStrategy with
  | .vandermonde => id.toNat % CoefGen.powers config.field
  | .cauchy => id.toNat % EncoderConfigBuilder.cauchyMax config.field

def coefFor (config : EncoderConfig) (id : SourceSymbolId) (codedId : CodedSymbolId) (generation : UInt8) : Result UInt8 :=
  match config.matrixStrategy with
  | .vandermonde => CoefGen.vandermondeCoef config.field id codedId
  | .cauchy => CoefGen.cauchyCoef config.field id codedId generation

theorem coefficientsFor_rows {self : Encoder W C F} {cover : List SourceSymbolId} {codedId : CodedSymbolId} {generation : UInt8}
    {coefs : Bytes} {ev : EncodingVector} (coded : self.coefficientsFor cover codedId generation = .ok (coefs, ev)) :
    List.Forall₂ (fun id c => coefFor self.config id codedId generation = .ok c) cover coefs := by
  unfold coefFor
  cases strategy : self.config.matrixStrategy with
  | vandermonde =>
    rw [coefficientsFor, strategy] at coded
    obtain ⟨batch, generated, coded⟩ := Outcome.bind_eq_ok.mp coded
    obtain ⟨vector, _, same⟩ := Outcome.bind_eq_ok.mp coded
    cases same
    rw [CoefGen.vandermondeBatch_eq] at generated
    exact Outcome.mapM_eq_ok.mp generated
  | cauchy =>
    rw [coefficientsFor_cauchy strategy] at coded
    obtain ⟨_, _, coded⟩ := Outcome.bind_eq_ok.mp coded
    obtain ⟨batch, generated, coded⟩ := Outcome.bind_eq_ok.mp coded
    obtain ⟨vector, _, same⟩ := Outcome.bind_eq_ok.mp coded
    cases same
    exact Outcome.mapM_eq_ok.mp generated

theorem coefFor_square {config : EncoderConfig} {k start : ℕ} {ids codedIds : Fin k → UInt32} {generation : UInt8}
    (apart : Function.Injective fun i => pointOf config (ids i)) (successive : ∀ j, (codedIds j).toNat = start + j)
    (above : firstCodedId config.matrixStrategy ≤ start) (inCycle : start + k ≤ codedIdLimit config.matrixStrategy config.field) :
    ∃ coefs : Fin k → Fin k → UInt8, (∀ i j, coefFor config (ids i) (codedIds j) generation = .ok (coefs i j)) ∧
      (Matrix.of fun i j => elem config.field (coefs i j)).det ≠ 0 := by
  unfold pointOf at apart
  unfold coefFor
  cases strategy : config.matrixStrategy with
  | vandermonde =>
    rw [strategy] at apart above inCycle
    have limit : start + k ≤ 255 := by
      refine inCycle.trans ?_
      cases config.field <;> decide
    have number : (UInt32.ofNat start).toNat = start := toNat_ofNat (by omega)
    have positive : 1 ≤ UInt32.ofNat start := (le_iff _ _).mpr (by rw [number]; exact above)
    obtain ⟨coefs, derived, nonsingular⟩ := CoefGen.vandermonde_square apart positive (by rwa [number])
    refine ⟨coefs, fun i j => ?_, nonsingular⟩
    have inside := j.isLt
    have same : codedIds j = UInt32.ofNat start + UInt32.ofNat j := by
      rw [eq_iff, successive, toNat_add (by rw [number, toNat_ofNat (by omega)]; omega), number, toNat_ofNat (by omega)]
    rw [same]
    exact (derived i j).1
  | cauchy =>
    rw [strategy] at apart inCycle
    have below (j : Fin k) : (codedIds j).toNat < EncoderConfigBuilder.cauchyMax config.field := by
      have inside := j.isLt
      rw [successive]
      exact Nat.lt_of_lt_of_le (by omega) inCycle
    let generations : Fin k → UInt8 := fun _ => generation
    have rows : Function.Injective fun j => CoefGen.rowOffset config.field (codedIds j).toNat (generations j).toNat := by
      intro i j same
      simp only [CoefGen.rowOffset, successive] at same
      have first : start + i < EncoderConfigBuilder.cauchyMax config.field := successive i ▸ below i
      have second : start + j < EncoderConfigBuilder.cauchyMax config.field := successive j ▸ below j
      have cancelled : (start + i.val) % EncoderConfigBuilder.cauchyMax config.field =
          (start + j.val) % EncoderConfigBuilder.cauchyMax config.field := Nat.ModEq.add_right_cancel' _ same
      rw [Nat.mod_eq_of_lt first, Nat.mod_eq_of_lt second] at cancelled
      exact Fin.ext (by omega)
    obtain ⟨coefs, derived, nonsingular⟩ := CoefGen.cauchy_square apart below rows
    refine ⟨fun i j => coefs j i, fun i j => (derived j i).1, ?_⟩
    rw [← Matrix.det_transpose]
    exact nonsingular

section Burst
variable [CongestionControl C] {config : EncoderConfig} {submitted : List Bytes}

theorem Codes.counters {self after : Encoder W C F} {cover : List SourceSymbolId} {bytes : Bytes} (sound : Sound config self submitted)
    (codes : self.Codes cover bytes after)
    (inside : self.nextCodedId.toNat + 1 < codedIdLimit config.matrixStrategy config.field) :
    after.nextCodedId.toNat = self.nextCodedId.toNat + 1 ∧ after.generation = self.generation := by
  obtain ⟨next, cc, advanced, rfl⟩ := codes.advanced
  have counts : Counts self.config self.nextCodedId := by rw [sound.configured]; exact sound.counts
  obtain ⟨other, same, turned⟩ := advanceCodedId_eq counts
  cases advanced.symm.trans same
  rw [sound.configured, if_neg (by omega)] at turned
  exact turned

theorem Emits.nth {self after : Encoder W C F} (sound : Sound config self submitted) {outputs : List EncoderOutput}
    (emits : Emits self outputs after)
    (inCycle : self.nextCodedId.toNat + outputs.length ≤ codedIdLimit config.matrixStrategy config.field) {j : ℕ}
    (inside : j < outputs.length) :
    ∃ (middle next : Encoder W C F) (bytes : Bytes), outputs[j]? = some (.coded bytes) ∧ Sound config middle submitted ∧
      middle.Codes self.window.idSlice bytes next ∧ middle.nextCodedId.toNat = self.nextCodedId.toNat + j ∧
      middle.generation = self.generation := by
  induction emits generalizing j with
  | done => cases inside
  | @next self middle _ bytes rest codes later ih =>
    rw [List.length_cons] at inCycle inside
    cases j with
    | zero => exact ⟨self, middle, bytes, rfl, sound, codes, rfl, rfl⟩
    | succ j =>
      obtain ⟨middleSound, window, _⟩ := sound.codes codes
      obtain ⟨counter, generation⟩ := codes.counters sound (by omega)
      obtain ⟨state, next, bytes, at_, stateSound, codes, number, same⟩ := ih middleSound (by omega) (show j < rest.length by omega)
      rw [window] at codes
      exact ⟨state, next, bytes, at_, stateSound, codes, by omega, same.trans generation⟩

end Burst
end Encoder

namespace Decoder
variable {P : Type} [FeedbackPolicy P] {config : DecoderConfig} {policy : P} {calls : List (Call (Decoder P) Arrival Reply)}
  {final : Decoder P}

private theorem row_eq_sum {field : Config.Field} {ev : EncodingVector} (distinct : ev.sourceIds.Nodup) {coefs : Bytes}
    (derived : ev.coefs = .ok coefs) : ev.row field =
      ∑ p : Fin ev.sourceIds.length, elem field (coefs.getD p 0) • (Pi.single ev.sourceIds[p] 1 : SourceSymbolId → field.Elem) := by
  have matched : coefs.length = ev.sourceIds.length := by
    rw [Outcome.length_mapM derived, List.length_zipIdx]
  have listed : (ev.sourceIds.zip coefs).map (fun term => elem field term.2 • (Pi.single term.1 1 : SourceSymbolId → field.Elem)) =
      List.ofFn fun p : Fin ev.sourceIds.length => elem field (coefs.getD p 0) • Pi.single ev.sourceIds[p] 1 := by
    refine List.ext_getElem (by simp [matched]) fun p inside _ => ?_
    have here : p < coefs.length := by
      rw [List.length_map, List.length_zip] at inside
      omega
    simp [List.getElem_zip, here]
  rw [(DecodingMatrix.coefMap_columns field distinct derived).2, EncodingVector.columns, listed, List.sum_ofFn]

omit [FeedbackPolicy P] in
theorem Solid.knows {target : Submodule config.field.Elem (SourceSymbolId → config.field.Elem)}
    (solid : final.Solid config ((received config.field calls).comap (LinearMap.fst _ _ _)) target) {id : SourceSymbolId}
    (held : id ∈ final.known) : Pi.single id 1 ∈ received config.field calls := by
  obtain ⟨data, stored⟩ := Option.isSome_iff_exists.mp (Std.TreeMap.mem_iff_isSome_getElem?.mp held)
  exact (solid.known id data stored).2

omit [FeedbackPolicy P] in
theorem Solid.knows_iff (solid : final.Solid config ((received config.field calls).comap (LinearMap.fst _ _ _))
    (received config.field calls)) (id : SourceSymbolId) : id ∈ final.known ↔ Pi.single id 1 ∈ received config.field calls := by
  constructor
  · exact solid.knows
  · intro determined
    exact (solid.matrix.determines_iff solid.unsolved id).mp (solid.matrix.system.covers determined)

omit [FeedbackPolicy P] in
theorem Faithful.known_eq {x : SourceSymbolId → Bytes} {heard : Set SourceSymbolId} (faithful : final.Faithful config x heard)
    (sized : ∀ id, (x id).length = config.symbolSize) {id : SourceSymbolId} (held : id ∈ final.known) : final.known[id]? = some (x id) := by
  obtain ⟨data, stored⟩ := Option.isSome_iff_exists.mp (Std.TreeMap.mem_iff_isSome_getElem?.mp held)
  obtain ⟨fitting, holds⟩ := faithful.solid.known id data stored
  rw [stored, symbol_injective (fitting.trans (sized id).symm) (symbolEquation_mem_truths.mp (Submodule.mem_inf.mp holds).1)]

omit [FeedbackPolicy P] in
theorem Solid.repairs (solid : final.Solid config ((received config.field calls).comap (LinearMap.fst _ _ _))
      (received config.field calls)) {cover : List SourceSymbolId} (distinct : cover.Nodup) {k : ℕ}
    {packets : Fin k → CodedPacket} {coefs : Fin k → Bytes} (covers : ∀ j, (packets j).ev.sourceIds = cover)
    (derived : ∀ j, (packets j).ev.coefs = .ok (coefs j)) (heard : ∀ j, ∃ call ∈ calls, call.input = .coded (packets j))
    {place : Fin k → Fin cover.length} (apart : Function.Injective place)
    (others : ∀ p, (∀ i, place i ≠ p) → cover[p] ∈ final.known)
    (nonsingular : (Matrix.of fun i j => elem config.field ((coefs j).getD (place i) 0)).det ≠ 0) {id : SourceSymbolId}
    (member : id ∈ cover) : id ∈ final.known := by
  have row (j : Fin k) : ∑ p : Fin cover.length, elem config.field ((coefs j).getD p 0) • (Pi.single cover[p] 1 : _ → config.field.Elem) ∈
      received config.field calls := by
    obtain ⟨call, member, input⟩ := heard j
    have here : (packets j).ev.row config.field ∈ received config.field calls :=
      Submodule.subset_span ⟨call, member, by rw [input]; rfl⟩
    have same := covers j
    subst same
    rwa [row_eq_sum distinct (derived j)] at here
  obtain ⟨place', inside, rfl⟩ := List.getElem_of_mem member
  rw [solid.knows_iff]
  by_cases lost : ∃ i, place i = ⟨place', inside⟩
  · obtain ⟨i, here⟩ := lost
    have back := lost_mem row apart (fun p free => (solid.knows_iff _).mp (others p free)) nonsingular i
    rw [here] at back
    exact back
  · exact (solid.knows_iff _).mp (others ⟨place', inside⟩ fun i same => lost ⟨i, same⟩)

end Decoder

namespace Network
variable {W C F P : Type} [WindowPolicy W] [CongestionControl C] [FecRateController F] [FeedbackPolicy P]
  {config : EncoderConfig} {windowPolicy : W} {cc : C} {fec : F} {receivers : ReceiverId → DecoderConfig × P}
  {calls : List (Call (Network W C F P) NetworkAction NetworkReply)} {final : Network W C F P}

def missing (window : EncodingWindow) (decoder : Decoder P) : List SourceSymbolId :=
  window.idSlice.filter fun id => decide (id ∉ decoder.known)

def unread (window : EncodingWindow) (own : List (Call (Decoder P) Arrival Reply)) : List SourceSymbolId :=
  window.idSlice.filter fun id => own.all fun call => decide (call.input.kind ≠ .source ∨ id ∉ call.input.ids)

/-- A submission of the run, with the coded packets that it puts behind its source packet. -/
structure Submits (call : Call (Network W C F P) NetworkAction NetworkReply) (coded : List EncoderOutput) : Prop where
  submits : ∃ data, call.input = .encode (.submit data)
  output : ∃ pkt, call.output = .encoded (.ok (.source pkt :: coded))

/-- One coded packet of a submission, as a receiver reads it. -/
structure Repair (config : EncoderConfig) (window : EncodingWindow) (start : ℕ) (generation : UInt8) (j : ℕ) (bytes : Bytes)
    (packet : CodedPacket) (coefs : Bytes) : Prop where
  reads : CodedPacket.parse bytes = .ok packet
  covers : packet.ev.sourceIds = window.idSlice
  derived : packet.ev.coefs = .ok coefs
  rows : ∃ codedId : CodedSymbolId, codedId.toNat = start + j ∧
    List.Forall₂ (fun id c => Encoder.coefFor config id codedId generation = .ok c) window.idSlice coefs

omit [WindowPolicy W] [CongestionControl C] [FecRateController F] [FeedbackPolicy P] in
theorem Repair.nonsingular {window : EncodingWindow} {start k : ℕ} {generation : UInt8} {bytes : Fin k → Bytes}
    {packets : Fin k → CodedPacket} {coefs : Fin k → Bytes}
    (repairs : ∀ j : Fin k, Repair config window start generation j (bytes j) (packets j) (coefs j)) {lost : Fin k → SourceSymbolId}
    {place : Fin k → Fin window.idSlice.length} (places : ∀ i, window.idSlice[place i] = lost i)
    (points : Function.Injective fun i => Encoder.pointOf config (lost i))
    (above : Encoder.firstCodedId config.matrixStrategy ≤ start)
    (inCycle : start + k ≤ Encoder.codedIdLimit config.matrixStrategy config.field) :
    (Matrix.of fun i j => elem config.field ((coefs j).getD (place i) 0)).det ≠ 0 := by
  choose codedIds numbers rows using fun j => (repairs j).rows
  obtain ⟨square, derived, nonsingular⟩ := @Encoder.coefFor_square config k start lost codedIds generation points numbers above inCycle
  have entries : (Matrix.of fun i j => elem config.field ((coefs j).getD (place i) 0)) =
      Matrix.of fun i j => elem config.field (square i j) := by
    apply Matrix.ext
    intro i j
    have here : (place i).val < (coefs j).length := by rw [← (rows j).length_eq]; exact (place i).isLt
    have listed := (List.forall₂_iff_get.mp (rows j)).2 (place i) (place i).isLt here
    have spelled := derived i j
    rw [← places i] at spelled
    have same := Outcome.ok.inj (listed.symm.trans spelled)
    rw [Matrix.of_apply, Matrix.of_apply, List.getD_eq_getElem _ _ here]
    exact congrArg (elem config.field) same
  rw [entries]
  exact nonsingular

theorem Submits.repair {call : Call (Network W C F P) NetworkAction NetworkReply} {coded : List EncoderOutput}
    (submits : Submits call coded) {submitted : List Bytes} (sound : Encoder.Sound config call.before.encoder submitted)
    (steps : Steps call.before call.input call.output call.after) (fits : CoversFit call)
    (inCycle : call.before.encoder.nextCodedId.toNat + coded.length ≤ Encoder.codedIdLimit config.matrixStrategy config.field) {j : ℕ}
    (inside : j < coded.length) :
    ∃ bytes packet coefs, .coded bytes ∈ coded ∧ Repair config call.after.encoder.window call.before.encoder.nextCodedId.toNat
      call.before.encoder.generation j bytes packet coefs := by
  obtain ⟨before, action, after, reply⟩ := call
  obtain ⟨⟨data, same⟩, pkt, replied⟩ := submits
  dsimp only at same replied steps inCycle fits ⊢
  subst same replied
  cases steps with
  | @encoded _ encoder _ acted =>
    cases Encoder.act_ok acted with
    | @submitted _ room window id _ cc fec _ _ sized made pushed serialised emits =>
      have ready := sound.pushed sized made pushed cc fec
      have same : encoder.window = window := (ready.emits emits).2.1
      obtain ⟨middle, next, bytes, at_, middleSound, codes, number, generation⟩ := emits.nth ready inCycle inside
      have member := List.mem_of_getElem? at_
      have cover : before.encoder.covers (.submit data) = window.idSlice := by
        obtain ⟨ids, counter⟩ := Encoder.makeRoom_kept made
        rw [Encoder.covers, EncodingWindow.idSlice, (EncodingWindow.push_eq pushed).2.2.1, List.map_append, List.map_singleton,
          ← ids, ← counter]
        rfl
      obtain ⟨short, spaced⟩ := fits _ _ bytes rfl rfl (List.mem_cons_of_mem _ member)
      rw [cover] at short spaced
      obtain ⟨coefs, packet, coded, _, parsed, _, listed, derived⟩ := codes.reads middleSound short spaced
      have rows := Encoder.coefficientsFor_rows coded
      rw [middleSound.configured, generation] at rows
      rw [same]
      exact ⟨bytes, packet, coefs, member, parsed, listed, derived, middle.nextCodedId, number, rows⟩

/-- A receiver with room for every row that reads the coded packets of a submission holds the whole window of it, if it lacks
no more symbols than there are packets, of points that are distinct. -/
theorem submission_repairs (run : Run step (new config windowPolicy cc fec receivers) calls final)
    (fits : ∀ call ∈ calls, CoversFit call) (few : (accepted calls).length < 4294967296) (receiver : ReceiverId)
    (matched : (receivers receiver).1.Matches config) (first : Arrival.SourcesFirst ((arrivals receiver calls).map (·.input)))
    (room : ∀ own ∈ arrivals receiver calls, own.before.matrix.rowCount < (receivers receiver).1.maxMatrixRows)
    {call : Call (Network W C F P) NetworkAction NetworkReply} (member : call ∈ calls) {coded : List EncoderOutput}
    (submits : Submits call coded)
    (inCycle : call.before.encoder.nextCodedId.toNat + coded.length ≤ Encoder.codedIdLimit config.matrixStrategy config.field)
    (read : ∀ bytes, .coded bytes ∈ coded → ∃ own ∈ arrivals receiver calls, own.input.Reads bytes)
    (lost : (missing call.after.encoder.window (final.decoders receiver)).length ≤ coded.length)
    (points : ((missing call.after.encoder.window (final.decoders receiver)).map (Encoder.pointOf config)).Nodup) :
    ∀ s ∈ call.after.encoder.window.symbols, (final.decoders receiver).known[s.id]? = some s.data := by
  obtain ⟨earlier, before, inside, stepped⟩ := run.at_call member
  have told := run_told before fun call member => fits call (inside.subset (List.mem_append_left _ member))
  have steps := step_ok stepped
  have afterSound := sound_step told.sound steps
  have within := accepted_prefix inside
  have afterFew : (accepted (earlier ++ [call])).length < 4294967296 := Nat.lt_of_le_of_lt within.length_le few
  have distinct : call.after.encoder.window.idSlice.Nodup :=
    (afterSound.ordered afterFew).2.1.imp fun less => UInt32.ne_of_lt less
  -- what the receiver knows is true
  have sized : ∀ id, (stream config (accepted calls) id).length = (receivers receiver).1.symbolSize := by
    rw [matched.symbolSize]
    exact stream_sized (accepted_sized run)
  have carries (own : Call (Decoder P) Arrival Reply) (member : own ∈ arrivals receiver calls) :=
    (arrivals_true run fits few matched member).1
  have own := receiver_run run receiver
  have learned := Decoder.run_learned own sized carries first
  have solid := Decoder.run_determines own (fun call member => (carries call member).acceptable sized) learned.free room
  -- the packets that repair, one for each lost symbol
  generalize gone : missing call.after.encoder.window (final.decoders receiver) = ids at lost points
  have repair (j : Fin ids.length) := Submits.repair (P := P) submits told.sound steps (fits call member) inCycle (Nat.lt_of_lt_of_le j.isLt lost)
  choose bytes packets coefs sent repairs using repair
  have heard (j : Fin ids.length) : ∃ call ∈ arrivals receiver calls, call.input = .coded (packets j) := by
    obtain ⟨own, listed, reads⟩ := read (bytes j) (sent j)
    refine ⟨own, listed, ?_⟩
    have same := Arrival.ofRaw_eq_some.mpr (show (Arrival.coded (packets j)).Reads (bytes j) from (repairs j).reads)
    exact Option.some.inj ((Arrival.ofRaw_eq_some.mpr reads).symm.trans same)
  have held (i : Fin ids.length) : ids[i] ∈ call.after.encoder.window.idSlice ∧ ids[i] ∉ (final.decoders receiver).known := by
    have listed : ids[i] ∈ missing call.after.encoder.window (final.decoders receiver) := gone ▸ List.getElem_mem i.isLt
    obtain ⟨inside, unknown⟩ := List.mem_filter.mp listed
    exact ⟨inside, of_decide_eq_true unknown⟩
  have spot (i : Fin ids.length) : ∃ p : Fin call.after.encoder.window.idSlice.length, call.after.encoder.window.idSlice[p] = ids[i] := by
    obtain ⟨p, inside, here⟩ := List.getElem_of_mem (held i).1
    exact ⟨⟨p, inside⟩, here⟩
  choose place places using spot
  have idsDistinct : ids.Nodup := gone ▸ distinct.filter _
  have apart : Function.Injective place := by
    intro i j same
    have equal : ids[i] = ids[j] := by rw [← places i, ← places j, same]
    exact List.nodup_iff_injective_get.mp idsDistinct equal
  have apartPoints : Function.Injective fun i : Fin ids.length => Encoder.pointOf config ids[i] := by
    intro i j same
    exact List.nodup_iff_injective_get.mp idsDistinct (List.inj_on_of_nodup_map points (List.get_mem ids i) (List.get_mem ids j) same)
  have nonsingular := Repair.nonsingular repairs places apartPoints told.sound.counts.1 (by omega)
  rw [← matched.field] at nonsingular
  have all (id : SourceSymbolId) (covered : id ∈ call.after.encoder.window.idSlice) : id ∈ (final.decoders receiver).known := by
    refine solid.repairs distinct (fun j => (repairs j).covers) (fun j => (repairs j).derived) heard apart (fun p others => ?_)
      nonsingular covered
    by_contra unknown
    have listed : call.after.encoder.window.idSlice[p] ∈ ids := by
      rw [← gone]
      exact List.mem_filter.mpr ⟨List.getElem_mem p.isLt, decide_eq_true unknown⟩
    obtain ⟨i, inside, here⟩ := List.getElem_of_mem listed
    exact others ⟨i, inside⟩ (List.nodup_iff_injective_get.mp distinct ((places ⟨i, inside⟩).trans here))
  intro s inside
  rw [learned.faithful.known_eq sized (all s.id (List.mem_map_of_mem inside)), afterSound.stream_held within few inside]

/-- A receiver with room for every row that reads the coded packets of a submission holds the whole window of it, if no more
source packets of the window are lost to it than there are coded packets, of points that are distinct. -/
theorem losses_repaired (run : Run step (new config windowPolicy cc fec receivers) calls final)
    (fits : ∀ call ∈ calls, CoversFit call) (few : (accepted calls).length < 4294967296) (receiver : ReceiverId)
    (matched : (receivers receiver).1.Matches config) (first : Arrival.SourcesFirst ((arrivals receiver calls).map (·.input)))
    (room : ∀ own ∈ arrivals receiver calls, own.before.matrix.rowCount < (receivers receiver).1.maxMatrixRows)
    {call : Call (Network W C F P) NetworkAction NetworkReply} (member : call ∈ calls) {coded : List EncoderOutput}
    (submits : Submits call coded)
    (inCycle : call.before.encoder.nextCodedId.toNat + coded.length ≤ Encoder.codedIdLimit config.matrixStrategy config.field)
    (read : ∀ bytes, .coded bytes ∈ coded → ∃ own ∈ arrivals receiver calls, own.input.Reads bytes)
    (lost : (unread call.after.encoder.window (arrivals receiver calls)).length ≤ coded.length)
    (points : ((unread call.after.encoder.window (arrivals receiver calls)).map (Encoder.pointOf config)).Nodup) :
    ∀ s ∈ call.after.encoder.window.symbols, (final.decoders receiver).known[s.id]? = some s.data := by
  have sized : ∀ id, (stream config (accepted calls) id).length = (receivers receiver).1.symbolSize := by
    rw [matched.symbolSize]
    exact stream_sized (accepted_sized run)
  have learned := Decoder.run_learned (receiver_run run receiver) sized
    (fun call member => (arrivals_true run fits few matched member).1) first
  have fewer : (missing call.after.encoder.window (final.decoders receiver)).Sublist
      (unread call.after.encoder.window (arrivals receiver calls)) := by
    refine List.monotone_filter_right _ fun id unknown => ?_
    refine List.all_eq_true.mpr fun own listed => decide_eq_true ?_
    by_contra source
    rw [not_or, not_not, not_not] at source
    exact of_decide_eq_true unknown (learned.sources own listed source.1 id source.2)
  exact submission_repairs run fits few receiver matched first room member submits inCycle read (fewer.length_le.trans lost)
    (points.sublist (fewer.map _))

def codedOf (call : Call (Network W C F P) NetworkAction NetworkReply) : Option (List EncoderOutput) :=
  match call.input, call.output with
  | .encode (.submit _), .encoded (.ok (.source _ :: coded)) => some coded
  | _, _ => none

omit [WindowPolicy W] [CongestionControl C] [FecRateController F] [FeedbackPolicy P] in
theorem submits_of {call : Call (Network W C F P) NetworkAction NetworkReply} {coded : List EncoderOutput}
    (found : codedOf call = some coded) : Submits call coded := by
  unfold codedOf at found
  split at found
  next data pkt rest input output =>
    cases found
    exact ⟨⟨data, input⟩, pkt, output⟩
  next => cases found

/-- A run that loses both source packets of a window of two, and not the two coded packets of the second submission. -/
structure BothLost (calls : List (Call SmallNetwork NetworkAction NetworkReply)) (final : SmallNetwork)
    (earlier : List (Call SmallNetwork NetworkAction NetworkReply)) (call : Call SmallNetwork NetworkAction NetworkReply)
    (coded : List EncoderOutput) : Prop where
  run : Run step (new Encoder.smallConfig {} {} ⟨2, 1, 0⟩ smallReceivers) calls final
  fits : ∀ call ∈ calls, CoversFit call
  count : (accepted calls).length = 2
  first : Arrival.SourcesFirst ((arrivals 7 calls).map (·.input))
  kinds : ∀ own ∈ arrivals 7 calls, own.input.kind = .coded
  room : ∀ own ∈ arrivals 7 calls, own.before.matrix.rowCount < 512
  whole : Decoder.gaps (arrivals 7 calls) = []
  inside : earlier ++ [call] <+: calls
  submitted : accepted (earlier ++ [call]) = [[1], [2]]
  submits : Submits call coded
  two : coded.length = 2
  inCycle : call.before.encoder.nextCodedId.toNat + coded.length ≤ 255
  read : ∀ bytes, .coded bytes ∈ coded → ∃ own ∈ arrivals 7 calls, own.input.Reads bytes
  lost : (unread call.after.encoder.window (arrivals 7 calls)).length ≤ coded.length
  points : ((unread call.after.encoder.window (arrivals 7 calls)).map (Encoder.pointOf Encoder.smallConfig)).Nodup
  window : call.after.encoder.window.symbols = [⟨0, [1]⟩, ⟨1, [2]⟩]

def bothLost (calls : List (Call SmallNetwork NetworkAction NetworkReply)) : Bool :=
  (calls[1]?).any fun call => (codedOf call).any fun coded =>
    decide (accepted (calls.take 2) = [[1], [2]] ∧ coded.length = 2 ∧ call.before.encoder.nextCodedId.toNat + coded.length ≤ 255 ∧
      (unread call.after.encoder.window (arrivals 7 calls)).length ≤ coded.length ∧
      ((unread call.after.encoder.window (arrivals 7 calls)).map (Encoder.pointOf Encoder.smallConfig)).Nodup ∧
      call.after.encoder.window.symbols = [⟨0, [1]⟩, ⟨1, [2]⟩]) &&
    coded.all fun output => (arrivals 7 calls).any fun own => decide (Arrival.ofRaw output.raw = some own.input)

theorem both_lost : ∃ calls final earlier call coded, BothLost calls final earlier call coded := by
  obtain ⟨calls, final, run, check⟩ := Run.exists_of_check step
    (new Encoder.smallConfig {} {} ⟨2, 1, 0⟩ smallReceivers : SmallNetwork)
    [.encode (.submit [1]), .encode (.submit [2]), .deliver 7 4, .deliver 7 5]
    (fun result => decide ((accepted result.1).length = 2 ∧ Arrival.SourcesFirst ((arrivals 7 result.1).map (·.input)) ∧
      (∀ own ∈ arrivals 7 result.1, own.input.kind = .coded) ∧ (∀ own ∈ arrivals 7 result.1, own.before.matrix.rowCount < 512) ∧
      Decoder.gaps (arrivals 7 result.1) = []) && (coversFit result.1 && bothLost result.1)) (by decide +kernel)
  obtain ⟨shape, check⟩ := Bool.and_eq_true_iff.mp check
  obtain ⟨fits, lost⟩ := Bool.and_eq_true_iff.mp check
  obtain ⟨count, first, kinds, room, whole⟩ := of_decide_eq_true shape
  obtain ⟨call, found, lost⟩ := (Option.any_eq_true _ _).mp lost
  obtain ⟨coded, submits, lost⟩ := (Option.any_eq_true _ _).mp lost
  obtain ⟨shape, read⟩ := Bool.and_eq_true_iff.mp lost
  obtain ⟨submitted, two, inCycle, fewer, points, window⟩ := of_decide_eq_true shape
  have second : calls.take 2 = calls.take 1 ++ [call] := by
    rw [List.take_add_one, found, Option.toList_some]
  refine ⟨calls, final, calls.take 1, call, coded, run, of_coversFit fits, count, first, kinds, room, whole,
    second ▸ List.take_prefix 2 calls, second ▸ submitted, submits_of submits, two, inCycle, fun bytes member => ?_, fewer, points,
    window⟩
  obtain ⟨own, listed, same⟩ := List.any_eq_true.mp (List.all_eq_true.mp read _ member)
  exact ⟨own, listed, Arrival.ofRaw_eq_some.mp (of_decide_eq_true same)⟩

/-- Both source packets are lost, and the two coded packets of the second submission bring back their symbols. -/
theorem losses_repaired_both :
    ∃ (calls : List (Call SmallNetwork NetworkAction NetworkReply)) (final : SmallNetwork),
      Run step (new Encoder.smallConfig {} {} ⟨2, 1, 0⟩ smallReceivers) calls final ∧
        (∀ own ∈ arrivals 7 calls, own.input.kind = .coded) ∧
        (final.decoders 7).known[(0 : SourceSymbolId)]? = some [1] ∧ (final.decoders 7).known[(1 : SourceSymbolId)]? = some [2] := by
  obtain ⟨calls, final, earlier, call, coded, both⟩ := both_lost
  have few : (accepted calls).length < 4294967296 := by
    rw [both.count]
    decide
  have held := losses_repaired both.run both.fits few 7 ⟨rfl, rfl⟩ both.first both.room
    (both.inside.subset (List.mem_append_right _ (List.mem_singleton.mpr rfl))) both.submits both.inCycle both.read both.lost both.points
  rw [both.window] at held
  exact ⟨calls, final, both.run, both.kinds, held ⟨0, [1]⟩ (by simp), held ⟨1, [2]⟩ (by simp)⟩

end Network
end Delp
