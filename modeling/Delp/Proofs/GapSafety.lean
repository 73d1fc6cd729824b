import Delp.Proofs.Accounting
import Delp.Proofs.Recovery

/-! When a decoder is safe to raise its window minimum: what it holds above a hole must lie above the new minimum. What
a call brings is told here from the packet and the state before the call. -/

namespace Delp
open Machine Gf Elimination

namespace DecodingMatrix
open MatrixRow

section Inside
variable {field : Config.Field} {size : ℕ} {space : Submodule field.Elem (SourceSymbolId → field.Elem)}

theorem clears_inside {row cleared : MatrixRow} {column : SourceSymbolId} {pivot : SymbolEquation field}
    (clears : Clears field size column pivot row cleared) (inside : row.coef field ∈ space) (pivotInside : pivot.1 ∈ space) :
    cleared.coef field ∈ space := by
  rw [clears.coefs_eq]
  exact space.add_mem inside (space.smul_mem _ pivotInside)

theorem solves_inside {row : MatrixRow} {id : SourceSymbolId} (solves : row.Solves field id) (inside : row.coef field ∈ space) :
    Pi.single id 1 ∈ space := by
  have unit : row.coef field = row.coef field id • Pi.single id 1 := by
    funext other
    rw [Pi.smul_apply, smul_eq_mul]
    by_cases here : other = id
    · rw [here, Pi.single_eq_same, mul_one]
    · rw [Pi.single_eq_of_ne here, mul_zero, solves.2 other here]
  rw [unit] at inside
  exact (space.smul_mem_iff solves.1).mp inside

/-- Rows in a space determine symbols in it, also where they are in no reduced form. -/
def RowInvariant.inside (size : ℕ) (space : Submodule field.Elem (SourceSymbolId → field.Elem)) : RowInvariant field size where
  row row := row.coef field ∈ space
  queued id := Pi.single id 1 ∈ space
  found id := Pi.single id 1 ∈ space
  substitutes inside queued clears := clears_inside clears inside queued
  eliminates inside pivotInside clears := clears_inside clears inside pivotInside
  normalizes inside normalizes := by
    obtain ⟨scale, _, scaled⟩ := normalizes.multiple
    rw [coefs_of_equation scaled]
    exact space.smul_mem scale inside
  solves _ inside solves := solves_inside solves inside
  queues inside := inside

theorem addKnownSource_inside {matrix left : DecodingMatrix} (same : matrix.field = field)
    (shaped : Rows.Shaped field size matrix.rows) (inside : (RowInvariant.inside size space).OfRows matrix.rows) {data : Bytes}
    (sized : data.length = size) {id : SourceSymbolId} (symbol : Pi.single id 1 ∈ space) {known : KnownSources}
    {recovered : List (SourceSymbolId × Bytes)} (returned : matrix.addKnownSource id data known = .ok (left, recovered)) :
    ∀ symbol ∈ recovered, Pi.single symbol.1 1 ∈ space := by
  subst same
  obtain ⟨_, _, again, _, _, _, keeps⟩ := addKnownSource_keeps (.inside size space) shaped sized id known
  cases returned.symm.trans again
  exact (keeps inside symbol).2

/-- What `add_coded` recovers lies in the span of the rows, the known symbols and the new equation. -/
theorem addCoded_inside {matrix left : DecodingMatrix} (same : matrix.field = field) (shaped : Rows.Shaped field size matrix.rows)
    (bounded : Rows.Bounded matrix.rows) (inside : (RowInvariant.inside size space).OfRows matrix.rows) {ev : EncodingVector}
    {map : Std.TreeMap SourceSymbolId UInt8} (read : coefMap ev = .ok map) (fits : CoefficientsFit field map) {payload : Bytes}
    (sized : payload.length = size) (rowInside : (⟨.fromMap map, payload⟩ : MatrixRow).coef field ∈ space) {known : KnownSources}
    (knownSized : ∀ symbol ∈ known.toList, symbol.2.length = size)
    (knownInside : ∀ symbol ∈ known.toList, Pi.single symbol.1 1 ∈ space) {recovered : List (SourceSymbolId × Bytes)}
    (returned : matrix.addCoded ev payload known = .ok (left, recovered)) :
    ∀ symbol ∈ recovered, Pi.single symbol.1 1 ∈ space := by
  subst same
  obtain ⟨_, _, again, _, _, found⟩ :=
    addCoded_keeps (.inside size space) shaped bounded inside read fits sized rowInside knownSized knownInside
  cases returned.symm.trans again
  exact fun symbol member => (found symbol member).2

end Inside
end DecodingMatrix

namespace Decoder
variable {P : Type}

/-- The ids whose symbols the rows, the known symbols and an arrival determine. -/
def Determines (before : Decoder P) (arrival : Arrival) (id : SourceSymbolId) : Prop :=
  Pi.single id 1 ∈ DecodingMatrix.Rows.space before.config.field before.matrix.rows {id | id ∈ before.known} ⊔
    Submodule.span before.config.field.Elem {(arrival.equation before.config.field).1}

/-- Rows, symbols and coefficients that the matrix can compute with. -/
structure Computes (before : Decoder P) (arrival : Arrival) : Prop where
  sameField : before.matrix.field = before.config.field
  rows : DecodingMatrix.Rows.Shaped before.config.field before.config.symbolSize before.matrix.rows
  bounded : DecodingMatrix.Rows.Bounded before.matrix.rows
  known : ∀ (id : SourceSymbolId) data, before.known[id]? = some data → data.length = before.config.symbolSize
  fits : ∀ packet map, arrival = .coded packet → DecodingMatrix.coefMap packet.ev = .ok map →
    DecodingMatrix.CoefficientsFit before.config.field map

/-- Rows in reduced form, with room for another, and a packet for the key of none. -/
structure Solves (before : Decoder P) (arrival : Arrival) : Prop where
  solid : before.Solid before.config ⊤ ⊥
  acceptable : arrival.Acceptable before.config
  free : before.KeyFree arrival
  room : before.matrix.rowCount < before.config.maxMatrixRows

/-- The ids that a call can bring: only those determined, where the matrix can compute. -/
def MayGain (before : Decoder P) (arrival : Arrival) (id : SourceSymbolId) : Prop :=
  before.Computes arrival → before.Determines arrival id

/-- The ids that a call is sure to bring: a source packet's own, and those determined by rows in reduced form. -/
def MustGain (before : Decoder P) (arrival : Arrival) (id : SourceSymbolId) : Prop :=
  (∃ packet, arrival = .source packet ∧ packet.sourceSymbolId = id) ∨
    before.Solves arrival ∧ id ∉ before.known ∧ before.Determines arrival id

def MayHold (before : Decoder P) (arrival : Arrival) (id : SourceSymbolId) : Prop :=
  id ∈ before.buffer.symbols ∨ before.MayGain arrival id

def MustHold (before : Decoder P) (arrival : Arrival) (id : SourceSymbolId) : Prop :=
  id ∈ before.buffer.symbols ∨ before.MustGain arrival id

section Gained
variable {before : Decoder P} {arrival : Arrival} {matrix : DecodingMatrix} {gained : List (SourceSymbolId × Bytes)}
  {id : SourceSymbolId}

theorem mayGain_of_accept (accepted : before.accept arrival = .ok (matrix, gained)) (member : id ∈ gained.map (·.1)) :
    before.MayGain arrival id := by
  intro computes
  have sized := accept_sized accepted
  have rows : (DecodingMatrix.RowInvariant.inside before.config.symbolSize
      (DecodingMatrix.Rows.space before.config.field before.matrix.rows {id | id ∈ before.known} ⊔
        Submodule.span before.config.field.Elem {(arrival.equation before.config.field).1})).OfRows before.matrix.rows := by
    intro pid row stored
    change row.coef before.config.field ∈ _
    rw [← DecodingMatrix.Rows.coefs_of stored]
    exact Submodule.mem_sup_left (row_mem (DecodingMatrix.Rows.mem_keySet.mpr ⟨row, stored⟩))
  have own := Submodule.mem_sup_right (S := DecodingMatrix.Rows.space before.config.field before.matrix.rows {id | id ∈ before.known})
    (Submodule.mem_span_singleton_self (R := before.config.field.Elem) (arrival.equation before.config.field).1)
  obtain ⟨symbol, listed, rfl⟩ := List.mem_map.mp member
  rw [accept_eq, if_neg (not_not.mpr sized)] at accepted
  obtain ⟨⟨left, recovered⟩, added, same⟩ := Outcome.bind_eq_ok.mp accepted
  cases same
  cases arrival with
  | source packet =>
    rcases List.mem_cons.mp listed with rfl | listed
    · exact own
    · exact DecodingMatrix.addKnownSource_inside computes.sameField computes.rows rows sized own added symbol listed
  | coded packet =>
    obtain ⟨row, reduced, _⟩ := Outcome.bind_eq_ok.mp added
    obtain ⟨map, read, _⟩ := Outcome.bind_eq_ok.mp reduced
    refine DecodingMatrix.addCoded_inside computes.sameField computes.rows computes.bounded rows read
      (computes.fits packet map rfl read) sized ?_
      (fun symbol stored => computes.known _ _ (Std.TreeMap.mem_toList_iff_getElem?_eq_some.mp stored))
      (fun symbol stored => Submodule.mem_sup_left (single_mem (DecodingMatrix.mem_of_toList stored))) added symbol listed
    rw [DecodingMatrix.coef_fromMap before.config.field read]
    exact own

theorem Solves.computes (solves : before.Solves arrival) : before.Computes arrival where
  sameField := solves.solid.sameField
  rows := solves.solid.matrix.shaped
  bounded := solves.solid.bounded
  known id data stored := (solves.solid.known id data stored).1
  fits packet map same read := by
    subst same
    exact solves.acceptable.regular.fits read

/-- A decoder whose rows are in reduced form comes to know exactly what is determined. -/
theorem Solves.determines_iff (solves : before.Solves arrival) (accepted : before.accept arrival = .ok (matrix, gained)) :
    before.Determines arrival id ↔ id ∈ before.known ∨ id ∈ gained.map (·.1) := by
  constructor
  · intro determined
    have solid := solves.solid
    have whole : before.Solid before.config ⊤
        (DecodingMatrix.Rows.space before.config.field before.matrix.rows {id | id ∈ before.known}) :=
      { solid with matrix := ⟨solid.matrix.shaped, ⟨solid.matrix.system.reduced, solid.matrix.system.sound, le_rfl⟩,
          solid.matrix.free⟩ }
    obtain ⟨_, _, recovers⟩ := whole.accept le_top solves.acceptable solves.free Submodule.mem_top le_rfl (.inl solves.room)
    cases accepted.symm.trans recovers.accepted
    exact (recovers.solid.determines_iff recovers.unsolved id).mp (recovers.solid.system.covers determined)
  · rintro (known | member)
    · exact Submodule.mem_sup_left (single_mem known)
    · exact mayGain_of_accept accepted member solves.computes

theorem gained_of_mustGain (accepted : before.accept arrival = .ok (matrix, gained)) (must : before.MustGain arrival id) :
    id ∈ gained.map (·.1) := by
  rcases must with ⟨packet, rfl, rfl⟩ | ⟨solves, fresh, determined⟩
  · have sized := accept_sized accepted
    rw [accept_eq, if_neg (not_not.mpr sized)] at accepted
    obtain ⟨result, _, same⟩ := Outcome.bind_eq_ok.mp accepted
    cases same
    exact List.mem_cons_self
  · exact ((solves.determines_iff accepted).mp determined).resolve_left fresh

theorem mayHold_of_holds (accepted : before.accept arrival = .ok (matrix, gained)) (holds : before.Holds gained id) :
    before.MayHold arrival id :=
  holds.imp_right (mayGain_of_accept accepted)

theorem holds_of_mustHold (accepted : before.accept arrival = .ok (matrix, gained)) (must : before.MustHold arrival id) :
    before.Holds gained id :=
  must.imp_right (gained_of_mustGain accepted)

end Gained

/-- A packet that raises the window minimum over a hole, to an id that the decoder may then hold. -/
def MayStrand (before : Decoder P) (arrival : Arrival) : Prop :=
  arrival.payload.length = before.config.symbolSize ∧ before.buffer.nextDeliveryId < before.floor arrival ∧
    before.MayHold arrival (before.floor arrival) ∧
    ∃ hole, before.buffer.nextDeliveryId ≤ hole ∧ hole < before.floor arrival ∧ ¬ before.MustHold arrival hole

/-- A packet that raises the window minimum above an id which the decoder may then know, while a hole keeps that id from
delivery or delivery may pass `u32::MAX`. -/
def MayDiscard (before : Decoder P) (arrival : Arrival) : Prop :=
  arrival.payload.length = before.config.symbolSize ∧
    ∃ id, (id ∈ before.known ∨ before.MayGain arrival id) ∧ id < before.floor arrival ∧
      (before.buffer.nextDeliveryId ≤ id ∧
          (∃ hole, before.buffer.nextDeliveryId ≤ hole ∧ hole ≤ id ∧ ¬ before.MustHold arrival hole) ∨
        ∀ other, before.buffer.nextDeliveryId ≤ other → before.MayHold arrival other)

section Runs
variable [FeedbackPolicy P] {config : DecoderConfig} {policy : P} {calls : List (Call (Decoder P) Arrival Reply)}
  {final : Decoder P}

/-- Every call that succeeds has emitted all that it could, in a run without a packet that may strand a symbol. -/
theorem prompt_delivery (run : Run handle (new config policy) calls final)
    (careful : ∀ call ∈ calls, ¬ call.before.MayStrand call.input) :
    ∀ call ∈ calls, ∀ events, call.output = .ok events → call.after.buffer.nextDeliveryId ∉ call.after.buffer.symbols := by
  refine (strands_iff run).mpr fun call member matrix gained accepted strands => careful call member ?_
  obtain ⟨above, held, hole, start, below, absent⟩ := strands
  exact ⟨accept_sized accepted, above, mayHold_of_holds accepted held, hole, start, below,
    fun must => absent (holds_of_mustHold accepted must)⟩

/-- Nothing the decoder holds is thrown away undelivered, and no gap contains a known id, in a run without a packet that
may discard a symbol. -/
theorem nothing_discarded (run : Run handle (new config policy) calls final)
    (careful : ∀ call ∈ calls, ¬ call.before.MayDiscard call.input) : NothingLost calls final ∧ GapsUnknown calls := by
  refine (discards_iff run).mpr fun call member matrix gained accepted discards => careful call member ?_
  obtain ⟨id, known, below, lost⟩ := discards
  refine ⟨accept_sized accepted, id, known.imp_right (mayGain_of_accept accepted), below, ?_⟩
  rcases lost with ⟨start, hole, first, upTo, absent⟩ | all
  · exact .inl ⟨start, hole, first, upTo, fun must => absent (holds_of_mustHold accepted must)⟩
  · exact .inr fun other start => mayHold_of_holds accepted (all other start)

omit [FeedbackPolicy P] in
/-- A packet that brings nothing between the pointer and the window minimum it raises, nor some other id, is harmless. -/
private theorem Solves.harmless {before : Decoder P} {arrival : Arrival} (solves : before.Solves arrival)
    {matrix : DecodingMatrix} {gained : List (SourceSymbolId × Bytes)} (accepted : before.accept arrival = .ok (matrix, gained))
    {other : SourceSymbolId} (ahead : before.buffer.nextDeliveryId ≤ other)
    (absent : ¬ (other ∈ before.known ∨ before.Holds gained other))
    (between : ∀ id, before.buffer.nextDeliveryId ≤ id → id ≤ before.floor arrival →
      before.buffer.nextDeliveryId < before.floor arrival → ¬ (id ∈ before.known ∨ before.Holds gained id)) :
    ¬ before.MayStrand arrival ∧ ¬ before.MayDiscard arrival := by
  have may {id : SourceSymbolId} (held : before.MayHold arrival id) : id ∈ before.known ∨ before.Holds gained id := by
    rcases held with buffered | gain
    · exact .inr (.inl buffered)
    · exact ((solves.determines_iff accepted).mp (gain solves.computes)).imp_right .inr
  constructor
  · rintro ⟨_, above, held, _⟩
    exact between _ (UInt32.le_of_lt above) (UInt32.le_refl _) above (may held)
  · rintro ⟨_, id, known, below, ⟨start, _⟩ | all⟩
    · exact between id start (UInt32.le_of_lt below) (UInt32.lt_of_le_of_lt start below)
        (known.elim .inl fun gain => may (.inr gain))
    · exact absent (may (all other ahead))

end Runs

section Examples

/-- Symbols 0 and 6, the sum of 3 and 4, and symbol 4. -/
def acrossGap : List Arrival :=
  [.source (.plain 0 [0]), .source (.plain 6 [0]), .coded (listed [3, 4] [1, 1] [0]), .source (.plain 4 [0])]

private theorem acrossGap_carries : ∀ arrival ∈ acrossGap, arrival.Carries (small 512).config onlyFirst := by
  intro arrival member
  simp only [acrossGap, List.mem_cons, List.not_mem_nil, or_false] at member
  rcases member with rfl | rfl | rfl | rfl
  · exact (rfl : _ = _)
  · exact (rfl : _ = _)
  · exact listed_states (by decide) (by decide) (by decide) (by decide) (by decide +kernel)
  · exact (rfl : _ = _)

/-- A call brings nothing that the decoder jumps over, and leaves symbol 7 alone. -/
private def quiet (call : Call (Decoder ImmediateFeedbackPolicy) Arrival Reply) : Bool :=
  (call.before.accept call.input).passes fun accepted =>
    let held id := call.before.known.contains id || call.before.buffer.symbols.contains id || (accepted.2.map (·.1)).contains id
    decide (call.before.buffer.nextDeliveryId ≤ 7) && !held 7 &&
      (decide (call.before.floor call.input ≤ call.before.buffer.nextDeliveryId) ||
        (List.range (call.before.floor call.input).toNat.succ).all fun n =>
          decide (n < call.before.buffer.nextDeliveryId.toNat) || !held (UInt32.ofNat n))

private theorem harmless_of_quiet {call : Call (Decoder ImmediateFeedbackPolicy) Arrival Reply}
    (solves : call.before.Solves call.input) (quiet : quiet call = true) :
    ¬ call.before.MayStrand call.input ∧ ¬ call.before.MayDiscard call.input := by
  obtain ⟨⟨matrix, gained⟩, accepted, checks⟩ := Outcome.passes_iff.mp quiet
  simp only [Bool.and_eq_true, Bool.or_eq_true, decide_eq_true_eq, Bool.not_eq_true', Bool.or_eq_false_iff, List.all_eq_true,
    List.mem_range] at checks
  obtain ⟨⟨ahead, absent⟩, between⟩ := checks
  have held {id : SourceSymbolId} (missing : (call.before.known.contains id = false ∧
      call.before.buffer.symbols.contains id = false) ∧ (gained.map (·.1)).contains id = false) :
      ¬ (id ∈ call.before.known ∨ call.before.Holds gained id) := by
    rintro (known | buffered | brought)
    · exact Bool.false_ne_true (missing.1.1.symm.trans (Std.TreeMap.contains_iff_mem.mpr known))
    · exact Bool.false_ne_true (missing.1.2.symm.trans (Std.TreeMap.contains_iff_mem.mpr buffered))
    · exact Bool.false_ne_true (missing.2.symm.trans (List.contains_iff_mem.mpr brought))
  refine solves.harmless accepted ahead (held absent) fun id start upTo above => held ?_
  rw [lt_iff] at above
  rw [le_iff] at start upTo between
  have here := (between.resolve_left (by omega)) id.toNat (by omega)
  rw [UInt32.ofNat_toNat] at here
  exact here.resolve_left (by omega)

/-- The coded packet raises the window minimum over 1 and 2, which are lost, and symbol 4 then brings 3. -/
private theorem acrossGap_run : ∃ calls final, Run handle (small 512) calls final ∧
    (∃ call ∈ calls, call.output.events.contains (.unrecoverableGap 1 2) = true) ∧ final.buffer.nextDeliveryId = 5 ∧
    6 ∈ final.buffer.symbols ∧ ∀ call ∈ calls, ¬ call.before.MayStrand call.input ∧ ¬ call.before.MayDiscard call.input := by
  obtain ⟨calls, final, run, checked⟩ := Run.exists_of_check handle (small 512) acrossGap
    (fun reached => decide (reached.1.map (·.input) = acrossGap) && reached.1.any (·.output.events.contains (.unrecoverableGap 1 2)) &&
      decide (reached.2.buffer.nextDeliveryId = 5) && reached.2.buffer.symbols.contains 6 && reached.1.all fun call =>
        decide (call.before.KeyFree call.input) && decide (call.before.matrix.rowCount < 512) && quiet call) (by decide +kernel)
  simp only [Bool.and_eq_true, decide_eq_true_eq, List.all_eq_true, List.any_eq_true] at checked
  obtain ⟨⟨⟨⟨inputs, gap⟩, next⟩, buffered⟩, each⟩ := checked
  have acceptable (call : Call (Decoder ImmediateFeedbackPolicy) Arrival Reply) (member : call ∈ calls) :
      call.input.Acceptable (small 512).config :=
    (acrossGap_carries call.input (inputs ▸ List.mem_map_of_mem member)).acceptable onlyFirst_sized
  refine ⟨calls, final, run, gap, next, Std.TreeMap.contains_iff_mem.mp buffered, fun call member => ?_⟩
  obtain ⟨earlier, before, inside, _⟩ := run.at_call member
  have old (other : Call (Decoder ImmediateFeedbackPolicy) Arrival Reply) (shown : other ∈ earlier) : other ∈ calls :=
    inside.subset (List.mem_append_left _ shown)
  have solid := (run_determined before (fun other shown => acceptable other (old other shown))
    fun other shown => (each other (old other shown)).1.1).mono le_top
  obtain ⟨⟨free, room⟩, quiet⟩ := each call member
  have same := solid.sameConfig
  refine harmless_of_quiet ⟨?_, ?_, free, ?_⟩ quiet
  · rw [same]
    exact solid
  · rw [same]
    exact acceptable call member
  · rw [same]
    exact room

/-- A buffered symbol ahead of a gap stays, and the symbols behind it are delivered at once. -/
theorem prompt_delivery_acrossGap : ∃ calls final, Run handle (small 512) calls final ∧
    (∃ call ∈ calls, call.output.events.contains (.unrecoverableGap 1 2) = true) ∧ final.buffer.nextDeliveryId = 5 ∧
    6 ∈ final.buffer.symbols ∧ ∀ call ∈ calls, ∀ events, call.output = .ok events →
      call.after.buffer.nextDeliveryId ∉ call.after.buffer.symbols := by
  obtain ⟨calls, final, run, gap, next, buffered, harmless⟩ := acrossGap_run
  exact ⟨calls, final, run, gap, next, buffered, prompt_delivery run fun call member => (harmless call member).1⟩

/-- Symbol 5 arrives, and a packet about symbol 5 alone then moves the pointer to 5 after the
drain: the symbol stays in the buffer. -/
theorem prompt_delivery_fails : ¬ ∀ calls final, Run handle (small 512) calls final →
    ∀ call ∈ calls, ∀ events, call.output = .ok events →
      call.after.buffer.nextDeliveryId ∉ call.after.buffer.symbols := by
  intro claim
  obtain ⟨calls, final, run, found⟩ := Run.exists_of_check handle (small 512)
    [.source (.plain 5 [0]), .coded fifthAlone]
    (fun reached => reached.1.any fun call =>
      call.output.isOk && call.after.buffer.symbols.contains call.after.buffer.nextDeliveryId) (by decide +kernel)
  obtain ⟨call, member, held⟩ := List.any_eq_true.mp found
  obtain ⟨succeeded, held⟩ := Bool.and_eq_true_iff.mp held
  cases replied : call.output with
  | ok events => exact claim calls final run call member events replied (Std.TreeMap.contains_iff_mem.mp held)
  | error error =>
    rw [replied] at succeeded
    cases succeeded

/-- Nothing is lost when the gap lies below the buffered symbol. -/
theorem nothing_discarded_acrossGap : ∃ calls final, Run handle (small 512) calls final ∧
    (∃ call ∈ calls, call.output.events.contains (.unrecoverableGap 1 2) = true) ∧ final.buffer.nextDeliveryId = 5 ∧
    6 ∈ final.buffer.symbols ∧ NothingLost calls final ∧ GapsUnknown calls := by
  obtain ⟨calls, final, run, gap, next, buffered, harmless⟩ := acrossGap_run
  exact ⟨calls, final, run, gap, next, buffered, nothing_discarded run fun call member => (harmless call member).2⟩

/-- Symbol 1 arrives, and a packet about symbol 5 alone then reports the gap from 0 to 5. -/
theorem nothing_discarded_fails : ¬ ∀ calls final, Run handle (small 512) calls final →
    NothingLost calls final ∧ GapsUnknown calls := by
  intro claim
  obtain ⟨calls, final, run, found⟩ := Run.exists_of_check handle (small 512)
    [.source (.plain 1 [0]), .coded fifthAlone]
    (fun reached => reached.1.any fun call =>
      call.output.events.contains (.unrecoverableGap 0 5) && call.after.known.contains 1) (by decide +kernel)
  obtain ⟨call, member, lost⟩ := List.any_eq_true.mp found
  obtain ⟨gap, known⟩ := Bool.and_eq_true_iff.mp lost
  rw [List.contains_iff_mem] at gap
  cases replied : call.output with
  | ok events =>
    rw [replied] at gap
    exact (claim calls final run).2 call member events 0 5 1 replied gap (by decide) (by decide)
      (Std.TreeMap.contains_iff_mem.mp known)
  | error error =>
    rw [replied] at gap
    cases gap

end Examples
end Decoder
end Delp
