import Delp.Proofs.DecoderRun
import Delp.Policy.Defaults

/-! Delivery over whole runs: which symbols a call leaves stranded behind its own gap, and
which it throws away. Both go wrong only in a call that jumps over a hole. -/

namespace Delp
open Machine

namespace SymbolBuffer

theorem absorb_next (buffer : SymbolBuffer) (gained : List (SourceSymbolId × Bytes)) :
    (buffer.absorb gained).nextDeliveryId = buffer.nextDeliveryId := by
  induction gained generalizing buffer with
  | nil => rfl
  | cons symbol gained ih => rw [absorb_cons, ih, insert_next]

theorem mem_absorb {buffer : SymbolBuffer} {gained : List (SourceSymbolId × Bytes)} {id : SourceSymbolId} :
    id ∈ (buffer.absorb gained).symbols ↔
      id ∈ buffer.symbols ∨ id ∈ gained.map (·.1) ∧ buffer.nextDeliveryId ≤ id := by
  induction gained generalizing buffer with
  | nil => simp [absorb]
  | cons symbol gained ih =>
    rw [absorb_cons, ih, mem_insert, insert_next, List.map_cons, List.mem_cons]
    constructor
    · rintro ((held | ⟨rfl, room⟩) | ⟨later, room⟩)
      · exact .inl held
      · exact .inr ⟨.inl rfl, room⟩
      · exact .inr ⟨.inr later, room⟩
    · rintro (held | ⟨rfl | later, room⟩)
      · exact .inl (.inl held)
      · exact .inl (.inr ⟨rfl, room⟩)
      · exact .inr ⟨later, room⟩

theorem absorb_ahead {buffer : SymbolBuffer} (ahead : buffer.Ahead) (gained : List (SourceSymbolId × Bytes)) :
    (buffer.absorb gained).Ahead := by
  induction gained generalizing buffer with
  | nil => exact ahead
  | cons symbol gained ih => exact ih (insert_ahead ahead _ _)

/-- A settled buffer has been drained as far as it goes, and pruned when the window has
moved past what is missing there. -/
structure Settles (buffer drained : SymbolBuffer) (out : List (SourceSymbolId × Bytes)) (floor : SourceSymbolId) :
    Prop where
  drains : Drains buffer drained out
  stuck : drained.nextDeliveryId ∉ drained.symbols
  ready : buffer.readyEvents = out.map fun symbol => .sourceReady symbol.1 symbol.2
  ends : floor ≤ drained.nextDeliveryId ∧ buffer.settle floor = drained ∧ buffer.gapTo floor = [] ∨
    drained.nextDeliveryId < floor ∧ buffer.settle floor = drained.pruneBelow floor ∧
      buffer.gapTo floor = [.unrecoverableGap drained.nextDeliveryId (floor - drained.nextDeliveryId)]

theorem settles {buffer : SymbolBuffer} (ahead : buffer.Ahead) (floor : SourceSymbolId) :
    Settles buffer buffer.drainDeliverable.1 buffer.drainDeliverable.2 floor := by
  refine ⟨drain_drains ahead, drain_stuck buffer, rfl, ?_⟩
  unfold settle gapTo
  by_cases above : floor > buffer.drainDeliverable.1.nextDeliveryId
  · exact .inr ⟨above, if_pos above, if_pos above⟩
  · refine .inl ⟨?_, if_neg above, if_neg above⟩
    rw [gt_iff_lt, lt_iff] at above
    rw [le_iff]
    omega

namespace Settles
variable {buffer drained : SymbolBuffer} {out : List (SourceSymbolId × Bytes)} {floor : SourceSymbolId}

theorem pruned_next (above : drained.nextDeliveryId < floor) : (drained.pruneBelow floor).nextDeliveryId = floor :=
  if_pos above

theorem ahead (settles : Settles buffer drained out floor) : (buffer.settle floor).Ahead := by
  rcases settles.ends with ⟨_, same, _⟩ | ⟨_, same, _⟩
  · rw [same]
    exact settles.drains.ahead
  · rw [same]
    exact pruneBelow_ahead settles.drains.ahead floor

/-- The drain stops short of every id from the first hole on. -/
theorem reaches_iff (settles : Settles buffer drained out floor) {id : SourceSymbolId} :
    buffer.nextDeliveryId.toNat + out.length ≤ id.toNat ↔
      ∃ hole, buffer.nextDeliveryId ≤ hole ∧ hole ≤ id ∧ hole ∉ buffer.symbols := by
  rw [← Nat.not_lt, settles.drains.delivered_iff settles.stuck]
  simp only [Unbroken, not_forall, exists_prop]

theorem keeps (settles : Settles buffer drained out floor) {id : SourceSymbolId} (member : id ∈ buffer.symbols)
    (start : buffer.nextDeliveryId ≤ id) :
    id ∈ out.map (·.1) ∨ id ∈ (buffer.settle floor).symbols ∨
      id < floor ∧ ∃ hole, buffer.nextDeliveryId ≤ hole ∧ hole ≤ id ∧ hole ∉ buffer.symbols := by
  by_cases delivered : id.toNat < buffer.nextDeliveryId.toNat + out.length
  · exact .inl (settles.drains.mem_out.mpr ⟨start, delivered⟩)
  have left : id ∈ drained.symbols := settles.drains.mem_rest.mpr ⟨by omega, member⟩
  rcases settles.ends with ⟨_, same, _⟩ | ⟨_, same, _⟩
  · exact .inr (.inl (same ▸ left))
  · by_cases above : floor ≤ id
    · exact .inr (.inl (same ▸ mem_pruneBelow.mpr ⟨left, above⟩))
    · refine .inr (.inr ⟨?_, settles.reaches_iff.mp (by omega)⟩)
      rw [le_iff] at above
      rw [lt_iff]
      omega

/-- After it has settled, a buffer holds its next symbol exactly when the floor lies above a
hole and is itself buffered. -/
theorem next_mem_iff (settles : Settles buffer drained out floor) :
    (buffer.settle floor).nextDeliveryId ∈ (buffer.settle floor).symbols ↔
      floor ∈ buffer.symbols ∧ ∃ hole, buffer.nextDeliveryId ≤ hole ∧ hole < floor ∧ hole ∉ buffer.symbols := by
  have drains := settles.drains
  constructor
  · intro held
    rcases settles.ends with ⟨_, same, _⟩ | ⟨above, same, _⟩
    · rw [same] at held
      exact absurd held settles.stuck
    · rw [same, pruned_next above] at held
      obtain ⟨start, member⟩ := drains.mem_rest.mp (mem_pruneBelow.mp held).1
      have bounded := toNat_lt floor
      have pointer := drains.pointer_of_lt (by omega)
      -- the pointer that the gap starts from is the hole
      refine ⟨member, drained.nextDeliveryId, by rw [le_iff]; omega, above, fun present => ?_⟩
      exact settles.stuck (drains.mem_rest.mpr ⟨by omega, present⟩)
  · rintro ⟨member, hole, start, below, absent⟩
    have reached := settles.reaches_iff.mpr ⟨hole, start, Nat.le_refl _, absent⟩
    rw [lt_iff] at below
    have bounded := toNat_lt floor
    have pointer := drains.pointer_of_lt (by omega)
    have above : drained.nextDeliveryId < floor := by rw [lt_iff]; omega
    rcases settles.ends with ⟨stays, _⟩ | ⟨_, same, _⟩
    · rw [lt_iff] at above
      rw [le_iff] at stays
      omega
    · rw [same, pruned_next above]
      exact mem_pruneBelow.mpr ⟨drains.mem_rest.mpr ⟨by omega, member⟩, Nat.le_refl _⟩

/-- An id lies in the reported gap exactly when it is below the floor and the drain has not
passed it, or has passed every id there is and wrapped. -/
theorem gap_iff (settles : Settles buffer drained out floor) {id : SourceSymbolId} :
    (∃ first count, .unrecoverableGap first count ∈ buffer.gapTo floor ∧ first ≤ id ∧
        id.toNat < first.toNat + count.toNat) ↔
      id < floor ∧ (buffer.nextDeliveryId ≤ id ∧
          (∃ hole, buffer.nextDeliveryId ≤ hole ∧ hole ≤ id ∧ hole ∉ buffer.symbols) ∨
        ∀ other, buffer.nextDeliveryId ≤ other → other ∈ buffer.symbols) := by
  have drains := settles.drains
  have spans : (∃ first count, DecoderEvent.unrecoverableGap first count ∈ buffer.gapTo floor ∧ first ≤ id ∧
      id.toNat < first.toNat + count.toNat) ↔ drained.nextDeliveryId ≤ id ∧ id < floor := by
    rcases settles.ends with ⟨stays, _, none⟩ | ⟨above, _, gap⟩
    · simp only [none, List.not_mem_nil, false_and, exists_false, false_iff, not_and]
      rw [le_iff] at *
      rw [lt_iff]
      omega
    · have ordered : drained.nextDeliveryId ≤ floor := by rw [lt_iff] at above; rw [le_iff]; omega
      have width := toNat_sub ordered
      rw [le_iff] at ordered
      simp only [gap, List.mem_singleton, DecoderEvent.unrecoverableGap.injEq]
      constructor
      · rintro ⟨_, _, ⟨rfl, rfl⟩, start, below⟩
        exact ⟨start, by rw [lt_iff]; omega⟩
      · rintro ⟨start, below⟩
        rw [lt_iff] at below
        exact ⟨_, _, ⟨rfl, rfl⟩, start, by omega⟩
  have everything : (∀ other, buffer.nextDeliveryId ≤ other → other ∈ buffer.symbols) ↔
      ¬ buffer.nextDeliveryId.toNat + out.length < 4294967296 := by
    constructor
    · intro all short
      have pointer := drains.pointer_of_lt short
      exact settles.stuck (drains.mem_rest.mpr ⟨by omega, all _ (by rw [le_iff]; omega)⟩)
    · intro beyond other start
      have bounded := toNat_lt other
      exact drains.out_subset (drains.mem_out.mpr ⟨start, by omega⟩)
  rw [spans, ← settles.reaches_iff, everything, and_comm]
  refine and_congr_right fun _ => ?_
  have bounded := toNat_lt id
  by_cases short : buffer.nextDeliveryId.toNat + out.length < 4294967296
  · rw [le_iff, le_iff, drains.pointer_of_lt short]
    omega
  · rw [(drains.wrapped short).1, le_iff]
    simp only [short, not_false_eq_true, or_true, iff_true]
    exact Nat.zero_le _

end Settles
end SymbolBuffer

theorem KnownSources.mem_learn {known : KnownSources} {gained : List (SourceSymbolId × Bytes)} {id : SourceSymbolId} :
    id ∈ known.learn gained ↔ id ∈ known ∨ id ∈ gained.map (·.1) := by
  induction gained generalizing known with
  | nil => simp [learn]
  | cons symbol gained ih =>
    rw [learn_cons, ih, Std.TreeMap.mem_insertIfNew, Std.LawfulEqCmp.compare_eq_iff_eq, List.map_cons, List.mem_cons]
    grind

theorem KnownSources.learn_source {known : KnownSources} {gained : List (SourceSymbolId × Bytes)} {id : SourceSymbolId} {data : Bytes}
    (stored : (known.learn gained)[id]? = some data) : known[id]? = some data ∨ (id, data) ∈ gained := by
  induction gained generalizing known with
  | nil => exact .inl stored
  | cons symbol gained ih =>
    rcases ih stored with before | later
    · rw [Std.TreeMap.getElem?_insertIfNew] at before
      split at before
      next fresh =>
        cases before
        cases Std.LawfulEqCmp.eq_of_compare fresh.1
        exact .inr List.mem_cons_self
      next => exact .inl before
    · exact .inr (List.mem_cons_of_mem _ later)

namespace Decoder
variable {P : Type} [FeedbackPolicy P]

/-- An id that the decoder can deliver once it has gained some symbols. -/
def Holds (before : Decoder P) (gained : List (SourceSymbolId × Bytes)) (id : SourceSymbolId) : Prop :=
  id ∈ before.buffer.symbols ∨ id ∈ gained.map (·.1)

/-- An arrival that raises the window minimum over a hole, to an id that the decoder holds. -/
def Strands (before : Decoder P) (arrival : Arrival) (gained : List (SourceSymbolId × Bytes)) : Prop :=
  before.buffer.nextDeliveryId < before.floor arrival ∧ before.Holds gained (before.floor arrival) ∧
    ∃ hole, before.buffer.nextDeliveryId ≤ hole ∧ hole < before.floor arrival ∧ ¬ before.Holds gained hole

/-- An arrival that raises the window minimum above an id the decoder knows, when a hole keeps
that id from delivery or delivery has passed `u32::MAX`. -/
def Discards (before : Decoder P) (arrival : Arrival) (gained : List (SourceSymbolId × Bytes)) : Prop :=
  ∃ id, (id ∈ before.known ∨ id ∈ gained.map (·.1)) ∧ id < before.floor arrival ∧
    (before.buffer.nextDeliveryId ≤ id ∧
        (∃ hole, before.buffer.nextDeliveryId ≤ hole ∧ hole ≤ id ∧ ¬ before.Holds gained hole) ∨
      ∀ other, before.buffer.nextDeliveryId ≤ other → before.Holds gained other)

omit [FeedbackPolicy P] in
theorem mem_absorb_iff {before : Decoder P} {gained : List (SourceSymbolId × Bytes)} {id : SourceSymbolId}
    (start : before.buffer.nextDeliveryId ≤ id) : id ∈ (before.buffer.absorb gained).symbols ↔ before.Holds gained id := by
  rw [SymbolBuffer.mem_absorb, Holds]
  simp only [start, and_true]

/-- The delivery pointer never passes a buffered symbol. -/
theorem handle_ahead {before after : Decoder P} {arrival : Arrival} {reply : Reply} (ahead : before.buffer.Ahead)
    (handled : before.handle arrival = .ok (after, reply)) : after.buffer.Ahead := by
  cases reply with
  | ok events =>
    obtain ⟨matrix, gained, takes⟩ := handle_ok handled
    rw [takes.buffer]
    exact (SymbolBuffer.settles (SymbolBuffer.absorb_ahead ahead gained) _).ahead
  | error error =>
    rw [(handle_error handled).buffer]
    exact ahead

section Runs
variable {config : DecoderConfig} {policy : P} {calls : List (Call (Decoder P) Arrival Reply)} {final : Decoder P}

theorem run_ahead (run : Run handle (new config policy) calls final) : final.buffer.Ahead :=
  run.always (fun state => state.buffer.Ahead) (SymbolBuffer.new_ahead 0) fun _ _ _ _ => handle_ahead

omit [FeedbackPolicy P] in
private theorem Takes.stranded_iff {before after : Decoder P} {arrival : Arrival} {matrix : DecodingMatrix}
    {gained : List (SourceSymbolId × Bytes)} {events : List DecoderEvent} (ahead : before.buffer.Ahead)
    (takes : before.Takes arrival matrix gained after events) :
    after.buffer.nextDeliveryId ∈ after.buffer.symbols ↔ before.Strands arrival gained := by
  rw [takes.buffer, (SymbolBuffer.settles (SymbolBuffer.absorb_ahead ahead gained) _).next_mem_iff,
    SymbolBuffer.absorb_next, Strands]
  constructor
  · rintro ⟨held, hole, start, below, absent⟩
    have above : before.buffer.nextDeliveryId < before.floor arrival := by
      rw [lt_iff] at *
      rw [le_iff] at start
      omega
    have reached : before.buffer.nextDeliveryId ≤ before.floor arrival := by
      rw [lt_iff] at above
      rw [le_iff]
      omega
    exact ⟨above, (mem_absorb_iff reached).mp held, hole, start, below, fun held => absent ((mem_absorb_iff start).mpr held)⟩
  · rintro ⟨above, held, hole, start, below, absent⟩
    have reached : before.buffer.nextDeliveryId ≤ before.floor arrival := by
      rw [lt_iff] at above
      rw [le_iff]
      omega
    exact ⟨(mem_absorb_iff reached).mpr held, hole, start, below, fun held => absent ((mem_absorb_iff start).mp held)⟩

/-- Every call that succeeds has emitted all that it could, exactly when no arrival of the run
strands a symbol. -/
theorem strands_iff (run : Run handle (new config policy) calls final) :
    (∀ call ∈ calls, ∀ events, call.output = .ok events →
      call.after.buffer.nextDeliveryId ∉ call.after.buffer.symbols) ↔
    ∀ call ∈ calls, ∀ matrix gained, call.before.accept call.input = .ok (matrix, gained) →
      ¬ call.before.Strands call.input gained := by
  refine forall_congr' fun call => forall_congr' fun member => ?_
  obtain ⟨earlier, before, _, handled⟩ := run.at_call member
  have ahead := run_ahead before
  cases replied : call.output with
  | ok events =>
    rw [replied] at handled
    obtain ⟨matrix, gained, takes⟩ := handle_ok handled
    have outcome := takes.stranded_iff ahead
    constructor
    · intro prompt other symbols accepted
      cases takes.accepted.symm.trans accepted
      exact fun strands => prompt events rfl (outcome.mpr strands)
    · intro quiet _ _ held
      exact quiet matrix gained takes.accepted (outcome.mp held)
  | error error =>
    rw [replied] at handled
    have refused := (handle_error handled).refused
    exact ⟨fun _ matrix gained accepted => absurd accepted (refused _), fun _ events same => by cases same⟩

end Runs

section Runs
variable {config : DecoderConfig} {policy : P} {calls : List (Call (Decoder P) Arrival Reply)} {final : Decoder P}

def Emitted (calls : List (Call (Decoder P) Arrival Reply)) (id : SourceSymbolId) : Prop :=
  ∃ call ∈ calls, ∃ events data, call.output = .ok events ∧ .sourceReady id data ∈ events

/-- Every id that became known at or above the delivery pointer is buffered or delivered. -/
def NothingLost (calls : List (Call (Decoder P) Arrival Reply)) (state : Decoder P) : Prop :=
  ∀ call ∈ calls, ∀ id, id ∉ call.before.known → id ∈ call.after.known → call.before.buffer.nextDeliveryId ≤ id →
    id ∈ state.buffer.symbols ∨ Emitted calls id

def GapsUnknown (calls : List (Call (Decoder P) Arrival Reply)) : Prop :=
  ∀ call ∈ calls, ∀ events first count id, call.output = .ok events → .unrecoverableGap first count ∈ events →
    first ≤ id → id.toNat < first.toNat + count.toNat → id ∉ call.after.known

omit [FeedbackPolicy P] in
theorem Takes.gap_mem_iff {before after : Decoder P} {arrival : Arrival} {matrix : DecodingMatrix}
    {gained : List (SourceSymbolId × Bytes)} {events : List DecoderEvent}
    (takes : before.Takes arrival matrix gained after events) {first : SourceSymbolId} {count : UInt32} :
    .unrecoverableGap first count ∈ events ↔
      .unrecoverableGap first count ∈ (before.buffer.absorb gained).gapTo (before.floor arrival) := by
  obtain ⟨feedback, kind, rfl⟩ := takes.events
  have silent : DecoderEvent.unrecoverableGap first count ∉ feedback := by
    rcases kind with rfl | ⟨_, _, _, _, _, rfl⟩ <;> simp
  simp [SymbolBuffer.readyEvents, silent]

omit [FeedbackPolicy P] in
theorem Takes.ready_mem_iff {before after : Decoder P} {arrival : Arrival} {matrix : DecodingMatrix}
    {gained : List (SourceSymbolId × Bytes)} {events : List DecoderEvent}
    (takes : before.Takes arrival matrix gained after events) {id : SourceSymbolId} {data : Bytes} :
    .sourceReady id data ∈ events ↔ (id, data) ∈ (before.buffer.absorb gained).drainDeliverable.2 := by
  obtain ⟨feedback, kind, rfl⟩ := takes.events
  have silent : DecoderEvent.sourceReady id data ∉ feedback := by
    rcases kind with rfl | ⟨_, _, _, _, _, rfl⟩ <;> simp
  have noGap : DecoderEvent.sourceReady id data ∉ (before.buffer.absorb gained).gapTo (before.floor arrival) := by
    unfold SymbolBuffer.gapTo
    dsimp only
    split <;> simp
  simp only [List.mem_append, silent, noGap, or_false, SymbolBuffer.readyEvents, List.mem_map, Prod.exists,
    DecoderEvent.sourceReady.injEq]
  constructor
  · rintro ⟨_, _, listed, rfl, rfl⟩
    exact listed
  · exact fun listed => ⟨_, _, listed, rfl, rfl⟩

omit [FeedbackPolicy P] in
private theorem Takes.discards_iff {before after : Decoder P} {arrival : Arrival} {matrix : DecodingMatrix}
    {gained : List (SourceSymbolId × Bytes)} {events : List DecoderEvent} (ahead : before.buffer.Ahead)
    (takes : before.Takes arrival matrix gained after events) :
    (∃ first count id, .unrecoverableGap first count ∈ events ∧ first ≤ id ∧
      id.toNat < first.toNat + count.toNat ∧ id ∈ after.known) ↔ before.Discards arrival gained := by
  have settles := SymbolBuffer.settles (SymbolBuffer.absorb_ahead ahead gained) (before.floor arrival)
  have spans (id : SourceSymbolId) : (∃ first count, .unrecoverableGap first count ∈ events ∧ first ≤ id ∧
      id.toNat < first.toNat + count.toNat) ↔ id < before.floor arrival ∧ (before.buffer.nextDeliveryId ≤ id ∧
        (∃ hole, before.buffer.nextDeliveryId ≤ hole ∧ hole ≤ id ∧ ¬ before.Holds gained hole) ∨
      ∀ other, before.buffer.nextDeliveryId ≤ other → before.Holds gained other) := by
    simp only [takes.gap_mem_iff]
    rw [settles.gap_iff, SymbolBuffer.absorb_next]
    refine and_congr_right fun _ => or_congr (and_congr_right fun _ => exists_congr fun hole => ?_)
      (forall_congr' fun other => imp_congr_right fun start => mem_absorb_iff start)
    exact and_congr_right fun start => and_congr_right fun _ => not_congr (mem_absorb_iff start)
  have learned (id : SourceSymbolId) : id ∈ after.known ↔ id ∈ before.known ∨ id ∈ gained.map (·.1) := by
    rw [takes.known, KnownSources.mem_learn]
  constructor
  · rintro ⟨first, count, id, gap, start, below, known⟩
    exact ⟨id, (learned id).mp known, (spans id).mp ⟨first, count, gap, start, below⟩⟩
  · rintro ⟨id, known, lost⟩
    obtain ⟨first, count, gap, start, below⟩ := (spans id).mpr lost
    exact ⟨first, count, id, gap, start, below, (learned id).mpr known⟩

private structure Keeps (calls : List (Call (Decoder P) Arrival Reply)) (state : Decoder P) : Prop where
  ahead : state.buffer.Ahead
  known : ∀ id ∈ state.buffer.symbols, id ∈ state.known
  nothingLost : NothingLost calls state

omit [FeedbackPolicy P] in
private theorem Emitted.append {calls later : List (Call (Decoder P) Arrival Reply)} {id : SourceSymbolId}
    (emitted : Emitted calls id) : Emitted (calls ++ later) id :=
  emitted.imp fun _ ⟨member, events⟩ => ⟨List.mem_append_left _ member, events⟩

private theorem Keeps.call {calls : List (Call (Decoder P) Arrival Reply)} {before after : Decoder P}
    {arrival : Arrival} {reply : Reply} (keeps : Keeps calls before)
    (handled : before.handle arrival = .ok (after, reply))
    (careful : ∀ matrix gained, before.accept arrival = .ok (matrix, gained) → ¬ before.Discards arrival gained) :
    Keeps (calls ++ [⟨before, arrival, after, reply⟩]) after := by
  cases reply with
  | error error =>
    have refuses := handle_error handled
    refine ⟨refuses.buffer ▸ keeps.ahead, by rw [refuses.buffer, refuses.known]; exact keeps.known, ?_⟩
    intro call member id fresh known start
    rcases List.mem_append.mp member with member | member
    · rw [refuses.buffer]
      exact (keeps.nothingLost call member id fresh known start).imp_right Emitted.append
    · cases List.mem_singleton.mp member
      exact absurd (refuses.known ▸ known) fresh
  | ok events =>
    obtain ⟨matrix, gained, takes⟩ := handle_ok handled
    have careful := careful matrix gained takes.accepted
    have settles := SymbolBuffer.settles (SymbolBuffer.absorb_ahead keeps.ahead gained) (before.floor arrival)
    -- what the buffer has absorbed is delivered by this call, or stays
    have stays (id : SourceSymbolId) (held : id ∈ (before.buffer.absorb gained).symbols)
        (known : id ∈ before.known ∨ id ∈ gained.map (·.1)) :
        id ∈ after.buffer.symbols ∨ Emitted (calls ++ [⟨before, arrival, after, .ok events⟩]) id := by
      have start := SymbolBuffer.absorb_ahead keeps.ahead gained id held
      rcases settles.keeps held start with delivered | left | ⟨below, hole, lower, upTo, absent⟩
      · obtain ⟨⟨id, data⟩, listed, rfl⟩ := List.mem_map.mp delivered
        exact .inr ⟨_, List.mem_append_right _ (List.mem_singleton.mpr rfl), events, data, rfl,
          takes.ready_mem_iff.mpr listed⟩
      · exact .inl (takes.buffer ▸ left)
      · rw [SymbolBuffer.absorb_next] at start lower
        exact absurd ⟨id, known, below, .inl ⟨start, hole, lower, upTo, fun held => absent ((mem_absorb_iff lower).mpr held)⟩⟩
          careful
    refine ⟨by rw [takes.buffer]; exact settles.ahead, fun id held => ?_, fun call member id fresh known start => ?_⟩
    · rw [takes.buffer] at held
      have absorbed : id ∈ (before.buffer.absorb gained).symbols := by
        rcases settles.ends with ⟨_, same, _⟩ | ⟨_, same, _⟩
        · exact (settles.drains.mem_rest.mp (same ▸ held)).2
        · exact (settles.drains.mem_rest.mp (SymbolBuffer.mem_pruneBelow.mp (same ▸ held)).1).2
      rw [takes.known, KnownSources.mem_learn]
      exact (SymbolBuffer.mem_absorb.mp absorbed).imp (keeps.known id) And.left
    · rcases List.mem_append.mp member with member | member
      · rcases keeps.nothingLost call member id fresh known start with held | emitted
        · exact stays id (SymbolBuffer.mem_absorb.mpr (.inl held)) (.inl (keeps.known id held))
        · exact .inr emitted.append
      · cases List.mem_singleton.mp member
        dsimp only at fresh known start
        rw [takes.known, KnownSources.mem_learn] at known
        have entered := known.resolve_left fresh
        exact stays id (SymbolBuffer.mem_absorb.mpr (.inr ⟨entered, start⟩)) (.inr entered)

/-- Nothing the decoder holds is thrown away undelivered, and no gap contains a known id,
exactly when no arrival of the run discards one. -/
theorem discards_iff (run : Run handle (new config policy) calls final) :
    NothingLost calls final ∧ GapsUnknown calls ↔
      ∀ call ∈ calls, ∀ matrix gained, call.before.accept call.input = .ok (matrix, gained) →
        ¬ call.before.Discards call.input gained := by
  constructor
  · rintro ⟨_, unknown⟩ call member matrix gained accepted discards
    obtain ⟨earlier, before, _, handled⟩ := run.at_call member
    cases replied : call.output with
    | ok events =>
      rw [replied] at handled
      obtain ⟨matrix, symbols, takes⟩ := handle_ok handled
      cases takes.accepted.symm.trans accepted
      obtain ⟨first, count, id, gap, start, below, known⟩ := (takes.discards_iff (run_ahead before)).mpr discards
      exact unknown call member events first count id replied gap start below known
    | error error =>
      rw [replied] at handled
      exact (handle_error handled).refused _ accepted
  · intro careful
    constructor
    · exact (run.preserves Keeps (fun call => ∀ matrix gained, call.before.accept call.input = .ok (matrix, gained) →
          ¬ call.before.Discards call.input gained)
        ⟨SymbolBuffer.new_ahead 0, by simp [new, SymbolBuffer.new], fun call member => by cases member⟩
        (fun _ _ _ _ _ keeps handled careful => keeps.call handled careful) careful).nothingLost
    · intro call member events first count id replied gap start below known
      obtain ⟨earlier, before, _, handled⟩ := run.at_call member
      rw [replied] at handled
      obtain ⟨matrix, gained, takes⟩ := handle_ok handled
      exact careful call member matrix gained takes.accepted
        ((takes.discards_iff (run_ahead before)).mp ⟨first, count, id, gap, start, below, known⟩)

end Runs

def fifthAlone : CodedPacket :=
  .plain { field := .gf2_4, codedId := 1, generation := 0, idFormat := .none, sourceIds := [5], coefficients := [1] } [0]

def small (maxMatrixRows : ℕ) : Decoder ImmediateFeedbackPolicy :=
  new { symbolSize := 1, field := .gf2_4, maxMatrixRows, feedbackEvery := 16 } ⟨⟩

end Decoder
end Delp
