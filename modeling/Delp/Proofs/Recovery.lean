import Delp.Proofs.EchelonCoded
import Delp.Proofs.PacketRows

/-! What a decoder recovers: true symbols only, and every symbol that the packets it has taken
determine. Both need that no source packet arrives for the key of a stored row. -/

namespace Delp
open Machine Gf Elimination

def Arrival.equation (field : Config.Field) : Arrival → SymbolEquation field
  | .source packet => symbolEquation field packet.sourceSymbolId packet.payload
  | .coded packet => (packet.ev.row field, symbol field packet.payload)

def Arrival.Acceptable (config : DecoderConfig) : Arrival → Prop
  | .source packet => packet.payload.length = config.symbolSize
  | .coded packet => packet.Acceptable config.field config.symbolSize

/-- The equations that are true of an assignment of symbols to ids. -/
def truths (field : Config.Field) (x : SourceSymbolId → Bytes) : Submodule field.Elem (SymbolEquation field) :=
  satisfied fun id => symbol field (x id)

theorem symbolEquation_mem_truths {field : Config.Field} {x : SourceSymbolId → Bytes} {id : SourceSymbolId} {data : Bytes} :
    symbolEquation field id data ∈ truths field x ↔ symbol field data = symbol field (x id) :=
  known_mem_satisfied

def Arrival.Carries (config : DecoderConfig) (x : SourceSymbolId → Bytes) : Arrival → Prop
  | .source packet => packet.payload = x packet.sourceSymbolId
  | .coded packet => packet.States config.field config.symbolSize x

theorem Arrival.Carries.acceptable {config : DecoderConfig} {x : SourceSymbolId → Bytes} {arrival : Arrival}
    (carries : arrival.Carries config x) (sized : ∀ id, (x id).length = config.symbolSize) :
    arrival.Acceptable config := by
  cases arrival with
  | source packet => exact (congrArg List.length (show packet.payload = _ from carries)).trans (sized _)
  | coded packet => exact CodedPacket.States.acceptable carries sized

theorem Arrival.Carries.equation_mem {config : DecoderConfig} {x : SourceSymbolId → Bytes} {arrival : Arrival}
    (carries : arrival.Carries config x) (sized : ∀ id, (x id).length = config.symbolSize) :
    arrival.equation config.field ∈ truths config.field x := by
  cases arrival with
  | source packet => exact symbolEquation_mem_truths.mpr (congrArg _ (show packet.payload = _ from carries))
  | coded packet => exact CodedPacket.States.equation_mem carries sized fun id _ => symbolEquation_mem_truths.mpr rfl

namespace SymbolBuffer

theorem absorb_source {buffer : SymbolBuffer} {gained : List (SourceSymbolId × Bytes)} {id : SourceSymbolId} {data : Bytes}
    (stored : (buffer.absorb gained).symbols[id]? = some data) : buffer.symbols[id]? = some data ∨ (id, data) ∈ gained := by
  induction gained generalizing buffer with
  | nil => exact .inl stored
  | cons symbol gained ih =>
    rcases ih stored with before | later
    · rcases insert_source before with before | ⟨rfl, rfl⟩
      · exact .inl before
      · exact .inr List.mem_cons_self
    · exact .inr (List.mem_cons_of_mem _ later)

theorem Settles.stored {buffer drained : SymbolBuffer} {out : List (SourceSymbolId × Bytes)} {floor : SourceSymbolId}
    (settles : Settles buffer drained out floor) {id : SourceSymbolId} {data : Bytes}
    (found : (buffer.settle floor).symbols[id]? = some data) : buffer.symbols[id]? = some data := by
  have drained (left : drained.symbols[id]? = some data) : buffer.symbols[id]? = some data := by
    rw [settles.drains.rest id] at left
    split at left
    · exact left
    · cases left
  rcases settles.ends with ⟨_, same, _⟩ | ⟨_, same, _⟩
  · exact drained (same ▸ found)
  · rw [same, pruneBelow] at found
    have listed := Std.TreeMap.mem_toList_iff_getElem?_eq_some.mpr found
    rw [Std.TreeMap.toList_filter] at listed
    exact drained (Std.TreeMap.mem_toList_iff_getElem?_eq_some.mp (List.mem_of_mem_filter listed))

end SymbolBuffer

namespace Decoder
variable {P : Type}

/-- A source packet whose id is the key of no stored row. -/
def KeyFree (before : Decoder P) : Arrival → Prop
  | .source packet => packet.sourceSymbolId ∉ before.matrix.rows
  | .coded _ => True

/-- A decoder whose rows are a solid system: all equations are in a space of true ones, and with
the known symbols they determine a space of coefficient vectors. -/
structure Solid (config : DecoderConfig) (valid : Submodule config.field.Elem (SymbolEquation config.field))
    (target : Submodule config.field.Elem (SourceSymbolId → config.field.Elem)) (state : Decoder P) : Prop where
  sameConfig : state.config = config
  sameField : state.matrix.field = config.field
  sameMax : state.matrix.maxRows = config.maxMatrixRows
  matrix : DecodingMatrix.Solid config.field config.symbolSize valid target state.matrix.rows {k | k ∈ state.known}
  bounded : DecodingMatrix.Rows.Bounded state.matrix.rows
  unsolved : DecodingMatrix.Rows.Unsolved config.field state.matrix.rows
  known : ∀ (id : SourceSymbolId) data, state.known[id]? = some data →
    data.length = config.symbolSize ∧ symbolEquation config.field id data ∈ valid

variable {config : DecoderConfig} {valid valid' : Submodule config.field.Elem (SymbolEquation config.field)}
  {target target' : Submodule config.field.Elem (SourceSymbolId → config.field.Elem)}

instance (before : Decoder P) (arrival : Arrival) : Decidable (before.KeyFree arrival) :=
  match arrival with
  | .source packet => inferInstanceAs (Decidable (packet.sourceSymbolId ∉ before.matrix.rows))
  | .coded _ => inferInstanceAs (Decidable True)

structure Recovers (config : DecoderConfig) (valid : Submodule config.field.Elem (SymbolEquation config.field))
    (target : Submodule config.field.Elem (SourceSymbolId → config.field.Elem)) (before : Decoder P) (arrival : Arrival)
    (matrix : DecodingMatrix) (gained : List (SourceSymbolId × Bytes)) : Prop where
  accepted : before.accept arrival = .ok (matrix, gained)
  sameField : matrix.field = config.field
  sameMax : matrix.maxRows = config.maxMatrixRows
  solid : DecodingMatrix.Solid config.field config.symbolSize valid target matrix.rows
    {k | k ∈ before.known ∨ k ∈ gained.map (·.1)}
  bounded : DecodingMatrix.Rows.Bounded matrix.rows
  unsolved : DecodingMatrix.Rows.Unsolved config.field matrix.rows
  gained : ∀ symbol ∈ gained, symbol.2.length = config.symbolSize ∧ symbolEquation config.field symbol.1 symbol.2 ∈ valid

theorem Solid.mono {state : Decoder P} (solid : state.Solid config valid target) (weaker : valid ≤ valid') :
    state.Solid config valid' target :=
  { solid with
    matrix := solid.matrix.mono weaker
    known := fun id data stored => ⟨(solid.known id data stored).1, weaker (solid.known id data stored).2⟩ }

theorem Solid.accept {before : Decoder P} (solid : before.Solid config valid target) (weaker : valid ≤ valid')
    {arrival : Arrival} (acceptable : arrival.Acceptable config) (free : before.KeyFree arrival)
    (inside : arrival.equation config.field ∈ valid')
    (grows : target' ≤ target ⊔ Submodule.span config.field.Elem {(arrival.equation config.field).1})
    (room : before.matrix.rows.size < config.maxMatrixRows ∨ target' = ⊥) :
    ∃ matrix gained, Recovers config valid' target' before arrival matrix gained := by
  have matrix := solid.matrix.mono weaker
  cases arrival with
  | source packet =>
    have sized : packet.payload.length = config.symbolSize := acceptable
    have right : ¬ packet.payload.length ≠ before.config.symbolSize := not_not.mpr (solid.sameConfig ▸ sized)
    obtain ⟨rows, recovered, added, joined, bounded, unsolved, good⟩ := DecodingMatrix.addKnownSource_solid solid.sameField matrix
      solid.bounded solid.unsolved sized inside free grows (before.known.insertIfNew packet.sourceSymbolId packet.payload)
    refine ⟨{ before.matrix with rows }, (packet.sourceSymbolId, packet.payload) :: recovered, ?_, solid.sameField,
      solid.sameMax, ?_, bounded, unsolved, ?_⟩
    · simp only [Decoder.accept, if_neg right, added, Outcome.ok_bind, Outcome.pure_def]
    · have ids : {k | k ∈ before.known ∨ k ∈ ((packet.sourceSymbolId, packet.payload) :: recovered).map (·.1)} =
          {k | (k ∈ {k | k ∈ before.known} ∨ k = packet.sourceSymbolId) ∨ k ∈ recovered.map (·.1)} :=
        Set.ext fun k => by rw [List.map_cons]; simp only [Set.mem_ofPred_eq, List.mem_cons, or_assoc]
      exact ids ▸ joined
    · intro symbol member
      rcases List.mem_cons.mp member with rfl | member
      · exact ⟨sized, inside⟩
      · exact good symbol member
  | coded packet =>
    have right : ¬ packet.payload.length ≠ before.config.symbolSize :=
      not_not.mpr (solid.sameConfig ▸ acceptable.sized)
    obtain ⟨map, read⟩ := acceptable.read
    have coefs := DecodingMatrix.coef_fromMap config.field read packet.payload
    obtain ⟨rows, recovered, added, joined, bounded, unsolved, good⟩ := DecodingMatrix.addCoded_solid solid.sameField matrix
      solid.bounded solid.unsolved (fun symbol listed => (solid.known _ _ (Std.TreeMap.mem_toList_iff_getElem?_eq_some.mp listed)).1)
      (fun symbol listed => weaker (solid.known _ _ (Std.TreeMap.mem_toList_iff_getElem?_eq_some.mp listed)).2) read
      (acceptable.regular.fits read) acceptable.sized
      (by rw [MatrixRow.equation, coefs]; exact inside) (by rw [coefs]; exact grows) (solid.sameMax ▸ room)
    refine ⟨{ before.matrix with rows }, recovered, ?_, solid.sameField, solid.sameMax, joined, bounded, unsolved, good⟩
    simp only [Decoder.accept, if_neg right]
    exact added

theorem Solid.takes {before after : Decoder P} {arrival : Arrival} {matrix : DecodingMatrix}
    {gained : List (SourceSymbolId × Bytes)} {events : List DecoderEvent} (solid : before.Solid config valid target)
    (weaker : valid ≤ valid') (recovers : Recovers config valid' target' before arrival matrix gained)
    (takes : before.Takes arrival matrix gained after events) : after.Solid config valid' target' := by
  have ids : {k | k ∈ after.known} = {k | k ∈ before.known ∨ k ∈ gained.map (·.1)} :=
    Set.ext fun k => by rw [takes.known]; exact KnownSources.mem_learn
  refine ⟨takes.config.trans solid.sameConfig, takes.matrix ▸ recovers.sameField, takes.matrix ▸ recovers.sameMax,
    ids ▸ takes.matrix ▸ recovers.solid, takes.matrix ▸ recovers.bounded, takes.matrix ▸ recovers.unsolved, fun id data stored => ?_⟩
  rw [takes.known] at stored
  rcases KnownSources.learn_source stored with before | gained
  · exact ⟨(solid.known id data before).1, weaker (solid.known id data before).2⟩
  · exact recovers.gained (id, data) gained

variable [FeedbackPolicy P]

theorem Solid.handle {before after : Decoder P} (solid : before.Solid config valid target) (weaker : valid ≤ valid')
    {arrival : Arrival} (acceptable : arrival.Acceptable config) (free : before.KeyFree arrival)
    (inside : arrival.equation config.field ∈ valid')
    (grows : target' ≤ target ⊔ Submodule.span config.field.Elem {(arrival.equation config.field).1})
    (room : before.matrix.rows.size < config.maxMatrixRows ∨ target' = ⊥) {reply : Reply}
    (handled : before.handle arrival = .ok (after, reply)) :
    ∃ matrix gained events, reply = .ok events ∧ Recovers config valid' target' before arrival matrix gained ∧
      before.Takes arrival matrix gained after events ∧ after.Solid config valid' target' := by
  obtain ⟨matrix, gained, recovers⟩ := solid.accept weaker acceptable free inside grows room
  cases reply with
  | error error => exact absurd recovers.accepted ((handle_error handled).refused _)
  | ok events =>
    obtain ⟨_, _, takes⟩ := handle_ok handled
    cases takes.accepted.symm.trans recovers.accepted
    exact ⟨_, _, events, rfl, recovers, takes, solid.takes weaker recovers takes⟩

omit [FeedbackPolicy P] in
theorem new_solid (config : DecoderConfig) (policy : P)
    (valid : Submodule config.field.Elem (SymbolEquation config.field)) : (new config policy).Solid config valid ⊥ where
  sameConfig := rfl
  sameField := rfl
  sameMax := rfl
  matrix := by
    have none (pid : SourceSymbolId) : pid ∉ DecodingMatrix.Rows.keySet (new config policy).matrix.rows := by
      simp [DecodingMatrix.Rows.keySet, new, DecodingMatrix.new]
    have empty (pid : SourceSymbolId) (row : MatrixRow) (stored : (new config policy).matrix.rows[pid]? = some row) : False :=
      none pid (DecodingMatrix.Rows.mem_keySet.mpr ⟨row, stored⟩)
    exact ⟨fun pid row stored => (empty pid row stored).elim, ⟨⟨fun pid key => (none pid key).elim,
      fun pid key => (none pid key).elim, fun pid _ => DecodingMatrix.Rows.coefs_absent (none pid)⟩,
      fun pid row stored => (empty pid row stored).elim, bot_le⟩, fun pid row _ stored => (empty pid row stored).elim⟩
  bounded := by intro pid row stored; simp [new, DecodingMatrix.new] at stored
  unsolved := by intro pid row id stored; simp [new, DecodingMatrix.new] at stored
  known := by intro id data stored; simp [new] at stored

section Runs
variable {policy : P} {calls : List (Call (Decoder P) Arrival Reply)} {final : Decoder P}

/-- The space that the rows of the packets so far span: the coefficient rows of coded packets, and
the unit vectors of source packets. -/
def received (field : Config.Field) (calls : List (Call (Decoder P) Arrival Reply)) :
    Submodule field.Elem (SourceSymbolId → field.Elem) :=
  Submodule.span field.Elem {row | ∃ call ∈ calls, row = (call.input.equation field).1}

omit [FeedbackPolicy P] in
theorem received_append (field : Config.Field) (calls : List (Call (Decoder P) Arrival Reply))
    (call : Call (Decoder P) Arrival Reply) :
    received field (calls ++ [call]) = received field calls ⊔ Submodule.span field.Elem {(call.input.equation field).1} := by
  rw [received, received, ← Submodule.span_union]
  congr 1
  ext row
  simp [or_and_right, exists_or, or_comm]

/-- What the rows and the known symbols come to over a run, for any space that grows by no more than the packets do. -/
private theorem run_solid {target : List (Call (Decoder P) Arrival Reply) → Submodule config.field.Elem (SourceSymbolId → config.field.Elem)}
    (start : target [] = ⊥)
    (grows : ∀ calls call, target (calls ++ [call]) ≤ target calls ⊔ Submodule.span config.field.Elem {(call.input.equation config.field).1})
    (run : Run handle (new config policy) calls final) (acceptable : ∀ call ∈ calls, call.input.Acceptable config)
    (free : ∀ call ∈ calls, call.before.KeyFree call.input)
    (room : ∀ call ∈ calls, call.before.matrix.rowCount < config.maxMatrixRows ∨ ∀ calls, target calls = ⊥) :
    final.Solid config ((received config.field calls).comap (LinearMap.fst _ _ _)) (target calls) := by
  refine run.preserves (fun calls state => state.Solid config ((received config.field calls).comap (LinearMap.fst _ _ _)) (target calls))
    (fun call => call.input.Acceptable config ∧ call.before.KeyFree call.input ∧
      (call.before.matrix.rowCount < config.maxMatrixRows ∨ ∀ calls, target calls = ⊥))
    ?_ ?_ fun call member => ⟨acceptable call member, free call member, room call member⟩
  · rw [show received config.field ([] : List (Call (Decoder P) Arrival Reply)) = ⊥ by simp [received], start]
    exact new_solid config policy _
  · intro calls before arrival after reply solid handled allowed
    obtain ⟨acceptable, free, room⟩ := allowed
    rw [received_append]
    obtain ⟨_, _, _, _, _, _, solid⟩ := solid.handle (Submodule.comap_mono le_sup_left) acceptable free
      (Submodule.mem_sup_right (Submodule.mem_span_singleton_self _)) (grows _ _) (room.imp id fun nothing => nothing _) handled
    exact solid

/-- With room for every row, the rows and the known symbols determine all that the packets do. -/
theorem run_determines (run : Run handle (new config policy) calls final)
    (acceptable : ∀ call ∈ calls, call.input.Acceptable config) (free : ∀ call ∈ calls, call.before.KeyFree call.input)
    (room : ∀ call ∈ calls, call.before.matrix.rowCount < config.maxMatrixRows) :
    final.Solid config ((received config.field calls).comap (LinearMap.fst _ _ _)) (received config.field calls) :=
  run_solid (by simp [received]) (fun calls call => (received_append config.field calls call).le) run acceptable free
    fun call member => .inl (room call member)

/-- The packets determine what a decoder knows, also where it has dropped rows. -/
theorem run_determined (run : Run handle (new config policy) calls final)
    (acceptable : ∀ call ∈ calls, call.input.Acceptable config) (free : ∀ call ∈ calls, call.before.KeyFree call.input) :
    final.Solid config ((received config.field calls).comap (LinearMap.fst _ _ _)) ⊥ :=
  run_solid rfl (fun _ _ => bot_le) run acceptable free fun _ _ => .inr fun _ => rfl

/-- A decoder with room for every row knows a symbol exactly when the packets determine it. -/
theorem recovers_determined_iff (run : Run handle (new config policy) calls final)
    (acceptable : ∀ call ∈ calls, call.input.Acceptable config) (free : ∀ call ∈ calls, call.before.KeyFree call.input)
    (room : ∀ call ∈ calls, call.before.matrix.rowCount < config.maxMatrixRows) (id : SourceSymbolId) :
    id ∈ final.known ↔ Pi.single id 1 ∈ received config.field calls := by
  have solid := run_determines run acceptable free room
  constructor
  · intro member
    obtain ⟨data, stored⟩ := Option.isSome_iff_exists.mp (Std.TreeMap.mem_iff_isSome_getElem?.mp member)
    exact (solid.known id data stored).2
  · intro determined
    exact (solid.matrix.determines_iff solid.unsolved id).mp (solid.matrix.system.covers determined)

/-- Every symbol that a decoder knows or delivers is the one that was sent. -/
theorem recovers_true_symbols {x : SourceSymbolId → Bytes} (sized : ∀ id, (x id).length = config.symbolSize)
    (run : Run handle (new config policy) calls final) (carries : ∀ call ∈ calls, call.input.Carries config x)
    (free : ∀ call ∈ calls, call.before.KeyFree call.input) :
    (∀ call ∈ calls, ∀ events, call.output = .ok events → ∀ id data, .sourceReady id data ∈ events → data = x id) ∧
      ∀ (id : SourceSymbolId) data, final.known[id]? = some data → data = x id := by
  have right {id : SourceSymbolId} {data : Bytes} (fits : data.length = config.symbolSize)
      (holds : symbolEquation config.field id data ∈ truths config.field x) : data = x id :=
    symbol_injective (fits.trans (sized id).symm) (symbolEquation_mem_truths.mp holds)
  obtain ⟨solid, _, delivered⟩ := run.preserves
    (fun calls state => state.Solid config (truths config.field x) ⊥ ∧
      (state.buffer.Ahead ∧ ∀ (id : SourceSymbolId) data, state.buffer.symbols[id]? = some data → data = x id) ∧
      ∀ call ∈ calls, ∀ events, call.output = .ok events → ∀ id data, .sourceReady id data ∈ events → data = x id)
    (fun call => call.input.Carries config x ∧ call.before.KeyFree call.input)
    ⟨new_solid config policy _, ⟨SymbolBuffer.new_ahead 0, by simp [new, SymbolBuffer.new]⟩, by simp⟩
    (by
      rintro calls before arrival after reply ⟨solid, ⟨ahead, buffered⟩, delivered⟩ handled ⟨carries, free⟩
      have nothing : (⊥ : Submodule config.field.Elem (SourceSymbolId → config.field.Elem)) ≤
        ⊥ ⊔ Submodule.span config.field.Elem {(arrival.equation config.field).1} := bot_le
      obtain ⟨matrix, gained, events, rfl, recovers, takes, solid⟩ := solid.handle le_rfl (carries.acceptable sized) free
        (carries.equation_mem sized) nothing (.inr rfl) handled
      have settles := SymbolBuffer.settles (SymbolBuffer.absorb_ahead ahead gained) (before.floor arrival)
      have absorbed (id : SourceSymbolId) (data : Bytes) (stored : (before.buffer.absorb gained).symbols[id]? = some data) :
          data = x id := by
        rcases SymbolBuffer.absorb_source stored with before | gained
        · exact buffered id data before
        · exact right (recovers.gained (id, data) gained).1 (recovers.gained (id, data) gained).2
      refine ⟨solid, ⟨takes.buffer ▸ settles.ahead, fun id data stored => ?_⟩, fun call member => ?_⟩
      · rw [takes.buffer] at stored
        exact absorbed id data (settles.stored stored)
      · rcases List.mem_append.mp member with member | member
        · exact delivered call member
        · cases List.mem_singleton.mp member
          intro others replied id data ready
          cases replied
          exact absorbed id data (settles.drains.stored (id, data) (takes.ready_mem_iff.mp ready)))
    fun call member => ⟨carries call member, free call member⟩
  exact ⟨delivered, fun id data stored => right (solid.known id data stored).1 (solid.known id data stored).2⟩

end Runs

section Examples

def listed (sourceIds : List UInt32) (coefficients payload : Bytes) : CodedPacket :=
  .plain { field := .gf2_4, codedId := 1, generation := 0, idFormat := .none, sourceIds, coefficients } payload

theorem listed_states {ids : List UInt32} {coefs payload : Bytes} {x : SourceSymbolId → Bytes}
    (inField : coefs.all (· < 16) = true) (below : ids.all (· < 0xFFFFFFFF) = true) (distinct : ids.Nodup)
    (derived : (listed ids coefs payload).ev.coefs = .ok coefs) (sum : payload = combine .gf2_4 1 (coefs.zip (ids.map x))) :
    (Arrival.coded (listed ids coefs payload)).Carries (small 512).config x :=
  ⟨⟨rfl, fun c member => of_decide_eq_true (List.all_eq_true.mp inField c member),
    fun id member => of_decide_eq_true (List.all_eq_true.mp below id member)⟩, distinct, coefs, derived, sum⟩

def onlyFirst (id : SourceSymbolId) : Bytes := if id = 1 then [1] else [0]

theorem onlyFirst_sized (id : SourceSymbolId) : (onlyFirst id).length = 1 := by
  unfold onlyFirst
  split <;> rfl

/-- The symbols 0 and 1, then symbol 1. -/
def lateOther : List Arrival := [.coded (listed [0, 1] [1, 2] [2]), .source (.plain 1 [1])]

/-- The symbols 0 and 1, then symbol 0 whose column the row is keyed by, then two more symbols. -/
def lateKey : List Arrival :=
  [.coded (listed [0, 1] [1, 2] [2]), .source (.plain 0 [0]), .coded (listed [2, 3] [1, 1] [0])]

private theorem carried {inputs : List Arrival} (known : ∀ arrival ∈ inputs, arrival.Carries (small 512).config onlyFirst)
    {calls : List (Call (Decoder ImmediateFeedbackPolicy) Arrival Reply)} (same : calls.map (·.input) = inputs) :
    ∀ call ∈ calls, call.input.Carries (small 512).config onlyFirst :=
  fun call member => known call.input (same ▸ List.mem_map_of_mem member)

private theorem lateOther_carries : ∀ arrival ∈ lateOther, arrival.Carries (small 512).config onlyFirst := by
  intro arrival member
  rcases List.mem_cons.mp member with rfl | member
  · exact listed_states (by decide) (by decide) (by decide) (by decide) (by decide +kernel)
  · cases List.mem_singleton.mp member
    exact (rfl : _ = _)

private theorem lateKey_carries : ∀ arrival ∈ lateKey, arrival.Carries (small 512).config onlyFirst := by
  intro arrival member
  simp only [lateKey, List.mem_cons, List.not_mem_nil, or_false] at member
  rcases member with rfl | rfl | rfl
  · exact listed_states (by decide) (by decide) (by decide) (by decide) (by decide +kernel)
  · exact (rfl : _ = _)
  · exact listed_states (by decide) (by decide) (by decide) (by decide) (by decide +kernel)

/-- A source packet that completes a row is recovered from. -/
theorem recovers_true_symbols_other : ∃ calls final, Run handle (small 512) calls final ∧ final.known.keys = [0, 1] ∧
    (∀ call ∈ calls, ∀ events, call.output = .ok events → ∀ id data, .sourceReady id data ∈ events → data = onlyFirst id) ∧
      ∀ (id : SourceSymbolId) data, final.known[id]? = some data → data = onlyFirst id := by
  obtain ⟨calls, final, run, checked⟩ := Run.exists_of_check handle (small 512) lateOther
    (fun reached => decide (reached.1.map (·.input) = lateOther) && decide (reached.2.known.keys = [0, 1]) &&
      reached.1.all fun call => decide (call.before.KeyFree call.input)) (by decide +kernel)
  simp only [Bool.and_eq_true, decide_eq_true_eq, List.all_eq_true] at checked
  obtain ⟨⟨inputs, known⟩, free⟩ := checked
  exact ⟨calls, final, run, known, recovers_true_symbols onlyFirst_sized run (carried lateOther_carries inputs) free⟩

/-- The row left under the key of a symbol that has arrived is taken for the equation of another
symbol, although it is not monic there. -/
theorem recovers_true_symbols_fails : ¬ ∀ calls final, Run handle (small 512) calls final →
    (∀ call ∈ calls, call.input.Carries (small 512).config onlyFirst) →
    (∀ call ∈ calls, ∀ events, call.output = .ok events → ∀ id data, .sourceReady id data ∈ events → data = onlyFirst id) ∧
      ∀ (id : SourceSymbolId) data, final.known[id]? = some data → data = onlyFirst id := by
  intro claim
  obtain ⟨calls, final, run, checked⟩ := Run.exists_of_check handle (small 512) lateKey
    (fun reached => decide (reached.1.map (·.input) = lateKey) && decide (reached.2.known[(1 : SourceSymbolId)]? = some [2]))
    (by decide +kernel)
  simp only [Bool.and_eq_true, decide_eq_true_eq] at checked
  have wrong := (claim calls final run (carried lateKey_carries checked.1)).2 1 [2] checked.2
  revert wrong
  decide

theorem recovers_determined_iff_other : ∃ calls final, Run handle (small 512) calls final ∧ final.known.keys = [0, 1] ∧
    ∀ id : SourceSymbolId, id ∈ final.known ↔ Pi.single id 1 ∈ received (small 512).config.field calls := by
  obtain ⟨calls, final, run, checked⟩ := Run.exists_of_check handle (small 512) lateOther
    (fun reached => decide (reached.1.map (·.input) = lateOther) && decide (reached.2.known.keys = [0, 1]) &&
      reached.1.all fun call => decide (call.before.KeyFree call.input) && decide (call.before.matrix.rowCount < 512))
    (by decide +kernel)
  simp only [Bool.and_eq_true, decide_eq_true_eq, List.all_eq_true] at checked
  obtain ⟨⟨inputs, known⟩, allowed⟩ := checked
  exact ⟨calls, final, run, known, recovers_determined_iff run
    (fun call member => (carried lateOther_carries inputs call member).acceptable onlyFirst_sized)
    (fun call member => (allowed call member).1) fun call member => (allowed call member).2⟩

/-- The row that symbol 0 leaves under its key determines symbol 1, and is not found there. -/
theorem recovers_determined_iff_fails : ¬ ∀ calls final, Run handle (small 512) calls final →
    (∀ call ∈ calls, call.input.Carries (small 512).config onlyFirst) →
    (∀ call ∈ calls, call.before.matrix.rowCount < 512) →
    ∀ id : SourceSymbolId, id ∈ final.known ↔ Pi.single id 1 ∈ received (small 512).config.field calls := by
  intro claim
  obtain ⟨calls, final, run, checked⟩ := Run.exists_of_check handle (small 512) (lateKey.take 2)
    (fun reached => decide (reached.1.map (·.input) = lateKey.take 2) && !reached.2.known.contains 1 &&
      reached.1.all fun call => decide (call.before.matrix.rowCount < 512)) (by decide +kernel)
  simp only [Bool.and_eq_true, decide_eq_true_eq, List.all_eq_true, Bool.not_eq_true'] at checked
  obtain ⟨⟨inputs, unknown⟩, room⟩ := checked
  have carries := carried (fun arrival member => lateKey_carries arrival (List.mem_of_mem_take member)) inputs
  have brings (arrival : Arrival) (member : arrival ∈ lateKey.take 2) :
      (arrival.equation .gf2_4).1 ∈ received .gf2_4 calls := by
    rw [← inputs] at member
    obtain ⟨call, called, rfl⟩ := List.mem_map.mp member
    exact Submodule.subset_span ⟨call, called, rfl⟩
  have both := brings (.coded (listed [0, 1] [1, 2] [2])) (by simp [lateKey])
  have first := brings (.source (.plain 0 [0])) (by simp [lateKey])
  have row : (listed [0, 1] [1, 2] [2]).ev.row .gf2_4 = EncodingVector.columns .gf2_4 [(0, 1), (1, 2)] :=
    (DecodingMatrix.coefMap_columns .gf2_4 (show (listed [0, 1] [1, 2] [2]).ev.sourceIds.Nodup by decide)
      (show (listed [0, 1] [1, 2] [2]).ev.coefs = .ok [1, 2] by decide)).2
  change (listed [0, 1] [1, 2] [2]).ev.row .gf2_4 ∈ received .gf2_4 calls at both
  change Pi.single 0 1 ∈ received .gf2_4 calls at first
  rw [row, EncodingVector.columns, List.map_cons, List.sum_cons, List.map_singleton, List.sum_singleton, elem_one, one_smul,
    Submodule.add_mem_iff_right _ first, Submodule.smul_mem_iff _ (mt (elem_eq_zero (by decide)).mp (by decide))] at both
  have known := Std.TreeMap.contains_iff_mem.mpr ((claim calls final run carries room 1).mpr both)
  rw [unknown] at known
  cases known

end Examples

end Decoder
end Delp
