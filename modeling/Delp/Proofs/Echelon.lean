import Delp.Proofs.MatrixShape

/-! Substitution of a symbol keeps the matrix reduced: rows are monic at their own keys and zero at the others',
and the rows with the symbols found so far determine at least what they did before. -/

namespace Delp.DecodingMatrix
open Machine Gf Elimination MatrixRow

variable {field : Config.Field} {size : ℕ}

def Rows.keySet (rows : Rows) : Set SourceSymbolId := {pid | pid ∈ rows}

def Rows.coefs (field : Config.Field) (rows : Rows) (pid : SourceSymbolId) : SourceSymbolId → field.Elem :=
  match rows[pid]? with
  | some row => row.coef field
  | none => 0

theorem Rows.mem_keySet {rows : Rows} {pid : SourceSymbolId} : pid ∈ rows.keySet ↔ ∃ row, rows[pid]? = some row := by
  change pid ∈ rows ↔ _
  rw [Std.TreeMap.mem_iff_isSome_getElem?, Option.isSome_iff_exists]

theorem Rows.coefs_of {rows : Rows} {pid : SourceSymbolId} {row : MatrixRow} (found : rows[pid]? = some row) :
    rows.coefs field pid = row.coef field := by
  rw [coefs, found]

theorem Rows.coefs_absent {rows : Rows} {pid : SourceSymbolId} (absent : pid ∉ rows.keySet) : rows.coefs field pid = 0 := by
  unfold coefs
  split
  next found => exact absurd (mem_keySet.mpr ⟨_, found⟩) absent
  next => rfl

/-- What the rows and the found symbols determine. -/
abbrev Rows.space (field : Config.Field) (rows : Rows) (found : Set SourceSymbolId) :
    Submodule field.Elem (SourceSymbolId → field.Elem) := rowSpace rows.keySet (rows.coefs field) found

/-- Reduced rows, all of them in a space of true equations, which with the found symbols
determine a space of coefficient vectors. -/
structure System (field : Config.Field) (valid : Submodule field.Elem (SymbolEquation field))
    (target : Submodule field.Elem (SourceSymbolId → field.Elem)) (rows : Rows) (found : Set SourceSymbolId) : Prop where
  reduced : Reduced rows.keySet (rows.coefs field)
  sound : ∀ (pid : SourceSymbolId) row, rows[pid]? = some row → row.equation field ∈ valid
  covers : target ≤ rows.space field found

namespace System
variable {valid : Submodule field.Elem (SymbolEquation field)}
  {target : Submodule field.Elem (SourceSymbolId → field.Elem)} {rows rows' : Rows} {found : Set SourceSymbolId}

theorem monic (system : System field valid target rows found) {pid : SourceSymbolId} {row : MatrixRow}
    (stored : rows[pid]? = some row) : row.coef field pid = 1 := by
  rw [← Rows.coefs_of stored]
  exact system.reduced.pivot pid (Rows.mem_keySet.mpr ⟨row, stored⟩)

theorem key_of_solves (system : System field valid target rows found) {pid id : SourceSymbolId} {row : MatrixRow}
    (stored : rows[pid]? = some row) (solves : row.Solves field id) : pid = id := by
  by_contra apart
  exact one_ne_zero ((system.monic stored).symm.trans (solves.2 pid apart))

theorem solved_equation (system : System field valid target rows found) {pid id : SourceSymbolId} {row : MatrixRow}
    (stored : rows[pid]? = some row) (solves : row.Solves field id) :
    row.equation field = symbolEquation field id row.payload := by
  cases system.key_of_solves stored solves
  exact solves.equation_eq (system.monic stored)

theorem rewrite (system : System field valid target rows found) {column : SourceSymbolId} {pivot : SymbolEquation field}
    (rewrites : Rewrites (Clears field size column pivot) rows rows') (free : ∀ q ∈ rows.keySet, pivot.1 q = 0)
    (inside : pivot ∈ valid) :
    Reduced rows'.keySet (rows'.coefs field) ∧
      (∀ (pid : SourceSymbolId) row, rows'[pid]? = some row → row.equation field ∈ valid) ∧
      ∀ space : Submodule field.Elem (SourceSymbolId → field.Elem),
        rows'.space field found ≤ space → pivot.1 ∈ space →
        rows.space field found ≤ space := by
  have keys : rows'.keySet = rows.keySet := Set.ext fun pid => rewrites.mem_iff
  refine ⟨keys ▸ system.reduced.eliminate (fun pid => rows.coefs field pid column) free (fun p key => ?_)
    fun p missing => ?_, fun pid row' stored => ?_, fun space keeps determined => ?_⟩
  · obtain ⟨row, stored⟩ := Rows.mem_keySet.mp key
    obtain ⟨row', stored', clears⟩ := rewrites.forward p row stored
    rw [Rows.coefs_of stored', Rows.coefs_of stored]
    exact clears.coefs_eq
  · exact Rows.coefs_absent (keys ▸ missing)
  · obtain ⟨row, stored, clears⟩ := rewrites.backward pid row' stored
    rw [clears.equation]
    exact valid.add_mem (system.sound pid row stored) (valid.smul_mem _ inside)
  · refine rowSpace_le (fun p key => ?_) fun k known => keeps (single_mem known)
    obtain ⟨row, stored⟩ := Rows.mem_keySet.mp key
    obtain ⟨row', stored', clears⟩ := rewrites.forward p row stored
    have restored : row.coef field = row'.coef field + row.coef field column • pivot.1 := coefs_of_equation clears.restore
    rw [Rows.coefs_of stored, restored]
    refine space.add_mem (keeps ?_) (space.smul_mem _ determined)
    rw [← Rows.coefs_of stored']
    exact row_mem (Rows.mem_keySet.mpr ⟨row', stored'⟩)

theorem substitute (system : System field valid target rows found) {id : SourceSymbolId} {data : Bytes}
    (rewrites : Rewrites (Clears field size id (symbolEquation field id data)) rows rows') (fresh : id ∉ rows)
    (inside : symbolEquation field id data ∈ valid) (member : id ∈ found) : System field valid target rows' found := by
  obtain ⟨reduced, sound, covers⟩ := system.rewrite rewrites
    (fun q key => Pi.single_eq_of_ne (fun same : q = id => fresh (same ▸ (show q ∈ rows from key))) _) inside
  exact ⟨reduced, sound, system.covers.trans (covers _ le_rfl (single_mem member))⟩

end System

/-- Every row has a coefficient besides the one at its key. -/
def Rows.Unsolved (field : Config.Field) (rows : Rows) : Prop :=
  ∀ (pid : SourceSymbolId) row id, rows[pid]? = some row → ¬ row.Solves field id

/-- Rows from which the solved ones have been taken, each with the symbol that it determines. -/
structure Extracted (field : Config.Field) (rows left : Rows) (recovered : List (SourceSymbolId × Bytes)) : Prop where
  remains : ∀ pid : SourceSymbolId, left[pid]? = if pid ∈ recovered.map (·.1) then none else rows[pid]?
  stored : ∀ symbol ∈ recovered, ∃ row, rows[symbol.1]? = some row ∧ row.Solves field symbol.1 ∧ symbol.2 = row.payload
  complete : ∀ (id : SourceSymbolId) row, rows[id]? = some row → row.Solves field id → (id, row.payload) ∈ recovered
  once : (recovered.map (·.1)).Nodup

namespace Extracted
variable {rows left : Rows} {recovered : List (SourceSymbolId × Bytes)}

theorem of_left (extracted : Extracted field rows left recovered) {pid : SourceSymbolId} {row : MatrixRow}
    (stored : left[pid]? = some row) : rows[pid]? = some row ∧ ¬ row.Solves field pid := by
  rw [extracted.remains pid] at stored
  split at stored
  · cases stored
  next absent =>
    exact ⟨stored, fun solves => absent (List.mem_map_of_mem (extracted.complete pid row stored solves))⟩

theorem key_of (extracted : Extracted field rows left recovered) {id : SourceSymbolId}
    (listed : id ∈ recovered.map (·.1)) : ∃ row, rows[id]? = some row ∧ row.Solves field id := by
  obtain ⟨symbol, member, rfl⟩ := List.mem_map.mp listed
  obtain ⟨row, stored, solves, _⟩ := extracted.stored symbol member
  exact ⟨row, stored, solves⟩

theorem shaped (extracted : Extracted field rows left recovered) (shaped : Rows.Shaped field size rows) :
    Rows.Shaped field size left :=
  fun pid row stored => shaped pid row (extracted.of_left stored).1

theorem sized (extracted : Extracted field rows left recovered) (shaped : Rows.Shaped field size rows) :
    ∀ symbol ∈ recovered, symbol.2.length = size := by
  intro symbol member
  obtain ⟨row, stored, _, same⟩ := extracted.stored symbol member
  exact same ▸ (shaped symbol.1 row stored).payload

end Extracted

namespace System
variable {valid : Submodule field.Elem (SymbolEquation field)}
  {target : Submodule field.Elem (SourceSymbolId → field.Elem)} {rows left : Rows} {found : Set SourceSymbolId}
  {recovered : List (SourceSymbolId × Bytes)}

theorem of_reduced (reduced : Reduced rows.keySet (rows.coefs field)) (found : Set SourceSymbolId) :
    System field ⊤ ⊥ rows found := ⟨reduced, fun _ _ _ => Submodule.mem_top, bot_le⟩

theorem extract (system : System field valid target rows found) (extracted : Extracted field rows left recovered) :
    System field valid target left {k | k ∈ found ∨ k ∈ recovered.map (·.1)} ∧
      ∀ symbol ∈ recovered, symbolEquation field symbol.1 symbol.2 ∈ valid := by
  refine ⟨⟨system.reduced.restrict (fun pid key => ?_) (fun pid key => ?_) fun pid => Rows.coefs_absent,
    fun pid row stored => system.sound pid row (extracted.of_left stored).1, ?_⟩, fun symbol member => ?_⟩
  · obtain ⟨row, stored⟩ := Rows.mem_keySet.mp key
    exact Rows.mem_keySet.mpr ⟨row, (extracted.of_left stored).1⟩
  · obtain ⟨row, stored⟩ := Rows.mem_keySet.mp key
    rw [Rows.coefs_of stored, Rows.coefs_of (extracted.of_left stored).1]
  · refine system.covers.trans (rowSpace_le (fun pid key => ?_) fun k known => single_mem (.inl known))
    obtain ⟨row, stored⟩ := Rows.mem_keySet.mp key
    rw [Rows.coefs_of stored]
    by_cases taken : pid ∈ recovered.map (·.1)
    · obtain ⟨other, same, solves⟩ := extracted.key_of taken
      cases stored.symm.trans same
      have unit : row.coef field = Pi.single pid 1 := coefs_of_equation (system.solved_equation stored solves)
      rw [unit]
      exact single_mem (.inr taken)
    · have stays : left[pid]? = some row := by rw [extracted.remains pid, if_neg taken, stored]
      rw [← Rows.coefs_of stays]
      exact row_mem (Rows.mem_keySet.mpr ⟨row, stays⟩)
  · obtain ⟨row, stored, solves, same⟩ := extracted.stored symbol member
    rw [same, ← system.solved_equation stored solves]
    exact system.sound symbol.1 row stored

theorem unsolved (system : System field valid target rows found) (extracted : Extracted field rows left recovered) :
    left.Unsolved field := by
  intro pid row id stored solves
  obtain ⟨before, unsolved⟩ := extracted.of_left stored
  cases system.key_of_solves before solves
  exact unsolved solves

theorem left_free (system : System field valid target rows found) (extracted : Extracted field rows left recovered)
    {pid id : SourceSymbolId} {row : MatrixRow} (stored : left[pid]? = some row) (listed : id ∈ recovered.map (·.1)) :
    row.coef field id = 0 := by
  obtain ⟨before, unsolved⟩ := extracted.of_left stored
  obtain ⟨other, present, solves⟩ := extracted.key_of listed
  rw [← Rows.coefs_of before]
  refine system.reduced.clear pid (Rows.mem_keySet.mpr ⟨row, before⟩) id (Rows.mem_keySet.mpr ⟨other, present⟩) ?_
  rintro rfl
  cases before.symm.trans present
  exact unsolved solves

end System

namespace Cascade

theorem run_idle (field : Config.Field) (fuel : ℕ) (state : Cascade)
    (absent : ∀ symbol ∈ state.queue, ∀ (pid : SourceSymbolId) row, state.rows[pid]? = some row → row.coefs.get symbol.1 = 0)
    (enough : state.queue.length < fuel) :
    ∃ localKnown, state.run field fuel = .ok { state with queue := [], localKnown } := by
  induction fuel generalizing state with
  | zero => omega
  | succ fuel ih =>
    obtain ⟨rows, queue, localKnown, recovered⟩ := state
    unfold run
    cases queue with
    | nil => exact ⟨localKnown, rfl⟩
    | cons symbol queue =>
      obtain ⟨_, idle, same⟩ := Outcome.foldlM_returns (substituteInRow field symbol.1 symbol.2) rows.keys
        (fun _ state => state = (rows, [])) (by
          rintro visited pid rest _ split rfl
          have key : pid ∈ rows.keys := split ▸ List.mem_append_right _ List.mem_cons_self
          obtain ⟨row, stored⟩ := Option.isSome_iff_exists.mp (OrderedKeys.mem_keys_iff.mp key)
          refine ⟨(rows, []), ?_, rfl⟩
          simp only [substituteInRow, stored, Outcome.get_some, Outcome.ok_bind,
            absent symbol List.mem_cons_self pid row stored, if_true, Outcome.pure_def]) (rows, []) rfl
      cases same
      dsimp only
      rw [idle, Outcome.ok_bind]
      exact ih _ (fun other member => absent other (List.mem_cons_of_mem _ member)) (Nat.lt_of_succ_lt_succ enough)

end Cascade

theorem addKnownSource_absent (matrix : DecodingMatrix) (id : SourceSymbolId)
    (absent : ∀ (pid : SourceSymbolId) row, matrix.rows[pid]? = some row → row.coefs.get id = 0) (data : Bytes)
    (known : KnownSources) : matrix.addKnownSource id data known = .ok (matrix, []) := by
  obtain ⟨_, ran⟩ := Cascade.run_idle matrix.field (matrix.rows.size + 2)
    { rows := matrix.rows, queue := [(id, data)], localKnown := known, recovered := [] }
    (by
      intro symbol member
      cases List.mem_singleton.mp member
      exact absent)
    (by rw [List.length_singleton]; omega)
  rw [addKnownSource, ran]
  rfl

/-- A symbol whose id is no key is cleared from the rows, and the rows that this solves are taken. -/
theorem addKnownSource_eq (matrix : DecodingMatrix) (shaped : Rows.Shaped matrix.field size matrix.rows)
    (reduced : Reduced (Rows.keySet matrix.rows) (Rows.coefs matrix.field matrix.rows))
    (unsolved : Rows.Unsolved matrix.field matrix.rows) {id : SourceSymbolId} {data : Bytes} (sized : data.length = size)
    (fresh : id ∉ matrix.rows) (known : KnownSources) :
    ∃ cleared left recovered,
      Rewrites (Clears matrix.field size id (symbolEquation matrix.field id data)) matrix.rows cleared ∧
      Extracted matrix.field cleared left recovered ∧
      matrix.addKnownSource id data known = .ok ({ matrix with rows := left }, recovered) := by
  obtain ⟨cleared, solved, substituted, rewrites, sound, complete⟩ := substituteRows_eq shaped sized id
  obtain ⟨taken, extracts⟩ := Cascade.extract_all solved
    { rows := cleared, queue := [], localKnown := known.insert id data, recovered := [] }
  have system : System matrix.field ⊤ ⊥ cleared {id} :=
    (System.of_reduced reduced {id}).substitute rewrites fresh Submodule.mem_top rfl
  have own (pid : SourceSymbolId) (row : MatrixRow) (listed : pid ∈ solved) (stored : cleared[pid]? = some row) :
      row.Solves matrix.field pid := by
    obtain ⟨key, other, lookup, solves⟩ := sound pid listed
    cases system.key_of_solves lookup solves
    cases stored.symm.trans lookup
    exact solves
  have listed (pid : SourceSymbolId) (row : MatrixRow) (stored : cleared[pid]? = some row)
      (solves : row.Solves matrix.field pid) : pid ∈ solved := by
    obtain ⟨before, old, clears⟩ := rewrites.backward pid row stored
    refine complete pid before row pid old stored (fun untouched => ?_) solves
    rw [clears.same untouched] at solves
    exact unsolved pid before pid old solves
  have extracted : Extracted matrix.field cleared (solved.foldl Cascade.extract
      { rows := cleared, queue := [], localKnown := known.insert id data, recovered := [] }).rows taken := by
    refine ⟨fun pid => ?_, fun symbol member => ?_, fun other row stored solves => ?_, extracts.once⟩
    · rw [extracts.rows pid]
      dsimp only
      by_cases key : pid ∈ cleared
      · obtain ⟨row, stored⟩ := Rows.mem_keySet.mp key
        refine if_congr ⟨fun member => ?_, fun found => ?_⟩ rfl rfl
        · exact List.mem_map_of_mem (extracts.complete pid member row stored)
        · obtain ⟨symbol, member, same⟩ := List.mem_map.mp found
          exact same ▸ (extracts.stored symbol member).1
      · rw [Std.TreeMap.getElem?_eq_none key, ite_self, ite_self]
    · obtain ⟨member, row, stored, same⟩ := extracts.stored symbol member
      exact ⟨row, stored, own symbol.1 row member stored, same⟩
    · exact extracts.complete other (listed other row stored solves) row stored
  refine ⟨cleared, _, taken, rewrites, extracted, ?_⟩
  have shrunk := extracts.size
  have rewritten := rewrites.size
  have filtered := List.length_filter_le (fun symbol => !(known.insert id data).contains symbol.1) taken
  dsimp only at shrunk
  -- what the turn enqueues are keys of rows it has taken, which no other row mentions
  obtain ⟨_, ran⟩ := Cascade.run_idle matrix.field (matrix.rows.size + 1)
    (solved.foldl Cascade.extract { rows := cleared, queue := [], localKnown := known.insert id data, recovered := [] })
    (by
      intro symbol member pid row stored
      rw [extracts.queue] at member
      refine ((extracted.shaped (Rewrites.shaped rewrites)) pid row stored).get_eq_zero.mpr ?_
      exact system.left_free extracted stored (List.mem_map_of_mem (List.mem_of_mem_filter member)))
    (by
      rw [extracts.queue, List.nil_append]
      dsimp only
      omega)
  unfold addKnownSource Cascade.run
  dsimp only
  rw [substituted, Outcome.ok_bind]
  dsimp only
  rw [ran, extracts.recovered]
  rfl

end Delp.DecodingMatrix
