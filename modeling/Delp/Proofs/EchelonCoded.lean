import Delp.Proofs.Echelon

/-! A coded equation joins a reduced system, which determines what it did and the equation, and
the extraction loop ends when no row determines a symbol. -/

namespace Delp.DecodingMatrix
open Machine Gf Elimination MatrixRow

/-- A reduced system whose rows are free of the symbols found so far. -/
structure Solid (field : Config.Field) (size : ℕ) (valid : Submodule field.Elem (SymbolEquation field))
    (target : Submodule field.Elem (SourceSymbolId → field.Elem)) (rows : Rows) (found : Set SourceSymbolId) : Prop where
  shaped : Rows.Shaped field size rows
  system : System field valid target rows found
  free : ∀ (pid : SourceSymbolId) row k, rows[pid]? = some row → k ∈ found → row.coef field k = 0

theorem Solid.mono {field : Config.Field} {size : ℕ} {valid valid' : Submodule field.Elem (SymbolEquation field)}
    {target : Submodule field.Elem (SourceSymbolId → field.Elem)} {rows : Rows} {found : Set SourceSymbolId}
    (solid : Solid field size valid target rows found) (weaker : valid ≤ valid') :
    Solid field size valid' target rows found :=
  ⟨solid.shaped, ⟨solid.system.reduced, fun pid row stored => weaker (solid.system.sound pid row stored),
    solid.system.covers⟩, solid.free⟩

theorem Solid.several {field : Config.Field} {size : ℕ} {valid : Submodule field.Elem (SymbolEquation field)}
    {target : Submodule field.Elem (SourceSymbolId → field.Elem)} {rows : Rows} {found : Set SourceSymbolId}
    (solid : Solid field size valid target rows found) (unsolved : Rows.Unsolved field rows) {pid : SourceSymbolId}
    {row : MatrixRow} (stored : rows[pid]? = some row) : ∃ id, id ≠ pid ∧ row.coef field id ≠ 0 := by
  by_contra alone
  refine unsolved pid row pid stored ⟨?_, fun other apart => ?_⟩
  · rw [solid.system.monic stored]
    exact one_ne_zero
  · by_contra nonzero
    exact alone ⟨other, apart, nonzero⟩

/-- Solid rows none of which is solved determine the symbols found, and no others. -/
theorem Solid.determines_iff {field : Config.Field} {size : ℕ} {valid : Submodule field.Elem (SymbolEquation field)}
    {target : Submodule field.Elem (SourceSymbolId → field.Elem)} {rows : Rows} {found : Set SourceSymbolId}
    (solid : Solid field size valid target rows found) (unsolved : Rows.Unsolved field rows) (id : SourceSymbolId) :
    Pi.single id 1 ∈ rows.space field found ↔ id ∈ found := by
  refine single_mem_span_iff solid.system.reduced (fun pid key k member => ?_) fun pid key => ?_
  · obtain ⟨row, stored⟩ := Rows.mem_keySet.mp key
    rw [Rows.coefs_of stored]
    exact solid.free pid row k stored member
  · obtain ⟨row, stored⟩ := Rows.mem_keySet.mp key
    rw [Rows.coefs_of stored]
    exact solid.several unsolved stored

/-- Where the rows and the symbols found span the target, a row is solved if its own symbol is determined. -/
theorem Solid.solves_iff {field : Config.Field} {size : ℕ} {valid : Submodule field.Elem (SymbolEquation field)}
    {target : Submodule field.Elem (SourceSymbolId → field.Elem)} {rows : Rows} {found : Set SourceSymbolId}
    (solid : Solid field size valid target rows found) (sound : ∀ equation ∈ valid, equation.1 ∈ target)
    (known : ∀ k ∈ found, Pi.single k 1 ∈ target) {pid : SourceSymbolId} {row : MatrixRow} (stored : rows[pid]? = some row) :
    Pi.single pid 1 ∈ target ↔ row.Solves field pid := by
  have monic := solid.system.monic stored
  have same : rows.space field found = target := by
    refine le_antisymm (rowSpace_le (fun q key => ?_) known) solid.system.covers
    obtain ⟨other, present⟩ := Rows.mem_keySet.mp key
    rw [Rows.coefs_of present]
    exact sound _ (solid.system.sound q other present)
  have free (q : SourceSymbolId) (key : q ∈ rows.keySet) (k : SourceSymbolId) (member : k ∈ found) : rows.coefs field q k = 0 := by
    obtain ⟨other, present⟩ := Rows.mem_keySet.mp key
    rw [Rows.coefs_of present, solid.free q other k present member]
  have fresh : pid ∉ found := fun member => one_ne_zero (monic.symm.trans (solid.free pid row pid stored member))
  rw [← same, single_mem_rowSpace_iff solid.system.reduced free, Rows.coefs_of stored, Solves, monic, or_iff_right fresh]
  exact and_congr_left fun _ => ⟨fun _ => one_ne_zero, fun _ => Rows.mem_keySet.mpr ⟨row, stored⟩⟩

theorem Solid.fewer {field : Config.Field} {size : ℕ} {valid : Submodule field.Elem (SymbolEquation field)}
    {target : Submodule field.Elem (SourceSymbolId → field.Elem)} {rows left : Rows} {found : Set SourceSymbolId}
    (solid : Solid field size valid target rows found)
    (subset : ∀ (pid : SourceSymbolId) row, left[pid]? = some row → rows[pid]? = some row) :
    Solid field size valid ⊥ left found := by
  refine ⟨fun pid row stored => solid.shaped pid row (subset pid row stored),
    ⟨solid.system.reduced.restrict (fun pid key => ?_) (fun pid key => ?_) fun pid => Rows.coefs_absent,
      fun pid row stored => solid.system.sound pid row (subset pid row stored), bot_le⟩,
    fun pid row k stored => solid.free pid row k (subset pid row stored)⟩
  · obtain ⟨row, stored⟩ := Rows.mem_keySet.mp key
    exact Rows.mem_keySet.mpr ⟨row, subset pid row stored⟩
  · obtain ⟨row, stored⟩ := Rows.mem_keySet.mp key
    rw [Rows.coefs_of stored, Rows.coefs_of (subset pid row stored)]

theorem Solid.extract {field : Config.Field} {size : ℕ} {valid : Submodule field.Elem (SymbolEquation field)}
    {target : Submodule field.Elem (SourceSymbolId → field.Elem)} {rows left : Rows} {found : Set SourceSymbolId}
    {recovered : List (SourceSymbolId × Bytes)} (solid : Solid field size valid target rows found)
    (extracted : Extracted field rows left recovered) :
    Solid field size valid target left {k | k ∈ found ∨ k ∈ recovered.map (·.1)} ∧ Rows.Unsolved field left ∧
      ∀ symbol ∈ recovered, symbol.2.length = size ∧ symbolEquation field symbol.1 symbol.2 ∈ valid := by
  obtain ⟨system, good⟩ := solid.system.extract extracted
  refine ⟨⟨extracted.shaped solid.shaped, system, fun pid row k stored known => ?_⟩, solid.system.unsolved extracted,
    fun symbol member => ⟨extracted.sized solid.shaped symbol member, good symbol member⟩⟩
  rcases known with known | taken
  · exact solid.free pid row k (extracted.of_left stored).1 known
  · exact solid.system.left_free extracted stored taken

namespace Extraction

private theorem take_eq {state : Extraction} {pid : SourceSymbolId} {row : MatrixRow}
    (stored : state.matrix.rows[pid]? = some row) (scanned : row.coefs.isSolved = .ok (some pid))
    (absent : ∀ (q : SourceSymbolId) left, q ≠ pid → state.matrix.rows[q]? = some left → left.coefs.get pid = 0) :
    state.take pid = .ok {
      matrix := { state.matrix with rows := state.matrix.rows.erase pid }
      extraKnown := state.extraKnown.insert pid row.payload
      recovered := state.recovered ++ [(pid, row.payload)] } := by
  have same := addKnownSource_absent { state.matrix with rows := state.matrix.rows.erase pid } pid
    (by
      intro q left remains
      dsimp only at remains
      rw [OrderedKeys.getElem?_erase] at remains
      split at remains
      · cases remains
      next apart => exact absent q left apart remains)
    row.payload (state.extraKnown.insert pid row.payload)
  unfold take
  rw [stored]
  dsimp only
  rw [scanned, Outcome.ok_bind]
  dsimp only
  rw [same, Outcome.ok_bind, List.append_nil]
  rfl

private structure Taken (start : Extraction) (visited : List SourceSymbolId) (taken : List (SourceSymbolId × Bytes))
    (current : Extraction) : Prop where
  matrix : current.matrix = { start.matrix with rows := current.matrix.rows }
  recovered : current.recovered = start.recovered ++ taken
  remains : ∀ pid : SourceSymbolId, current.matrix.rows[pid]? = if pid ∈ visited then none else start.matrix.rows[pid]?
  stored : ∀ symbol ∈ taken, symbol.1 ∈ visited ∧ ∃ row, start.matrix.rows[symbol.1]? = some row ∧ symbol.2 = row.payload
  complete : ∀ pid ∈ visited, ∀ row, start.matrix.rows[pid]? = some row → (pid, row.payload) ∈ taken
  once : (taken.map (·.1)).Nodup

private theorem Taken.visit {start current : Extraction} {visited : List SourceSymbolId}
    {taken : List (SourceSymbolId × Bytes)} (done : Taken start visited taken current) {pid : SourceSymbolId} {row : MatrixRow}
    (fresh : pid ∉ visited) (stored : start.matrix.rows[pid]? = some row) (known : KnownSources) :
    Taken start (visited ++ [pid]) (taken ++ [(pid, row.payload)]) {
      matrix := { current.matrix with rows := current.matrix.rows.erase pid }
      extraKnown := known
      recovered := current.recovered ++ [(pid, row.payload)] } := by
  refine ⟨by rw [done.matrix], by rw [done.recovered, List.append_assoc], fun q => ?_, fun symbol member => ?_,
    fun q member other found => ?_, ?_⟩
  · dsimp only
    rw [OrderedKeys.getElem?_erase, done.remains q]
    simp only [List.mem_append, List.mem_singleton]
    by_cases here : q = pid
    · rw [if_pos here, if_pos (.inr here)]
    · rw [if_neg here, if_congr (or_iff_left here).symm rfl rfl]
  · rcases List.mem_append.mp member with member | member
    · exact ⟨List.mem_append_left _ (done.stored symbol member).1, (done.stored symbol member).2⟩
    · cases List.mem_singleton.mp member
      exact ⟨List.mem_append_right _ List.mem_cons_self, row, stored, rfl⟩
  · rcases List.mem_append.mp member with member | member
    · exact List.mem_append_left _ (done.complete q member other found)
    · cases List.mem_singleton.mp member
      cases stored.symm.trans found
      exact List.mem_append_right _ List.mem_cons_self
  · rw [List.map_append, List.map_singleton, List.nodup_append]
    refine ⟨done.once, List.nodup_singleton _, fun other listed last here same => fresh ?_⟩
    cases List.mem_singleton.mp here
    obtain ⟨symbol, member, found⟩ := List.mem_map.mp listed
    exact (found.trans same : symbol.1 = pid) ▸ (done.stored symbol member).1

private theorem run_unsolved {state : Extraction} {size : ℕ} (shaped : Rows.Shaped state.matrix.field size state.matrix.rows)
    (unsolved : Rows.Unsolved state.matrix.field state.matrix.rows) (fuel : ℕ) : state.run (fuel + 1) = .ok state := by
  obtain ⟨solved, scanned, listed⟩ := solvedPivots_eq shaped
  have none : solved = [] := by
    rw [List.eq_nil_iff_forall_not_mem]
    intro pid member
    obtain ⟨row, id, stored, solves⟩ := (listed pid).mp member
    exact unsolved pid row id stored solves
  rw [run, scanned, Outcome.ok_bind, none]
  rfl

/-- The extraction loop takes the solved rows of a reduced matrix, and nothing else. -/
theorem run_eq {field : Config.Field} {size : ℕ} {state : Extraction} (same : state.matrix.field = field)
    (shaped : Rows.Shaped field size state.matrix.rows)
    (reduced : Reduced (Rows.keySet state.matrix.rows) (Rows.coefs field state.matrix.rows)) {fuel : ℕ}
    (enough : state.matrix.rows.size < fuel) :
    ∃ left recovered extraKnown, Extracted field state.matrix.rows left recovered ∧
      state.run fuel = .ok { matrix := { state.matrix with rows := left }, extraKnown, recovered := state.recovered ++ recovered } := by
  subst same
  have system := System.of_reduced reduced ∅
  obtain ⟨solved, scanned, listed⟩ := solvedPivots_eq shaped
  have own {pid : SourceSymbolId} (member : pid ∈ solved) :
      ∃ row, state.matrix.rows[pid]? = some row ∧ row.Solves state.matrix.field pid := by
    obtain ⟨row, id, stored, solves⟩ := (listed pid).mp member
    cases system.key_of_solves stored solves
    exact ⟨row, stored, solves⟩
  obtain ⟨passed, folded, taken, done⟩ := Outcome.foldlM_returns Extraction.take solved
    (fun visited current => ∃ taken, Taken state visited taken current)
    (by
      rintro visited pid rest current split ⟨taken, done⟩
      obtain ⟨row, stored, solves⟩ := own (split ▸ List.mem_append_right _ List.mem_cons_self)
      by_cases again : pid ∈ visited
      · have gone : current.matrix.rows[pid]? = none := by rw [done.remains pid, if_pos again]
        refine ⟨current, by simp only [Extraction.take, gone, Outcome.pure_def], taken, ?_⟩
        have visits (q : SourceSymbolId) : q ∈ visited ++ [pid] ↔ q ∈ visited := by
          rw [List.mem_append, List.mem_singleton, or_iff_left_of_imp fun same => same ▸ again]
        exact ⟨done.matrix, done.recovered, fun q => by rw [done.remains q, if_congr (visits q) rfl rfl],
          fun symbol member => ⟨(visits _).mpr (done.stored symbol member).1, (done.stored symbol member).2⟩,
          fun q member => done.complete q ((visits q).mp member), done.once⟩
      · have present : current.matrix.rows[pid]? = some row := by rw [done.remains pid, if_neg again, stored]
        obtain ⟨result, found, solvedAt⟩ := isSolved_eq (shaped pid row stored)
        cases (solvedAt pid).mpr solves
        refine ⟨_, take_eq present found fun q left apart remains => ?_, _, done.visit again stored _⟩
        rw [done.remains q] at remains
        split at remains
        · cases remains
        · refine (shaped q left remains).get_eq_zero.mpr ?_
          rw [← Rows.coefs_of remains]
          exact reduced.clear q (Rows.mem_keySet.mpr ⟨left, remains⟩) pid (Rows.mem_keySet.mpr ⟨row, stored⟩) apart)
    state ⟨[], rfl, (List.append_nil _).symm, by simp, by simp, by simp, .nil⟩
  have extracted : Extracted state.matrix.field state.matrix.rows passed.matrix.rows taken := by
    have takes (pid : SourceSymbolId) : pid ∈ taken.map (·.1) ↔ pid ∈ solved := by
      constructor
      · intro found
        obtain ⟨symbol, member, same⟩ := List.mem_map.mp found
        exact same ▸ (done.stored symbol member).1
      · intro member
        obtain ⟨row, stored, _⟩ := own member
        exact List.mem_map_of_mem (done.complete pid member row stored)
    refine ⟨fun pid => by rw [done.remains pid, if_congr (takes pid) rfl rfl], fun symbol member => ?_,
      fun id row stored solves => done.complete id ((listed id).mpr ⟨row, id, stored, solves⟩) row stored, done.once⟩
    obtain ⟨visited, row, stored, payload⟩ := done.stored symbol member
    obtain ⟨other, again, solves⟩ := own visited
    cases stored.symm.trans again
    exact ⟨row, stored, solves, payload⟩
  have ends : passed = {
      matrix := { state.matrix with rows := passed.matrix.rows }
      extraKnown := passed.extraKnown
      recovered := state.recovered ++ taken } := by
    obtain ⟨matrix, extraKnown, recovered⟩ := passed
    rw [Extraction.mk.injEq]
    exact ⟨done.matrix, rfl, done.recovered⟩
  refine ⟨passed.matrix.rows, taken, passed.extraKnown, extracted, ?_⟩
  cases fuel with
  | zero => omega
  | succ fuel =>
    rw [run, scanned, Outcome.ok_bind]
    split
    next empty =>
      cases List.isEmpty_iff.mp empty
      cases folded
      exact congrArg Outcome.ok ends
    next some =>
      obtain ⟨pid, member⟩ := List.exists_mem_of_ne_nil _ (mt List.isEmpty_iff.mpr some)
      obtain ⟨row, stored, _⟩ := own member
      obtain ⟨more, rfl⟩ := Nat.exists_eq_succ_of_ne_zero (show fuel ≠ 0 by
        have size := erase_size stored
        omega)
      have sameField : passed.matrix.field = state.matrix.field := by rw [done.matrix]
      rw [folded, Outcome.ok_bind, ← ends]
      exact run_unsolved (sameField ▸ extracted.shaped shaped) (sameField ▸ system.unsolved extracted) more

end Extraction

section Reducing
variable {field : Config.Field} {size : ℕ} {valid : Submodule field.Elem (SymbolEquation field)}
  {base : Submodule field.Elem (SourceSymbolId → field.Elem)} {row current cleared : MatrixRow}

/-- What a reduction keeps of a true equation: it stays true, and differs by what the system determines. -/
structure Reduces (field : Config.Field) (valid : Submodule field.Elem (SymbolEquation field))
    (base : Submodule field.Elem (SourceSymbolId → field.Elem)) (row current : MatrixRow) : Prop where
  sound : current.equation field ∈ valid
  same : current.coef field - row.coef field ∈ base

theorem Reduces.determines (reduces : Reduces field valid base row current)
    (space : Submodule field.Elem (SourceSymbolId → field.Elem)) (contains : base ≤ space)
    (member : current.coef field ∈ space) : row.coef field ∈ space := by
  have difference := space.sub_mem member (contains reduces.same)
  rwa [sub_sub_cancel] at difference

theorem Reduces.clears (reduces : Reduces field valid base row current) {column : SourceSymbolId}
    {pivot : SymbolEquation field} (clears : Clears field size column pivot current cleared) (inside : pivot ∈ valid)
    (determined : pivot.1 ∈ base) : Reduces field valid base row cleared where
  sound := by
    rw [clears.equation]
    exact valid.add_mem reduces.sound (valid.smul_mem _ inside)
  same := by
    rw [clears.coefs_eq, add_sub_right_comm]
    exact base.add_mem reduces.same (base.smul_mem _ determined)

/-- An equation from which the known symbols have been taken. -/
structure Substituted (field : Config.Field) (size : ℕ) (valid : Submodule field.Elem (SymbolEquation field)) (rows : Rows)
    (known : Set SourceSymbolId) (row substituted : MatrixRow) : Prop where
  shaped : substituted.Shaped field size
  reduces : Reduces field valid (rows.space field known) row substituted
  zeros : ∀ k ∈ known, substituted.coef field k = 0
  keys : ∀ pid ∈ rows, substituted.coef field pid = row.coef field pid
  bounded : substituted.coefs.Bounded ↔ row.coefs.Bounded
  start : substituted.coefs.baseId = row.coefs.baseId
  length : substituted.coefs.coefs.length = row.coefs.coefs.length

/-- An equation from which the known symbols and the rows have been taken. -/
structure Eliminated (field : Config.Field) (size : ℕ) (valid : Submodule field.Elem (SymbolEquation field)) (rows : Rows)
    (known : Set SourceSymbolId) (row final : MatrixRow) : Prop where
  shaped : final.Shaped field size
  reduces : Reduces field valid (rows.space field known) row final
  zeros : ∀ k ∈ known, final.coef field k = 0
  keyZeros : ∀ pid ∈ rows, final.coef field pid = 0
  bounded : final.coefs.Bounded ↔ row.coefs.Bounded
  admits : ∀ (pid : SourceSymbolId) existing, rows[pid]? = some existing → row.coef field pid ≠ 0 →
    row.coefs.Admits existing.coefs
  start : row.coefs.coefs ≠ [] → (final.coefs.baseId = 0 ↔ row.coefs.baseId = 0 ∨
    ∃ (pid : SourceSymbolId) (existing : MatrixRow), rows[pid]? = some existing ∧ row.coef field pid ≠ 0 ∧
      existing.coefs.baseId = 0)

end Reducing

section Joining
variable {size : ℕ} {matrix : DecodingMatrix} {valid : Submodule matrix.field.Elem (SymbolEquation matrix.field)}
  {target : Submodule matrix.field.Elem (SourceSymbolId → matrix.field.Elem)} {known : KnownSources} {row : MatrixRow}

theorem mem_of_toList {known : KnownSources} {symbol : SourceSymbolId × Bytes} (listed : symbol ∈ known.toList) :
    symbol.1 ∈ known := by
  rw [Std.TreeMap.mem_iff_isSome_getElem?, Std.TreeMap.mem_toList_iff_getElem?_eq_some.mp listed]
  rfl

theorem substituted_of (solid : Solid matrix.field size valid target matrix.rows {k | k ∈ known})
    (knownSized : ∀ symbol ∈ known.toList, symbol.2.length = size)
    (knownTrue : ∀ symbol ∈ known.toList, symbolEquation matrix.field symbol.1 symbol.2 ∈ valid)
    (rowShaped : row.Shaped matrix.field size) (inside : row.equation matrix.field ∈ valid) :
    ∃ substituted, known.toList.foldlM (substituteKnown matrix.field) row = .ok substituted ∧
      Substituted matrix.field size valid matrix.rows {k | k ∈ known} row substituted := by
  obtain ⟨substituted, returned, shaped, reduces, cleared, keys, bounded, start, length⟩ := substituteKnown_rule knownSized
    (fun visited current =>
      Reduces matrix.field valid (Rows.space matrix.field matrix.rows {k | k ∈ known}) row current ∧
      (∀ symbol ∈ visited, current.coef matrix.field symbol.1 = 0) ∧
      (∀ pid ∈ matrix.rows, current.coef matrix.field pid = row.coef matrix.field pid) ∧
      (current.coefs.Bounded ↔ row.coefs.Bounded) ∧ current.coefs.baseId = row.coefs.baseId ∧
      current.coefs.coefs.length = row.coefs.coefs.length)
    (by
      rintro visited symbol rest current next split ⟨reduces, zeros, keys, bounded, start, length⟩ clears ⟨base, dims⟩
      have member : symbol ∈ known.toList := split ▸ List.mem_append_right _ List.mem_cons_self
      refine ⟨reduces.clears clears (knownTrue symbol member) (single_mem (mem_of_toList member)), fun other seen => ?_,
        fun pid key => ?_, clears.bounded.trans bounded, base.trans start, dims.trans length⟩
      · by_cases here : other.1 = symbol.1
        · rw [here]
          exact clears.coef_column (Pi.single_eq_same _ _)
        · rw [clears.coef_other (Pi.single_eq_of_ne here _)]
          rcases List.mem_append.mp seen with seen | seen
          · exact zeros other seen
          · exact absurd (congrArg Prod.fst (List.mem_singleton.mp seen)) here
      · obtain ⟨existing, stored⟩ := Rows.mem_keySet.mp key
        have apart : pid ≠ symbol.1 := by
          rintro rfl
          exact one_ne_zero ((solid.system.monic stored).symm.trans (solid.free _ existing _ stored (mem_of_toList member)))
        rw [clears.coef_other (Pi.single_eq_of_ne apart _), keys pid key])
    rowShaped ⟨⟨inside, by rw [sub_self]; exact Submodule.zero_mem _⟩, by simp, fun _ _ => rfl, Iff.rfl, rfl, rfl⟩
  exact ⟨substituted, returned, shaped, reduces, fun k member => by
    obtain ⟨data, stored⟩ := Option.isSome_iff_exists.mp (Std.TreeMap.mem_iff_isSome_getElem?.mp member)
    exact cleared (k, data) (Std.TreeMap.mem_toList_iff_getElem?_eq_some.mpr stored), keys, bounded, start, length⟩

private theorem Solid.other_key (solid : Solid matrix.field size valid target matrix.rows {k | k ∈ known})
    {current next existing : MatrixRow} {pid other : SourceSymbolId} (stored : matrix.rows[pid]? = some existing)
    (clears : Clears matrix.field size pid (existing.equation matrix.field) current next) (key : other ∈ matrix.rows)
    (apart : other ≠ pid) : next.coef matrix.field other = current.coef matrix.field other := by
  refine clears.coef_other ?_
  rw [show (existing.equation matrix.field).1 = _ from (Rows.coefs_of stored).symm]
  exact solid.system.reduced.clear pid (Rows.mem_keySet.mpr ⟨existing, stored⟩) other key apart.symm

private theorem key_fresh {visited rest : List SourceSymbolId} {pid : SourceSymbolId}
    (split : visited ++ pid :: rest = matrix.rows.keys) : pid ∉ visited := by
  have distinct := Std.TreeMap.nodup_keys (t := matrix.rows)
  rw [← split] at distinct
  exact fun again => (List.nodup_append.mp distinct).2.2 pid again pid List.mem_cons_self rfl

/-- Forward elimination returns if each row can be subtracted under whose key the equation has a coefficient. -/
theorem Substituted.eliminates {substituted : MatrixRow}
    (solid : Solid matrix.field size valid target matrix.rows {k | k ∈ known})
    (ready : Substituted matrix.field size valid matrix.rows {k | k ∈ known} row substituted)
    (admits : ∀ (pid : SourceSymbolId) existing, matrix.rows[pid]? = some existing → row.coef matrix.field pid ≠ 0 →
      row.coefs.Admits existing.coefs) : ∃ final, matrix.forwardEliminate substituted = .ok final := by
  obtain ⟨final, returned, _⟩ := forwardEliminate_rule solid.shaped
    (fun visited current => (∀ pid ∈ matrix.rows, pid ∉ visited → current.coef matrix.field pid = row.coef matrix.field pid) ∧
      (current.coefs.Bounded ↔ row.coefs.Bounded))
    (by
      intro visited pid rest current existing split stored kept touched
      rw [kept.1 pid (Rows.mem_keySet.mpr ⟨existing, stored⟩) (key_fresh split)] at touched
      exact (DenseCoefs.Admits.congr kept.2).mpr (admits pid existing stored touched))
    (by
      rintro visited pid rest current existing next split stored ⟨keys, bounded⟩ clears
      refine ⟨fun other key ahead => ?_, clears.bounded.trans bounded⟩
      rw [List.mem_append, List.mem_singleton, not_or] at ahead
      rw [solid.other_key stored clears key ahead.2, keys other key ahead.1])
    ready.shaped ⟨fun pid key _ => ready.keys pid key, ready.bounded⟩
  exact ⟨final, returned⟩

theorem Substituted.eliminated {substituted final : MatrixRow}
    (solid : Solid matrix.field size valid target matrix.rows {k | k ∈ known})
    (ready : Substituted matrix.field size valid matrix.rows {k | k ∈ known} row substituted)
    (returned : matrix.forwardEliminate substituted = .ok final) :
    Eliminated matrix.field size valid matrix.rows {k | k ∈ known} row final := by
  obtain ⟨shaped, reduces, zeros, keyZeros, _, bounded, admits, start⟩ := forwardEliminate_keeps solid.shaped
    (fun pid existing stored => solid.system.monic stored)
    (fun visited current =>
      Reduces matrix.field valid (Rows.space matrix.field matrix.rows {k | k ∈ known}) row current ∧
      (∀ k ∈ known, current.coef matrix.field k = 0) ∧
      (∀ pid ∈ visited, current.coef matrix.field pid = 0) ∧
      (∀ pid ∈ matrix.rows, pid ∉ visited → current.coef matrix.field pid = row.coef matrix.field pid) ∧
      (current.coefs.Bounded ↔ row.coefs.Bounded) ∧
      (∀ pid ∈ visited, ∀ existing, matrix.rows[pid]? = some existing → row.coef matrix.field pid ≠ 0 →
        row.coefs.Admits existing.coefs) ∧
      (row.coefs.coefs ≠ [] → current.coefs.coefs ≠ [] ∧ (current.coefs.baseId = 0 ↔ row.coefs.baseId = 0 ∨
        ∃ pid ∈ visited, ∃ existing, matrix.rows[pid]? = some existing ∧ row.coef matrix.field pid ≠ 0 ∧
          existing.coefs.baseId = 0)))
    (by
      rintro visited pid rest current existing next split stored currentShaped
        ⟨reduces, zeros, keyZeros, keys, bounded, admits, start⟩ clears stepped
      have key := Rows.mem_keySet.mpr ⟨existing, stored⟩
      have untouched := keys pid key (key_fresh split)
      have monic : existing.coef matrix.field pid ≠ 0 := by
        rw [solid.system.monic stored]
        exact one_ne_zero
      obtain ⟨room, grown⟩ := admits_of_eliminateWith solid.shaped stored monic currentShaped stepped
      rw [untouched] at room grown
      have visitedKey (other : SourceSymbolId) (before : other ∈ visited) : other ∈ matrix.rows :=
        Std.TreeMap.mem_keys.mp (split ▸ List.mem_append_left _ before)
      refine ⟨reduces.clears clears (solid.system.sound pid existing stored) ?_, fun k member => ?_, fun other seen => ?_,
        fun other otherKey ahead => ?_, clears.bounded.trans bounded, fun other seen found present touched => ?_, fun filled => ?_⟩
      · rw [show (existing.equation matrix.field).1 = _ from (Rows.coefs_of stored).symm]
        exact row_mem key
      · rw [clears.coef_other (solid.free pid existing k stored member), zeros k member]
      · by_cases here : other = pid
        · rw [here]
          exact clears.coef_column (solid.system.monic stored)
        · have before : other ∈ visited :=
            (List.mem_append.mp seen).resolve_right fun last => here (List.mem_singleton.mp last)
          rw [solid.other_key stored clears (visitedKey other before) here, keyZeros other before]
      · rw [List.mem_append, List.mem_singleton, not_or] at ahead
        rw [solid.other_key stored clears otherKey ahead.2, keys other otherKey ahead.1]
      · rcases List.mem_append.mp seen with before | here
        · exact admits other before found present touched
        · cases List.mem_singleton.mp here
          cases stored.symm.trans present
          exact (DenseCoefs.Admits.congr bounded).mp (room touched)
      · obtain ⟨some, old⟩ := start filled
        obtain ⟨nextFilled, new⟩ := grown some
        refine ⟨nextFilled, new.trans ?_⟩
        rw [old, or_assoc]
        refine or_congr_right ⟨?_, ?_⟩
        · rintro (⟨other, before, found, present, touched, zero⟩ | ⟨touched, zero⟩)
          · exact ⟨other, List.mem_append_left _ before, found, present, touched, zero⟩
          · exact ⟨pid, List.mem_append_right _ (List.mem_singleton.mpr rfl), existing, stored, touched, zero⟩
        · rintro ⟨other, seen, found, present, touched, zero⟩
          rcases List.mem_append.mp seen with before | here
          · exact .inl ⟨other, before, found, present, touched, zero⟩
          · cases List.mem_singleton.mp here
            cases stored.symm.trans present
            exact .inr ⟨touched, zero⟩)
    ready.shaped ⟨ready.reduces, ready.zeros, by simp, fun pid key _ => ready.keys pid key, ready.bounded, by simp, fun filled =>
      ⟨fun empty => filled (List.eq_nil_of_length_eq_zero (ready.length.symm.trans (congrArg List.length empty))),
        by simp [ready.start]⟩⟩ returned
  have all {pid : SourceSymbolId} {existing : MatrixRow} (stored : matrix.rows[pid]? = some existing) : pid ∈ matrix.rows.keys :=
    Std.TreeMap.mem_keys.mpr (Rows.mem_keySet.mpr ⟨existing, stored⟩)
  refine ⟨shaped, reduces, zeros, fun pid key => keyZeros pid (Std.TreeMap.mem_keys.mpr key), bounded,
    fun pid existing stored => admits pid (all stored) existing stored, fun filled => (start filled).2.trans (or_congr_right ?_)⟩
  refine exists_congr fun pid => ⟨fun ⟨_, rest⟩ => rest, fun ⟨existing, stored, rest⟩ => ⟨all stored, existing, stored, rest⟩⟩

/-- A reduced, normalised equation joins a solid system once its column is cleared there. -/
theorem Solid.join {field : Config.Field} {valid : Submodule field.Elem (SymbolEquation field)}
    {target target' : Submodule field.Elem (SourceSymbolId → field.Elem)} {found : Set SourceSymbolId}
    {rows cleared : Rows} (solid : Solid field size valid target rows found) {pivot : SourceSymbolId}
    {normal : MatrixRow} (normalShaped : normal.Shaped field size) (monic : normal.coef field pivot = 1)
    (keyZeros : ∀ pid ∈ rows, normal.coef field pid = 0) (zeros : ∀ k ∈ found, normal.coef field k = 0)
    (inside : normal.equation field ∈ valid)
    (rewrites : Rewrites (Clears field size pivot (normal.equation field)) rows cleared)
    (covers : ∀ space, rows.space field found ≤ space → normal.coef field ∈ space → target' ≤ space) :
    Solid field size valid target' (cleared.insert pivot normal) found := by
  have lookup := OrderedKeys.getElem?_insert cleared pivot normal
  have own : (cleared.insert pivot normal)[pivot]? = some normal := by rw [lookup, if_pos rfl]
  have old {q : SourceSymbolId} {row : MatrixRow} (stored : (cleared.insert pivot normal)[q]? = some row) :
      q = pivot ∧ row = normal ∨ cleared[q]? = some row := by
    rw [lookup] at stored
    split at stored
    next same => exact .inl ⟨same, (Option.some.inj stored).symm⟩
    next => exact .inr stored
  obtain ⟨reduced, sound, restores⟩ := solid.system.rewrite rewrites keyZeros inside
  have keys : Rows.keySet (cleared.insert pivot normal) = Insert.insert pivot (Rows.keySet cleared) := by
    ext q
    change q ∈ cleared.insert pivot normal ↔ q = pivot ∨ q ∈ cleared
    rw [Std.TreeMap.mem_insert, Std.LawfulEqCmp.compare_eq_iff_eq, eq_comm]
  have elsewhere (q : SourceSymbolId) (apart : q ≠ pivot) :
      Rows.coefs field (cleared.insert pivot normal) q = Rows.coefs field cleared q := by
    unfold Rows.coefs
    rw [lookup, if_neg apart]
  refine ⟨fun q row stored => ?_, ⟨?_, fun q row stored => ?_, ?_⟩, fun q row k stored known => ?_⟩
  · rcases old stored with ⟨_, rfl⟩ | stored
    · exact normalShaped
    · exact rewrites.shaped q row stored
  · rw [keys]
    refine reduced.insert ?_ (fun q key => ?_) (fun q key => ?_) elsewhere
    · rw [Rows.coefs_of own, monic]
    · rw [Rows.coefs_of own, keyZeros q (rewrites.mem_iff.mp key)]
    · obtain ⟨row, stored⟩ := Rows.mem_keySet.mp key
      obtain ⟨before, _, clears⟩ := rewrites.backward q row stored
      rw [Rows.coefs_of stored, clears.coef_column monic]
  · rcases old stored with ⟨_, rfl⟩ | stored
    · exact inside
    · exact sound q row stored
  · have member : normal.coef field ∈ Rows.space field (cleared.insert pivot normal) found :=
      Rows.coefs_of own ▸ row_mem (Rows.mem_keySet.mpr ⟨normal, own⟩)
    refine covers _ (restores _ (rowSpace_le (fun q key => ?_) fun k known => single_mem known) member) member
    obtain ⟨row, stored⟩ := Rows.mem_keySet.mp key
    have apart : q ≠ pivot := by
      rintro rfl
      exact one_ne_zero (monic.symm.trans (keyZeros q (rewrites.mem_iff.mp key)))
    have stays : (cleared.insert pivot normal)[q]? = some row := by rw [lookup, if_neg apart, stored]
    rw [Rows.coefs_of stored, ← Rows.coefs_of stays]
    exact row_mem (Rows.mem_keySet.mpr ⟨row, stays⟩)
  · rcases old stored with ⟨_, rfl⟩ | stored
    · exact zeros k known
    · obtain ⟨before, stored, clears⟩ := rewrites.backward q row stored
      rw [clears.coef_other (zeros k known), solid.free q before k stored known]

theorem Solid.substitute {field : Config.Field} {valid : Submodule field.Elem (SymbolEquation field)}
    {target target' : Submodule field.Elem (SourceSymbolId → field.Elem)} {found : Set SourceSymbolId} {rows cleared : Rows}
    (solid : Solid field size valid target rows found) {id : SourceSymbolId} {data : Bytes}
    (rewrites : Rewrites (Clears field size id (symbolEquation field id data)) rows cleared) (fresh : id ∉ rows)
    (inside : symbolEquation field id data ∈ valid) (grows : target' ≤ target ⊔ Submodule.span field.Elem {Pi.single id 1}) :
    Solid field size valid target' cleared {k | k ∈ found ∨ k = id} := by
  have system : System field valid target' rows {k | k ∈ found ∨ k = id} := by
    refine ⟨solid.system.reduced, solid.system.sound, grows.trans (sup_le (solid.system.covers.trans ?_) ?_)⟩
    · exact rowSpace_le (fun pid key => row_mem key) fun k member => single_mem (.inl member)
    · exact (Submodule.span_singleton_le_iff_mem _ _).mpr (single_mem (.inr rfl))
  refine ⟨rewrites.shaped, system.substitute rewrites fresh inside (.inr rfl), fun pid row k stored member => ?_⟩
  obtain ⟨before, old, clears⟩ := rewrites.backward pid row stored
  by_cases here : k = id
  · rw [here]
    exact clears.coef_column (Pi.single_eq_same _ _)
  · rw [clears.coef_other (Pi.single_eq_of_ne here _)]
    exact solid.free pid before k old (member.resolve_right here)

/-- Adding a true symbol whose id is no key keeps a system solid, and leaves no row that determines a symbol. -/
theorem addKnownSource_solid {field : Config.Field} {matrix : DecodingMatrix} (same : matrix.field = field)
    {valid : Submodule field.Elem (SymbolEquation field)}
    {target target' : Submodule field.Elem (SourceSymbolId → field.Elem)} {found : Set SourceSymbolId}
    (solid : Solid field size valid target matrix.rows found) (bounded : Rows.Bounded matrix.rows)
    (unsolved : Rows.Unsolved field matrix.rows) {id : SourceSymbolId} {data : Bytes} (sized : data.length = size)
    (inside : symbolEquation field id data ∈ valid) (fresh : id ∉ matrix.rows)
    (grows : target' ≤ target ⊔ Submodule.span field.Elem {Pi.single id 1}) (known : KnownSources) :
    ∃ rows recovered, matrix.addKnownSource id data known = .ok ({ matrix with rows }, recovered) ∧
      Solid field size valid target' rows {k | (k ∈ found ∨ k = id) ∨ k ∈ recovered.map (·.1)} ∧
      Rows.Bounded rows ∧ Rows.Unsolved field rows ∧
      ∀ symbol ∈ recovered, symbol.2.length = size ∧ symbolEquation field symbol.1 symbol.2 ∈ valid := by
  subst same
  obtain ⟨cleared, left, recovered, rewrites, extracted, returned⟩ :=
    addKnownSource_eq matrix solid.shaped solid.system.reduced unsolved sized fresh known
  obtain ⟨ends, rest⟩ := (solid.substitute rewrites fresh inside grows).extract extracted
  exact ⟨left, recovered, returned, ends,
    fun pid row stored => rewrites.bounded bounded pid row (extracted.of_left stored).1, rest⟩

/-- The row that a call brings to the matrix, its pivot, and the matrix once that pivot is cleared from its rows. -/
structure Brings (matrix : DecodingMatrix) (ev : EncodingVector) (payload : Bytes) (known : KnownSources) (normal : MatrixRow)
    (pivot : SourceSymbolId) (cleared : DecodingMatrix) : Prop where
  reduced : (do
    let row ← matrix.reducedRow ev payload known
    let row ← matrix.forwardEliminate row
    row.normalize matrix.field) = .ok normal
  leads : normal.coefs.pivotId = .ok (some pivot)
  backed : matrix.backSubstitute pivot normal = .ok cleared

theorem of_insert_enforced {matrix : DecodingMatrix} {pivot pid : SourceSymbolId} {normal row : MatrixRow}
    (stored : (matrix.enforceMaxRows.rows.insert pivot normal)[pid]? = some row) :
    (matrix.rows.insert pivot normal)[pid]? = some row := by
  rw [OrderedKeys.getElem?_insert] at stored ⊢
  split at stored
  next here => rw [if_pos here, stored]
  next apart => rw [if_neg apart, enforceMaxRows_subset stored]

theorem admits_of_addCoded (solid : Solid matrix.field size valid target matrix.rows {k | k ∈ known})
    (knownSized : ∀ symbol ∈ known.toList, symbol.2.length = size)
    (knownTrue : ∀ symbol ∈ known.toList, symbolEquation matrix.field symbol.1 symbol.2 ∈ valid)
    {ev : EncodingVector} {map : Std.TreeMap SourceSymbolId UInt8} (read : coefMap ev = .ok map) {payload : Bytes}
    (shaped : (⟨.fromMap map, payload⟩ : MatrixRow).Shaped matrix.field size)
    (inside : (⟨.fromMap map, payload⟩ : MatrixRow).equation matrix.field ∈ valid)
    {result : DecodingMatrix × List (SourceSymbolId × Bytes)} (returned : matrix.addCoded ev payload known = .ok result)
    {pid : SourceSymbolId} {existing : MatrixRow} (stored : matrix.rows[pid]? = some existing)
    (touched : (⟨.fromMap map, payload⟩ : MatrixRow).coef matrix.field pid ≠ 0) :
    (DenseCoefs.fromMap map).Admits existing.coefs := by
  obtain ⟨substituted, folded, ready⟩ := substituted_of solid knownSized knownTrue shaped inside
  have started : matrix.reducedRow ev payload known = .ok substituted := by rw [reducedRow, read, Outcome.ok_bind, folded]
  rw [addCoded, started, Outcome.ok_bind] at returned
  split at returned
  next zero =>
    refine absurd ?_ touched
    rw [← ready.keys pid (Rows.mem_keySet.mpr ⟨existing, stored⟩)]
    exact ready.shaped.get_eq_zero.mp ((DenseCoefs.isZero_iff ready.shaped.coefs).mp zero pid)
  next =>
    obtain ⟨final, eliminated, _⟩ := Outcome.bind_eq_ok.mp returned
    exact (ready.eliminated solid eliminated).admits pid existing stored touched

theorem Brings.normalizes (solid : Solid matrix.field size valid target matrix.rows {k | k ∈ known})
    (knownSized : ∀ symbol ∈ known.toList, symbol.2.length = size)
    (knownTrue : ∀ symbol ∈ known.toList, symbolEquation matrix.field symbol.1 symbol.2 ∈ valid)
    {ev : EncodingVector} {map : Std.TreeMap SourceSymbolId UInt8} (read : coefMap ev = .ok map) {payload : Bytes}
    (shaped : (⟨.fromMap map, payload⟩ : MatrixRow).Shaped matrix.field size)
    (inside : (⟨.fromMap map, payload⟩ : MatrixRow).equation matrix.field ∈ valid) {normal : MatrixRow} {pivot : SourceSymbolId}
    {cleared : DecodingMatrix} (brings : Brings matrix ev payload known normal pivot cleared) :
    ∃ reduced, Eliminated matrix.field size valid matrix.rows {k | k ∈ known} ⟨.fromMap map, payload⟩ reduced ∧
      Normalizes matrix.field size reduced normal pivot := by
  obtain ⟨substituted, folded, ready⟩ := substituted_of solid knownSized knownTrue shaped inside
  have brought := brings.reduced
  rw [reducedRow, read, Outcome.ok_bind, folded, Outcome.ok_bind] at brought
  obtain ⟨reduced, eliminated, normalized⟩ := Outcome.bind_eq_ok.mp brought
  have ends := ready.eliminated solid eliminated
  obtain ⟨_, other, again, normalizes⟩ := normalize_eq ends.shaped (isZero_of_normalize normalized)
  cases normalized.symm.trans again
  cases normalizes.leads.symm.trans brings.leads
  exact ⟨reduced, ends, normalizes⟩

/-- What adding an equation to a solid system does: nothing, when the system determines the equation, and otherwise the
row it brings joins a system from which the solved rows are taken, once there is room. -/
theorem addCoded_cases {field : Config.Field} {matrix : DecodingMatrix} (same : matrix.field = field)
    {valid : Submodule field.Elem (SymbolEquation field)}
    {target target' : Submodule field.Elem (SourceSymbolId → field.Elem)} {known : KnownSources}
    (solid : Solid field size valid target matrix.rows {k | k ∈ known})
    (knownSized : ∀ symbol ∈ known.toList, symbol.2.length = size)
    (knownTrue : ∀ symbol ∈ known.toList, symbolEquation field symbol.1 symbol.2 ∈ valid)
    {ev : EncodingVector} {map : Std.TreeMap SourceSymbolId UInt8} (read : coefMap ev = .ok map) {payload : Bytes}
    (shaped : (⟨.fromMap map, payload⟩ : MatrixRow).Shaped field size)
    (inside : (⟨.fromMap map, payload⟩ : MatrixRow).equation field ∈ valid)
    (grows : target' ≤ target ⊔ Submodule.span field.Elem {(⟨.fromMap map, payload⟩ : MatrixRow).coef field})
    (subtracts : ∀ (pid : SourceSymbolId) existing, matrix.rows[pid]? = some existing →
      (⟨.fromMap map, payload⟩ : MatrixRow).coef field pid ≠ 0 → (DenseCoefs.fromMap map).Admits existing.coefs)
    (clears : ∀ reduced normal pivot,
      Eliminated field size valid matrix.rows {k | k ∈ known} ⟨.fromMap map, payload⟩ reduced →
      Normalizes field size reduced normal pivot → ∀ (pid : SourceSymbolId) row, matrix.rows[pid]? = some row →
      row.coef field pivot ≠ 0 → row.coefs.Admits normal.coefs) :
    matrix.addCoded ev payload known = .ok (matrix, []) ∧ target' ≤ Rows.space field matrix.rows {k | k ∈ known} ∨
      ∃ normal pivot cleared left recovered, Brings matrix ev payload known normal pivot { matrix with rows := cleared } ∧
        Rewrites (Clears field size pivot (normal.equation field)) matrix.rows cleared ∧ pivot ∉ matrix.rows ∧
        Solid field size valid target' (cleared.insert pivot normal) {k | k ∈ known} ∧
        Extracted field ({ matrix with rows := cleared }.enforceMaxRows.rows.insert pivot normal) left recovered ∧
        matrix.addCoded ev payload known = .ok ({ matrix with rows := left }, recovered) := by
  subst same
  obtain ⟨row, folded, ready⟩ := substituted_of solid knownSized knownTrue shaped inside
  obtain ⟨reduced, eliminated⟩ := ready.eliminates solid subtracts
  have ends := ready.eliminated solid eliminated
  have started : matrix.reducedRow ev payload known = .ok row := by rw [reducedRow, read, Outcome.ok_bind, folded]
  rw [addCoded_of_reduced started ready.shaped eliminated]
  have covers (space : Submodule matrix.field.Elem (SourceSymbolId → matrix.field.Elem))
      (contains : Rows.space matrix.field matrix.rows {k | k ∈ known} ≤ space) (member : reduced.coef matrix.field ∈ space) :
      target' ≤ space :=
    grows.trans (sup_le (solid.system.covers.trans contains)
      ((Submodule.span_singleton_le_iff_mem _ _).mpr (ends.reduces.determines space contains member)))
  split
  next zero =>
    refine .inl ⟨rfl, covers _ le_rfl ?_⟩
    have vanishes : reduced.coef matrix.field = 0 := funext fun id =>
      ends.shaped.get_eq_zero.mp ((DenseCoefs.isZero_iff ends.shaped.coefs).mp zero id)
    rw [vanishes]
    exact Submodule.zero_mem _
  next nonzero =>
    obtain ⟨normal, pivot, normalized, normalizes⟩ := normalize_eq ends.shaped (Bool.eq_false_iff.mpr nonzero)
    obtain ⟨scale, scaleNonzero, scaled⟩ := normalizes.multiple
    obtain ⟨cleared, backed, rewrites, inserted⟩ := insertReduced_eq solid.shaped normalizes.shaped normalizes.leads
      (clears reduced normal pivot ends normalizes) known
    have coefs : normal.coef matrix.field = scale • reduced.coef matrix.field := coefs_of_equation scaled
    have joined : Solid matrix.field size valid target' (cleared.insert pivot normal) {k | k ∈ known} := by
      refine solid.join normalizes.shaped normalizes.monic (fun pid key => ?_) (fun k member => ?_) ?_ rewrites
        (fun space contains member => covers space contains ?_)
      · rw [coefs, Pi.smul_apply, ends.keyZeros pid key, smul_zero]
      · rw [coefs, Pi.smul_apply, ends.zeros k member, smul_zero]
      · rw [scaled]
        exact valid.smul_mem _ ends.reduces.sound
      · rw [coefs] at member
        exact (space.smul_mem_iff scaleNonzero).mp member
    have fewer : Solid matrix.field size valid ⊥ ({ matrix with rows := cleared }.enforceMaxRows.rows.insert pivot normal)
        {k | k ∈ known} := joined.fewer fun pid row stored => of_insert_enforced stored
    let start : Extraction := {
      matrix := { matrix with rows := { matrix with rows := cleared }.enforceMaxRows.rows.insert pivot normal }
      extraKnown := known
      recovered := [] }
    obtain ⟨left, recovered, _, extracted, ran⟩ := Extraction.run_eq (show start.matrix.field = matrix.field from rfl)
      fewer.shaped fewer.system.reduced (Nat.lt_succ_self _)
    refine .inr ⟨normal, pivot, cleared, left, recovered, ⟨?_, normalizes.leads, backed⟩, rewrites,
      fun key => normalizes.nonzero (ends.keyZeros pivot key), joined, extracted, ?_⟩
    · simp only [started, eliminated, normalized, Outcome.ok_bind]
    · rw [normalized, Outcome.ok_bind, inserted _ rfl, ran, Outcome.ok_bind]
      rfl

theorem addCoded_solid {field : Config.Field} {matrix : DecodingMatrix} (same : matrix.field = field)
    {valid : Submodule field.Elem (SymbolEquation field)}
    {target target' : Submodule field.Elem (SourceSymbolId → field.Elem)} {known : KnownSources}
    (solid : Solid field size valid target matrix.rows {k | k ∈ known}) (bounded : Rows.Bounded matrix.rows)
    (unsolved : Rows.Unsolved field matrix.rows) (knownSized : ∀ symbol ∈ known.toList, symbol.2.length = size)
    (knownTrue : ∀ symbol ∈ known.toList, symbolEquation field symbol.1 symbol.2 ∈ valid)
    {ev : EncodingVector} {map : Std.TreeMap SourceSymbolId UInt8} (read : coefMap ev = .ok map)
    (fits : CoefficientsFit field map) {payload : Bytes} (sized : payload.length = size)
    (inside : (⟨.fromMap map, payload⟩ : MatrixRow).equation field ∈ valid)
    (grows : target' ≤ target ⊔ Submodule.span field.Elem {(⟨.fromMap map, payload⟩ : MatrixRow).coef field})
    (room : matrix.rows.size < matrix.maxRows ∨ target' = ⊥) :
    ∃ rows recovered, matrix.addCoded ev payload known = .ok ({ matrix with rows }, recovered) ∧
      Solid field size valid target' rows {k | k ∈ known ∨ k ∈ recovered.map (·.1)} ∧
      Rows.Bounded rows ∧ Rows.Unsolved field rows ∧
      ∀ symbol ∈ recovered, symbol.2.length = size ∧ symbolEquation field symbol.1 symbol.2 ∈ valid := by
  obtain ⟨rows, solved, again, _, rowsBounded, _⟩ :=
    addCoded_shaped (same ▸ solid.shaped) bounded read (same ▸ fits) sized knownSized
  rcases addCoded_cases same solid knownSized knownTrue read ⟨DenseCoefs.fromMap_shaped fits.inField, sized⟩ inside grows
    (fun pid existing stored _ => .inl (bounded pid existing stored))
    (fun _ _ _ ends normalizes _ _ _ _ => .inl (normalizes.bounded.mpr (ends.bounded.mpr fits.bounded))) with
    ⟨returned, covers⟩ | ⟨normal, pivot, cleared, left, recovered, _, rewrites, _, joined, extracted, returned⟩
  · have nothing : {k | k ∈ known ∨ k ∈ ([] : List (SourceSymbolId × Bytes)).map (·.1)} = {k | k ∈ known} := by simp
    exact ⟨matrix.rows, [], returned, nothing ▸ ⟨solid.shaped, ⟨solid.system.reduced, solid.system.sound, covers⟩, solid.free⟩,
      bounded, unsolved, by simp⟩
  · have ends := again.symm.trans returned
    simp only [Outcome.ok.injEq, Prod.mk.injEq, DecodingMatrix.mk.injEq, and_true] at ends
    have enforced : Solid field size valid target' ({ matrix with rows := cleared }.enforceMaxRows.rows.insert pivot normal)
        {k | k ∈ known} := by
      rcases room with room | nothing
      · rw [enforceMaxRows_of_room (show cleared.size < _ from rewrites.size ▸ room)]
        exact joined
      · rw [nothing]
        exact joined.fewer fun pid row stored => of_insert_enforced stored
    obtain ⟨remains, rest⟩ := enforced.extract extracted
    exact ⟨left, recovered, returned, remains, ends.1 ▸ rowsBounded, rest⟩

end Joining
end Delp.DecodingMatrix
