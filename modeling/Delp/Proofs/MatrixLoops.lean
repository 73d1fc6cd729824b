import Delp.Proofs.MatrixRows

/-! The loops of the decoding matrix, one turn at a time: what a pass over the rows
rewrites, and what one turn of the work queue takes out of the matrix. -/

namespace Delp.DecodingMatrix
open Machine Gf Elimination MatrixRow

abbrev Rows := Std.TreeMap SourceSymbolId MatrixRow

def Rows.Shaped (field : Config.Field) (size : ℕ) (rows : Rows) : Prop :=
  ∀ (pid : SourceSymbolId) row, rows[pid]? = some row → row.Shaped field size

def Rows.Bounded (rows : Rows) : Prop := ∀ (pid : SourceSymbolId) row, rows[pid]? = some row → row.coefs.Bounded

structure Rewrites (related : MatrixRow → MatrixRow → Prop) (rows rewritten : Rows) : Prop where
  forward : ∀ (pid : SourceSymbolId) row, rows[pid]? = some row →
    ∃ row', rewritten[pid]? = some row' ∧ related row row'
  backward : ∀ (pid : SourceSymbolId) row', rewritten[pid]? = some row' →
    ∃ row, rows[pid]? = some row ∧ related row row'
  size : rewritten.size = rows.size

theorem Rewrites.mem_iff {related : MatrixRow → MatrixRow → Prop} {rows rewritten : Rows}
    (rewrites : Rewrites related rows rewritten) {pid : SourceSymbolId} : pid ∈ rewritten ↔ pid ∈ rows := by
  simp only [Std.TreeMap.mem_iff_isSome_getElem?, Option.isSome_iff_exists]
  constructor
  · rintro ⟨row', found⟩
    obtain ⟨row, old, _⟩ := rewrites.backward pid row' found
    exact ⟨row, old⟩
  · rintro ⟨row, found⟩
    obtain ⟨row', new, _⟩ := rewrites.forward pid row found
    exact ⟨row', new⟩

section Passes
variable {field : Config.Field} {size : ℕ}

/-- What a pass has done after the keys it has visited. -/
private structure Visited (related : MatrixRow → MatrixRow → Prop) (rows : Rows) (visited : List SourceSymbolId)
    (current : Rows) : Prop where
  done : ∀ pid ∈ visited, ∀ row, rows[pid]? = some row → ∃ row', current[pid]? = some row' ∧ related row row'
  ahead : ∀ pid ∉ visited, current[pid]? = rows[pid]?
  size : current.size = rows.size

private theorem Visited.start (related : MatrixRow → MatrixRow → Prop) (rows : Rows) : Visited related rows [] rows :=
  ⟨fun _ member => (List.not_mem_nil member).elim, fun _ _ => rfl, rfl⟩

private theorem Visited.finish {related : MatrixRow → MatrixRow → Prop} {rows final : Rows}
    (visited : Visited related rows rows.keys final) : Rewrites related rows final where
  forward pid row found := visited.done pid (OrderedKeys.mem_keys_iff.mpr (by simp [found])) row found
  backward pid row' found := by
    by_cases member : pid ∈ rows.keys
    · obtain ⟨row, old⟩ := Option.isSome_iff_exists.mp (OrderedKeys.mem_keys_iff.mp member)
      obtain ⟨again, new, relation⟩ := visited.done pid member row old
      rw [found, Option.some.injEq] at new
      exact ⟨row, old, new ▸ relation⟩
    · rw [visited.ahead pid member] at found
      exact absurd (OrderedKeys.mem_keys_iff.mpr (by simp [found])) member
  size := visited.size

private theorem fresh_key {rows : Rows} {visited rest : List SourceSymbolId} {pid : SourceSymbolId}
    (split : visited ++ pid :: rest = rows.keys) : pid ∉ visited ∧ ∃ row, rows[pid]? = some row := by
  have distinct := Std.TreeMap.nodup_keys (t := rows)
  rw [← split] at distinct
  have member : pid ∈ rows.keys := split ▸ List.mem_append_right _ List.mem_cons_self
  exact ⟨fun again => (List.nodup_append.mp distinct).2.2 pid again pid List.mem_cons_self rfl,
    Option.isSome_iff_exists.mp (OrderedKeys.mem_keys_iff.mp member)⟩

private theorem Visited.keep {related : MatrixRow → MatrixRow → Prop} {rows current : Rows}
    {visited : List SourceSymbolId} {pid : SourceSymbolId} {row : MatrixRow}
    (done : Visited related rows visited current) (fresh : pid ∉ visited) (found : rows[pid]? = some row)
    (relation : related row row) : Visited related rows (visited ++ [pid]) current where
  done other member old lookup := by
    rcases List.mem_append.mp member with member | member
    · exact done.done other member old lookup
    · cases List.mem_singleton.mp member
      rw [found, Option.some.injEq] at lookup
      exact ⟨row, by rw [done.ahead pid fresh, found], lookup ▸ relation⟩
  ahead other absent := done.ahead other fun member => absent (List.mem_append_left _ member)
  size := done.size

private theorem Visited.replace {related : MatrixRow → MatrixRow → Prop} {rows current : Rows}
    {visited : List SourceSymbolId} {pid : SourceSymbolId} {row row' : MatrixRow}
    (done : Visited related rows visited current) (fresh : pid ∉ visited) (found : rows[pid]? = some row)
    (relation : related row row') : Visited related rows (visited ++ [pid]) (current.insert pid row') where
  done other member old lookup := by
    rcases List.mem_append.mp member with member | member
    · obtain ⟨new, present, relation⟩ := done.done other member old lookup
      refine ⟨new, ?_, relation⟩
      rw [OrderedKeys.getElem?_insert, if_neg, present]
      exact fun same => fresh (same ▸ member)
    · cases List.mem_singleton.mp member
      rw [found, Option.some.injEq] at lookup
      exact ⟨row', Std.TreeMap.getElem?_insert_self, lookup ▸ relation⟩
  ahead other absent := by
    rw [OrderedKeys.getElem?_insert, if_neg, done.ahead other fun member => absent (List.mem_append_left _ member)]
    exact fun same => absent (List.mem_append_right _ (List.mem_singleton.mpr same))
  size := by
    have present : pid ∈ current := by
      rw [Std.TreeMap.mem_iff_isSome_getElem?, done.ahead pid fresh, found]
      rfl
    rw [Std.TreeMap.size_insert, if_pos (Std.TreeMap.contains_iff_mem.mpr present), done.size]

/-- Back-substitution clears the new pivot's column in every row, if the new row can be subtracted where that is needed. -/
theorem backSubstitute_eq {matrix : DecodingMatrix} {newRow : MatrixRow} (shaped : Rows.Shaped matrix.field size matrix.rows)
    (newShaped : newRow.Shaped matrix.field size) {newPivot : SourceSymbolId}
    (admits : ∀ (pid : SourceSymbolId) row, matrix.rows[pid]? = some row → row.coef matrix.field newPivot ≠ 0 →
      row.coefs.Admits newRow.coefs) :
    ∃ rows, matrix.backSubstitute newPivot newRow = .ok { matrix with rows } ∧
      Rewrites (Clears matrix.field size newPivot (newRow.equation matrix.field)) matrix.rows rows := by
  obtain ⟨final, returned, same, visited⟩ := Outcome.foldlM_returns (reduceRow newPivot newRow) matrix.rows.keys
    (fun visited current => current = { matrix with rows := current.rows } ∧
      Visited (Clears matrix.field size newPivot (newRow.equation matrix.field)) matrix.rows visited current.rows)
    (by
      rintro visited pid rest current split ⟨same, done⟩
      obtain ⟨fresh, row, found⟩ := fresh_key split
      have rowShaped := shaped pid row found
      have lookup : current.rows[pid]? = some row := by rw [done.ahead pid fresh, found]
      have fieldSame : current.field = matrix.field := by rw [same]
      unfold reduceRow
      rw [lookup, Outcome.get_some, Outcome.ok_bind]
      dsimp only
      split
      next zero =>
        exact ⟨current, rfl, same, done.keep fresh found
          (clears_of_zero rowShaped _ (rowShaped.get_eq_zero.mp zero))⟩
      next nonzero =>
        have touched : row.coef matrix.field newPivot ≠ 0 := by rwa [ne_eq, ← rowShaped.get_eq_zero]
        obtain ⟨cleared, subtracted, clears⟩ := subtractScaled_clears rowShaped newShaped touched (admits pid row found touched)
        rw [fieldSame, subtracted, Outcome.ok_bind]
        exact ⟨_, rfl, by rw [same], done.replace fresh found clears⟩)
    matrix ⟨rfl, .start _ _⟩
  exact ⟨final.rows, by rw [backSubstitute, returned, ← same], visited.finish⟩

theorem admits_of_backSubstitute {matrix final : DecodingMatrix} {newRow : MatrixRow}
    (shaped : Rows.Shaped matrix.field size matrix.rows) (newShaped : newRow.Shaped matrix.field size) {newPivot : SourceSymbolId}
    (monic : newRow.coef matrix.field newPivot ≠ 0) (returned : matrix.backSubstitute newPivot newRow = .ok final)
    {pid : SourceSymbolId} {row : MatrixRow} (stored : matrix.rows[pid]? = some row)
    (touched : row.coef matrix.field newPivot ≠ 0) : row.coefs.Admits newRow.coefs := by
  have passed := Outcome.foldlM_preserves matrix.rows.keys
    (fun visited current => current.field = matrix.field ∧ (∀ pid ∉ visited, current.rows[pid]? = matrix.rows[pid]?) ∧
      ∀ pid ∈ visited, ∀ row, matrix.rows[pid]? = some row → row.coef matrix.field newPivot ≠ 0 → row.coefs.Admits newRow.coefs)
    (by
      rintro visited pid rest current next split ⟨sameField, ahead, done⟩ stepped
      obtain ⟨fresh, row, found⟩ := fresh_key split
      have rowShaped := shaped pid row found
      rw [reduceRow, ahead pid fresh, found, Outcome.get_some, Outcome.ok_bind] at stepped
      dsimp only at stepped
      split at stepped
      next zero =>
        cases stepped
        refine ⟨sameField, fun other absent => ahead other fun member => absent (List.mem_append_left _ member),
          fun other member left lookup touched => ?_⟩
        rcases List.mem_append.mp member with member | member
        · exact done other member left lookup touched
        · cases List.mem_singleton.mp member
          cases found.symm.trans lookup
          exact absurd (rowShaped.get_eq_zero.mp zero) touched
      next nonzero =>
        obtain ⟨cleared, subtracted, stepped⟩ := Outcome.bind_eq_ok.mp stepped
        cases stepped
        rw [sameField] at subtracted
        refine ⟨sameField, fun other absent => ?_, fun other member left lookup touched => ?_⟩
        · dsimp only
          rw [OrderedKeys.getElem?_insert, if_neg, ahead other fun member => absent (List.mem_append_left _ member)]
          exact fun same => absent (List.mem_append_right _ (List.mem_singleton.mpr same))
        · rcases List.mem_append.mp member with member | member
          · exact done other member left lookup touched
          · cases List.mem_singleton.mp member
            cases found.symm.trans lookup
            exact (admits_of_subtractScaled rowShaped newShaped touched monic subtracted).1)
    matrix final ⟨rfl, fun _ _ => rfl, by simp⟩ returned
  exact passed.2.2 pid (OrderedKeys.mem_keys_iff.mpr (by simp [stored])) row stored touched

/-- The ids that a substitution finds solved, after the keys it has visited. -/
private structure FoundSolved (field : Config.Field) (symId : SourceSymbolId) (rows : Rows)
    (visited : List SourceSymbolId) (current : Rows) (solved : List SourceSymbolId) : Prop where
  sound : ∀ id ∈ solved, ∃ pid ∈ visited, ∃ row', current[pid]? = some row' ∧ row'.Solves field id
  complete : ∀ pid ∈ visited, ∀ row row' id, rows[pid]? = some row → current[pid]? = some row' →
    row.coef field symId ≠ 0 → row'.Solves field id → id ∈ solved

private theorem FoundSolved.keep {symId : SourceSymbolId} {rows current : Rows} {visited solved : List SourceSymbolId}
    {pid : SourceSymbolId} {row : MatrixRow} (listed : FoundSolved field symId rows visited current solved)
    (found : rows[pid]? = some row) (zero : row.coef field symId = 0) :
    FoundSolved field symId rows (visited ++ [pid]) current solved where
  sound id member := by
    obtain ⟨other, visited, row', lookup, solves⟩ := listed.sound id member
    exact ⟨other, List.mem_append_left _ visited, row', lookup, solves⟩
  complete other member old new id lookup present touched solves := by
    rcases List.mem_append.mp member with member | member
    · exact listed.complete other member old new id lookup present touched solves
    · cases List.mem_singleton.mp member
      rw [found, Option.some.injEq] at lookup
      exact absurd zero (lookup ▸ touched)

private theorem FoundSolved.add {symId : SourceSymbolId} {rows current : Rows}
    {visited solved longer : List SourceSymbolId} {pid : SourceSymbolId} {row' : MatrixRow}
    (listed : FoundSolved field symId rows visited current solved) (fresh : pid ∉ visited)
    (extended : ∀ id, id ∈ longer ↔ id ∈ solved ∨ row'.Solves field id) :
    FoundSolved field symId rows (visited ++ [pid]) (current.insert pid row') longer := by
  have elsewhere {other : SourceSymbolId} (member : other ∈ visited) :
      (current.insert pid row')[other]? = current[other]? := by
    rw [OrderedKeys.getElem?_insert, if_neg]
    exact fun same => fresh (same ▸ member)
  constructor
  · intro id member
    rcases (extended id).mp member with member | solves
    · obtain ⟨other, visited, row, lookup, solves⟩ := listed.sound id member
      exact ⟨other, List.mem_append_left _ visited, row, by rw [elsewhere visited, lookup], solves⟩
    · exact ⟨pid, List.mem_append_right _ (List.mem_singleton.mpr rfl), row', Std.TreeMap.getElem?_insert_self, solves⟩
  · intro other member old new id lookup present touched solves
    rcases List.mem_append.mp member with member | member
    · rw [elsewhere member] at present
      exact (extended id).mpr (.inl (listed.complete other member old new id lookup present touched solves))
    · cases List.mem_singleton.mp member
      rw [Std.TreeMap.getElem?_insert_self, Option.some.injEq] at present
      exact (extended id).mpr (.inr (present ▸ solves))

theorem substituteRows_eq {rows : Rows} (shaped : rows.Shaped field size) {symData : Bytes} (sized : symData.length = size)
    (symId : SourceSymbolId) :
    ∃ rewritten solved, rows.keys.foldlM (substituteInRow field symId symData) (rows, []) = .ok (rewritten, solved) ∧
      Rewrites (Clears field size symId (symbolEquation field symId symData)) rows rewritten ∧
      (∀ id ∈ solved, ∃ (pid : SourceSymbolId) (row : MatrixRow), rewritten[pid]? = some row ∧ row.Solves field id) ∧
      (∀ (pid : SourceSymbolId) row row' id, rows[pid]? = some row → rewritten[pid]? = some row' →
        row.coef field symId ≠ 0 → row'.Solves field id → id ∈ solved) := by
  obtain ⟨⟨final, solved⟩, returned, visited, listed⟩ :=
    Outcome.foldlM_returns (substituteInRow field symId symData) rows.keys
    (fun visited state =>
      Visited (Clears field size symId (symbolEquation field symId symData)) rows visited state.1 ∧
      FoundSolved field symId rows visited state.1 state.2)
    (by
      rintro visited pid rest ⟨current, solved⟩ split ⟨done, listed⟩
      obtain ⟨fresh, row, found⟩ := fresh_key split
      have rowShaped := shaped pid row found
      have lookup : current[pid]? = some row := by rw [done.ahead pid fresh, found]
      unfold substituteInRow
      rw [lookup, Outcome.get_some, Outcome.ok_bind]
      dsimp only
      split
      next zero =>
        have untouched := rowShaped.get_eq_zero.mp zero
        exact ⟨_, rfl, done.keep fresh found (clears_of_zero rowShaped _ untouched), listed.keep found untouched⟩
      next nonzero =>
        have touched : row.coef field symId ≠ 0 := by rwa [ne_eq, ← rowShaped.get_eq_zero]
        obtain ⟨cleared, substituted, clears⟩ := substitute_clears rowShaped sized touched
        obtain ⟨result, scanned, solves⟩ := isSolved_eq clears.shaped
        rw [substituted, Outcome.ok_bind, scanned, Outcome.ok_bind]
        have replaced := done.replace fresh found clears
        cases result with
        | none => exact ⟨_, rfl, replaced, listed.add fresh fun id => by simp [← solves]⟩
        | some id => exact ⟨_, rfl, replaced, listed.add fresh fun other => by simp [← solves, eq_comm]⟩)
    (rows, []) ⟨.start _ _, ⟨by simp, by simp⟩⟩
  refine ⟨final, solved, returned, visited.finish, fun id member => ?_, fun pid row row' id found => ?_⟩
  · obtain ⟨pid, _, row, lookup, solves⟩ := listed.sound id member
    exact ⟨pid, row, lookup, solves⟩
  · exact listed.complete pid (OrderedKeys.mem_keys_iff.mpr (by simp [found])) row row' id found

theorem eliminateWith_eq {matrix : DecodingMatrix} (shaped : Rows.Shaped matrix.field size matrix.rows) {pid : SourceSymbolId}
    {existing current : MatrixRow} (found : matrix.rows[pid]? = some existing) (currentShaped : current.Shaped matrix.field size)
    (admits : current.coef matrix.field pid ≠ 0 → current.coefs.Admits existing.coefs) :
    ∃ next, matrix.eliminateWith current pid = .ok next ∧
      Clears matrix.field size pid (existing.equation matrix.field) current next := by
  unfold eliminateWith
  dsimp only
  split
  next zero => exact ⟨current, rfl, clears_of_zero currentShaped _ (currentShaped.get_eq_zero.mp zero)⟩
  next nonzero =>
    have touched : current.coef matrix.field pid ≠ 0 := by rwa [ne_eq, ← currentShaped.get_eq_zero]
    rw [found, Outcome.get_some, Outcome.ok_bind]
    exact subtractScaled_clears currentShaped (shaped pid existing found) touched (admits touched)

theorem admits_of_eliminateWith {matrix : DecodingMatrix} (shaped : Rows.Shaped matrix.field size matrix.rows)
    {pid id : SourceSymbolId} {existing current next : MatrixRow} (found : matrix.rows[pid]? = some existing)
    (some : existing.coef matrix.field id ≠ 0) (currentShaped : current.Shaped matrix.field size)
    (stepped : matrix.eliminateWith current pid = .ok next) :
    (current.coef matrix.field pid ≠ 0 → current.coefs.Admits existing.coefs) ∧
      (current.coefs.coefs ≠ [] → next.coefs.coefs ≠ [] ∧ (next.coefs.baseId = 0 ↔
        current.coefs.baseId = 0 ∨ current.coef matrix.field pid ≠ 0 ∧ existing.coefs.baseId = 0)) := by
  unfold eliminateWith at stepped
  dsimp only at stepped
  split at stepped
  next zero =>
    have untouched := currentShaped.get_eq_zero.mp zero
    cases stepped
    exact ⟨fun touched => absurd untouched touched, fun filled => ⟨filled, by simp [untouched]⟩⟩
  next nonzero =>
    have touched : current.coef matrix.field pid ≠ 0 := by rwa [ne_eq, ← currentShaped.get_eq_zero]
    rw [found, Outcome.get_some, Outcome.ok_bind] at stepped
    obtain ⟨admits, grown⟩ := admits_of_subtractScaled currentShaped (shaped pid existing found) touched some stepped
    exact ⟨fun _ => admits, fun filled => by simpa [touched] using grown filled⟩

/-- Forward elimination returns if every row can be subtracted whose column is there, and keeps what one clearing keeps. -/
theorem forwardEliminate_rule {matrix : DecodingMatrix} (shaped : Rows.Shaped matrix.field size matrix.rows)
    (invariant : List SourceSymbolId → MatrixRow → Prop)
    (admits : ∀ visited pid rest current existing, visited ++ pid :: rest = matrix.rows.keys →
      matrix.rows[pid]? = some existing → invariant visited current → current.coef matrix.field pid ≠ 0 →
      current.coefs.Admits existing.coefs)
    (turn : ∀ visited pid rest current existing cleared, visited ++ pid :: rest = matrix.rows.keys →
      matrix.rows[pid]? = some existing → invariant visited current →
      Clears matrix.field size pid (existing.equation matrix.field) current cleared → invariant (visited ++ [pid]) cleared)
    {row : MatrixRow} (rowShaped : row.Shaped matrix.field size) (start : invariant [] row) :
    ∃ final, matrix.forwardEliminate row = .ok final ∧ final.Shaped matrix.field size ∧
      invariant matrix.rows.keys final := by
  refine Outcome.foldlM_returns _ matrix.rows.keys
    (fun visited current => current.Shaped matrix.field size ∧ invariant visited current) ?_ row ⟨rowShaped, start⟩
  rintro visited pid rest current split ⟨currentShaped, kept⟩
  obtain ⟨_, existing, found⟩ := fresh_key split
  obtain ⟨next, stepped, clears⟩ :=
    eliminateWith_eq shaped found currentShaped (admits visited pid rest current existing split found kept)
  exact ⟨next, stepped, clears.shaped, turn visited pid rest current existing next split found kept clears⟩

theorem forwardEliminate_keeps {matrix : DecodingMatrix} (shaped : Rows.Shaped matrix.field size matrix.rows)
    (monic : ∀ (pid : SourceSymbolId) row, matrix.rows[pid]? = some row → row.coef matrix.field pid = 1)
    (invariant : List SourceSymbolId → MatrixRow → Prop)
    (turn : ∀ visited pid rest current existing cleared, visited ++ pid :: rest = matrix.rows.keys →
      matrix.rows[pid]? = some existing → current.Shaped matrix.field size → invariant visited current →
      Clears matrix.field size pid (existing.equation matrix.field) current cleared →
      matrix.eliminateWith current pid = .ok cleared → invariant (visited ++ [pid]) cleared)
    {row final : MatrixRow} (rowShaped : row.Shaped matrix.field size) (start : invariant [] row)
    (returned : matrix.forwardEliminate row = .ok final) : final.Shaped matrix.field size ∧ invariant matrix.rows.keys final := by
  refine Outcome.foldlM_preserves matrix.rows.keys
    (fun visited current => current.Shaped matrix.field size ∧ invariant visited current) ?_ row final ⟨rowShaped, start⟩ returned
  rintro visited pid rest current next split ⟨currentShaped, kept⟩ stepped
  obtain ⟨_, existing, found⟩ := fresh_key split
  have nonzero : existing.coef matrix.field pid ≠ 0 := by
    rw [monic pid existing found]
    exact one_ne_zero
  obtain ⟨_, again, clears⟩ := eliminateWith_eq shaped found currentShaped
    (admits_of_eliminateWith shaped found nonzero currentShaped stepped).1
  cases stepped.symm.trans again
  exact ⟨clears.shaped, turn visited pid rest current existing next split found currentShaped kept clears stepped⟩

theorem substituteKnown_rule {known : List (SourceSymbolId × Bytes)} (sized : ∀ symbol ∈ known, symbol.2.length = size)
    (invariant : List (SourceSymbolId × Bytes) → MatrixRow → Prop)
    (turn : ∀ visited symbol rest current cleared, visited ++ symbol :: rest = known → invariant visited current →
      Clears field size symbol.1 (symbolEquation field symbol.1 symbol.2) current cleared →
      cleared.coefs.baseId = current.coefs.baseId ∧ cleared.coefs.coefs.length = current.coefs.coefs.length →
      invariant (visited ++ [symbol]) cleared)
    {row : MatrixRow} (rowShaped : row.Shaped field size) (start : invariant [] row) :
    ∃ final, known.foldlM (substituteKnown field) row = .ok final ∧ final.Shaped field size ∧ invariant known final := by
  refine Outcome.foldlM_returns _ known
    (fun visited current => current.Shaped field size ∧ invariant visited current) ?_ row ⟨rowShaped, start⟩
  rintro visited symbol rest current split ⟨currentShaped, kept⟩
  unfold substituteKnown
  dsimp only
  split
  next zero =>
    exact ⟨current, rfl, currentShaped, turn visited symbol rest current current split kept
      (clears_of_zero currentShaped _ (currentShaped.get_eq_zero.mp zero)) ⟨rfl, rfl⟩⟩
  next nonzero =>
    have listed : symbol ∈ known := split ▸ List.mem_append_right _ List.mem_cons_self
    obtain ⟨cleared, substituted, clears⟩ := substitute_clears currentShaped (sized symbol listed)
      (show current.coef field symbol.1 ≠ 0 by rwa [ne_eq, ← currentShaped.get_eq_zero])
    refine ⟨cleared, substituted, clears.shaped, turn visited symbol rest current cleared split kept clears ?_⟩
    rw [substitute] at substituted
    obtain ⟨payload, _, substituted⟩ := Outcome.bind_eq_ok.mp substituted
    cases substituted
    exact ⟨DenseCoefs.remove_baseId _ _, DenseCoefs.length_remove _ _⟩

end Passes

namespace Cascade

structure Extracts (state : Cascade) (solved : List SourceSymbolId) (taken : List (SourceSymbolId × Bytes))
    (next : Cascade) : Prop where
  rows : ∀ pid : SourceSymbolId, next.rows[pid]? = if pid ∈ solved then none else state.rows[pid]?
  recovered : next.recovered = state.recovered ++ taken
  queue : next.queue = state.queue ++ taken.filter fun symbol => !state.localKnown.contains symbol.1
  localKnown : next.localKnown = state.localKnown
  stored : ∀ symbol ∈ taken, symbol.1 ∈ solved ∧
    ∃ row, state.rows[symbol.1]? = some row ∧ symbol.2 = row.payload
  complete : ∀ id ∈ solved, ∀ row, state.rows[id]? = some row → (id, row.payload) ∈ taken
  once : (taken.map (·.1)).Nodup
  size : next.rows.size + taken.length = state.rows.size

theorem extract_all (solved : List SourceSymbolId) (state : Cascade) :
    ∃ taken, Extracts state solved taken (solved.foldl extract state) := by
  induction solved generalizing state with
  | nil => exact ⟨[], by simp, by simp, by simp, rfl, by simp, by simp, .nil, rfl⟩
  | cons id solved ih =>
    obtain ⟨taken, rest⟩ := ih (state.extract id)
    rw [List.foldl_cons]
    cases found : state.rows[id]? with
    | none =>
      have same : state.extract id = state := by simp only [extract, found]
      rw [same] at rest ⊢
      refine ⟨taken, fun pid => ?_, rest.recovered, rest.queue, rest.localKnown, ?_, ?_, rest.once, rest.size⟩
      · rw [rest.rows pid]
        by_cases here : pid = id
        · subst here
          simp [found]
        · simp [here]
      · intro symbol member
        exact ⟨List.mem_cons_of_mem _ (rest.stored symbol member).1, (rest.stored symbol member).2⟩
      · intro other member row lookup
        rcases List.mem_cons.mp member with rfl | member
        · rw [found] at lookup
          cases lookup
        · exact rest.complete other member row lookup
    | some row =>
      have erased := OrderedKeys.getElem?_erase state.rows id
      have step : state.extract id = { state with
          rows := state.rows.erase id
          recovered := state.recovered ++ [(id, row.payload)]
          queue := if state.localKnown.contains id then state.queue else state.queue ++ [(id, row.payload)] } := by
        simp only [extract, found]
      rw [step] at rest ⊢
      refine ⟨(id, row.payload) :: taken, fun pid => ?_, ?_, ?_, rest.localKnown, ?_, ?_, ?_, ?_⟩
      · rw [rest.rows pid]
        dsimp only
        rw [erased]
        by_cases here : pid = id <;> simp [here]
      · rw [rest.recovered, List.append_assoc, List.singleton_append]
      · rw [rest.queue, List.filter_cons]
        dsimp only
        by_cases seen : state.localKnown.contains id = true <;> simp [seen]
      · intro symbol member
        rcases List.mem_cons.mp member with rfl | member
        · exact ⟨List.mem_cons_self, row, found, rfl⟩
        · obtain ⟨listed, stored, lookup, same⟩ := rest.stored symbol member
          dsimp only at lookup
          rw [erased] at lookup
          split at lookup
          · cases lookup
          · exact ⟨List.mem_cons_of_mem _ listed, stored, lookup, same⟩
      · intro other member stored lookup
        by_cases here : other = id
        · subst here
          rw [found, Option.some.injEq] at lookup
          rw [← lookup]
          exact List.mem_cons_self
        · refine List.mem_cons_of_mem _ (rest.complete other ?_ stored ?_)
          · exact (List.mem_cons.mp member).resolve_left here
          · dsimp only
            rw [erased, if_neg here, lookup]
      · rw [List.map_cons, List.nodup_cons]
        refine ⟨fun again => ?_, rest.once⟩
        obtain ⟨symbol, member, same⟩ := List.mem_map.mp again
        obtain ⟨_, stored, lookup, _⟩ := rest.stored symbol member
        dsimp only at lookup
        rw [erased, if_pos same] at lookup
        cases lookup
      · have size := rest.size
        dsimp only at size
        rw [Std.TreeMap.size_erase] at size
        have present : state.rows.contains id = true := by
          rw [Std.TreeMap.contains_iff_mem, Std.TreeMap.mem_iff_isSome_getElem?, found]
          rfl
        have positive : 0 < state.rows.size := by
          rw [Nat.pos_iff_ne_zero]
          intro zero
          have empty : state.rows.isEmpty = true := by rw [Std.TreeMap.isEmpty_eq_size_eq_zero, zero]; rfl
          rw [Std.TreeMap.getElem?_of_isEmpty empty] at found
          cases found
        rw [if_pos present] at size
        rw [List.length_cons]
        omega

variable {field : Config.Field} {size : ℕ}

structure Turn (field : Config.Field) (size : ℕ) (state : Cascade) (id : SourceSymbolId) (data : Bytes)
    (rest : List (SourceSymbolId × Bytes)) (rows : Rows) (solved : List SourceSymbolId)
    (taken : List (SourceSymbolId × Bytes)) (next : Cascade) : Prop where
  popped : state.queue = (id, data) :: rest
  rewrites : Rewrites (Clears field size id (symbolEquation field id data)) state.rows rows
  sound : ∀ other ∈ solved, ∃ (pid : SourceSymbolId) (row : MatrixRow), rows[pid]? = some row ∧ row.Solves field other
  complete : ∀ (pid : SourceSymbolId) row row' other, state.rows[pid]? = some row → rows[pid]? = some row' →
    row.coef field id ≠ 0 → row'.Solves field other → other ∈ solved
  extracts : Extracts { state with rows, queue := rest, localKnown := state.localKnown.insert id data } solved taken next

theorem run_rule (invariant : Cascade → Prop)
    (shaped : ∀ state, invariant state → Rows.Shaped field size state.rows ∧
      ∀ symbol ∈ state.queue, symbol.2.length = size)
    (turn : ∀ state id data rest rows solved taken next, invariant state →
      Turn field size state id data rest rows solved taken next → invariant next)
    (fuel : ℕ) (state : Cascade) (start : invariant state) (enough : state.queue.length + state.rows.size < fuel) :
    ∃ final, state.run field fuel = .ok final ∧ invariant final ∧ final.queue = [] ∧
      final.rows.size ≤ state.rows.size := by
  induction fuel generalizing state with
  | zero => omega
  | succ fuel ih =>
    unfold run
    cases queued : state.queue with
    | nil => exact ⟨state, rfl, start, queued, Nat.le_refl _⟩
    | cons symbol rest =>
      obtain ⟨id, data⟩ := symbol
      obtain ⟨rowsShaped, sized⟩ := shaped state start
      obtain ⟨rows, solved, substituted, rewrites, sound, complete⟩ := substituteRows_eq rowsShaped
        (sized (id, data) (queued ▸ List.mem_cons_self)) id
      obtain ⟨taken, extracts⟩ := extract_all solved
        { state with rows, queue := rest, localKnown := state.localKnown.insert id data }
      have next := turn state id data rest rows solved taken _ start ⟨queued, rewrites, sound, complete, extracts⟩
      have shrunk := extracts.size
      have rewritten := rewrites.size
      have filtered := List.length_filter_le
        (fun symbol => !(state.localKnown.insert id data).contains symbol.1) taken
      dsimp only at shrunk
      obtain ⟨final, returned, kept, empty, smaller⟩ := ih _ next (by
        rw [extracts.queue, List.length_append]
        rw [queued, List.length_cons] at enough
        dsimp only
        omega)
      refine ⟨final, ?_, kept, empty, by omega⟩
      dsimp only
      rw [substituted, Outcome.ok_bind]
      exact returned

end Cascade
end Delp.DecodingMatrix
