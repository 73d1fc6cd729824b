import Delp.Proofs.EchelonForm

/-! A full matrix drops the row with its smallest key before it takes out the solved rows. -/

namespace Delp.DecodingMatrix
open Machine Gf Elimination MatrixRow

variable {size : ℕ} {matrix : DecodingMatrix} {known : KnownSources} {ev : EncodingVector} {coefs payload : Bytes}

def determined (matrix : DecodingMatrix) (known : KnownSources) (ev : EncodingVector) (coefs payload : Bytes) :
    Submodule matrix.field.Elem (SourceSymbolId → matrix.field.Elem) :=
  Rows.space matrix.field matrix.rows {id | id ∈ known} ⊔
    Submodule.span matrix.field.Elem {(codedEquation matrix.field ev.sourceIds coefs payload).1}

private theorem Rewrites.keys_eq {related : MatrixRow → MatrixRow → Prop} {rows rewritten : Rows}
    (rewrites : Rewrites related rows rewritten) : rewritten.keys = rows.keys :=
  List.Pairwise.eq_of_mem_iff (OrderedKeys.sorted rewritten) (OrderedKeys.sorted rows)
    fun pid => by rw [Std.TreeMap.mem_keys, Std.TreeMap.mem_keys, rewrites.mem_iff]

noncomputable def leftOver (matrix : DecodingMatrix) (known : KnownSources) (v : SourceSymbolId → matrix.field.Elem)
    (id : SourceSymbolId) : matrix.field.Elem :=
  if id ∈ known then 0 else residue (Rows.coefs matrix.field matrix.rows) id v

/-- The ends of the rows that the call subtracts are ids; or such a row has all the ids, and the other one the last id. -/
structure EndsFit (matrix : DecodingMatrix) (known : KnownSources) (v : SourceSymbolId → matrix.field.Elem) : Prop where
  rows : ∀ (pid : SourceSymbolId) row, matrix.rows[pid]? = some row → v pid ≠ 0 →
    row.coefs.Bounded ∨ row.coefs.baseId = 0 ∧ v 0xFFFFFFFF ≠ 0
  brought : v 0xFFFFFFFF ≠ 0 → ∀ lead, leftOver matrix known v lead ≠ 0 → (∀ id < lead, leftOver matrix known v id = 0) →
    ∀ (pid : SourceSymbolId) row, matrix.rows[pid]? = some row → row.coef matrix.field lead ≠ 0 → ¬ row.coefs.Bounded ∧
      (v 0 ≠ 0 ∨ ∃ (other : SourceSymbolId) (first : MatrixRow), matrix.rows[other]? = some first ∧ v other ≠ 0 ∧
        first.coefs.baseId = 0)

/-- Forward elimination leaves what the rows and the known symbols leave of the equation. -/
private theorem Eliminated.leaves {valid : Submodule matrix.field.Elem (SymbolEquation matrix.field)} {row reduced : MatrixRow}
    (echelon : Rows.Echelon matrix.field size matrix.rows) (free : Rows.Free matrix.field matrix.rows {id | id ∈ known})
    (ends : Eliminated matrix.field size valid matrix.rows {id | id ∈ known} row reduced) :
    reduced.coef matrix.field = leftOver matrix known (row.coef matrix.field) := by
  funext id
  unfold leftOver
  split
  next found => exact ends.zeros id found
  next fresh =>
    have vanishes : Rows.space matrix.field matrix.rows {id | id ∈ known} ≤
        LinearMap.ker (residue (Rows.coefs matrix.field matrix.rows) id) := by
      refine rowSpace_le (fun pid key => residue_row echelon.reduced id key) fun k found => ?_
      have clear : Rows.coefs matrix.field matrix.rows k = 0 := by
        apply Rows.coefs_absent
        intro key
        obtain ⟨other, stored⟩ := Rows.mem_keySet.mp key
        exact one_ne_zero ((echelon.monic k other stored).symm.trans (free k other k stored found))
      have apart : id ≠ k := fun same => fresh (same ▸ found)
      rw [LinearMap.mem_ker, residue_single, if_neg apart, clear, Pi.zero_apply, sub_zero]
    have same : residue (Rows.coefs matrix.field matrix.rows) id (reduced.coef matrix.field) = residue _ id (row.coef matrix.field) :=
      sub_eq_zero.mp ((LinearMap.map_sub _ _ _).symm.trans (LinearMap.mem_ker.mp (vanishes ends.reduces.same)))
    rw [← same, residue_apply, Finset.sum_eq_zero, sub_zero]
    intro pid _
    by_cases key : pid ∈ matrix.rows
    · rw [ends.keyZeros pid key, mul_zero]
    · rw [Rows.coefs_absent key, Pi.zero_apply, zero_mul]

section Fits
variable {map : Std.TreeMap SourceSymbolId UInt8} {valid : Submodule matrix.field.Elem (SymbolEquation matrix.field)}
  {reduced normal : MatrixRow} {pivot : SourceSymbolId}

private theorem unbounded_iff {v : SourceSymbolId → matrix.field.Elem} (listed : ∀ id, id ∈ map ↔ v id ≠ 0) :
    ¬ (DenseCoefs.fromMap map).Bounded ↔ v 0xFFFFFFFF ≠ 0 := by
  rw [DenseCoefs.fromMap_bounded_iff, not_not, listed]

/-- The row that an equation over the last id brings starts at the first id if the equation, or a row subtracted from it,
does. -/
private theorem brought_start (listed : ∀ id, id ∈ map ↔ (⟨.fromMap map, payload⟩ : MatrixRow).coef matrix.field id ≠ 0)
    (last : (⟨.fromMap map, payload⟩ : MatrixRow).coef matrix.field 0xFFFFFFFF ≠ 0)
    (ends : Eliminated matrix.field size valid matrix.rows {id | id ∈ known} ⟨.fromMap map, payload⟩ reduced)
    (normalizes : Normalizes matrix.field size reduced normal pivot) :
    normal.coefs.baseId = 0 ↔ (⟨.fromMap map, payload⟩ : MatrixRow).coef matrix.field 0 ≠ 0 ∨
      ∃ (other : SourceSymbolId) (first : MatrixRow), matrix.rows[other]? = some first ∧
        (⟨.fromMap map, payload⟩ : MatrixRow).coef matrix.field other ≠ 0 ∧ first.coefs.baseId = 0 := by
  obtain ⟨filled, start⟩ := DenseCoefs.fromMap_start_iff ((listed _).mpr last)
  rw [normalizes.start, ends.start filled, start, listed]

private theorem EndsFit.clears (echelon : Rows.Echelon matrix.field size matrix.rows)
    (free : Rows.Free matrix.field matrix.rows {id | id ∈ known})
    (listed : ∀ id, id ∈ map ↔ (⟨.fromMap map, payload⟩ : MatrixRow).coef matrix.field id ≠ 0)
    (fits : EndsFit matrix known ((⟨.fromMap map, payload⟩ : MatrixRow).coef matrix.field))
    (ends : Eliminated matrix.field size valid matrix.rows {id | id ∈ known} ⟨.fromMap map, payload⟩ reduced)
    (normalizes : Normalizes matrix.field size reduced normal pivot) (pid : SourceSymbolId) (row : MatrixRow)
    (stored : matrix.rows[pid]? = some row) (touched : row.coef matrix.field pivot ≠ 0) : row.coefs.Admits normal.coefs := by
  by_cases last : (⟨.fromMap map, payload⟩ : MatrixRow).coef matrix.field 0xFFFFFFFF = 0
  · have bounded := not_not.mp (mt (unbounded_iff listed).mp (not_not.mpr last))
    exact .inl (normalizes.bounded.mpr (ends.bounded.mpr bounded))
  · have leaves := ends.leaves echelon free
    obtain ⟨unbounded, start⟩ := fits.brought last pivot (leaves ▸ normalizes.nonzero) (leaves ▸ normalizes.first)
      pid row stored touched
    exact .inr ⟨(brought_start listed last ends normalizes).mpr start, unbounded⟩

private theorem endsFit_of_returned {target : Submodule matrix.field.Elem (SourceSymbolId → matrix.field.Elem)}
    (echelon : Rows.Echelon matrix.field size matrix.rows) (free : Rows.Free matrix.field matrix.rows {id | id ∈ known})
    (solid : Solid matrix.field size valid target matrix.rows {id | id ∈ known})
    (knownSized : ∀ symbol ∈ known.toList, symbol.2.length = size)
    (knownTrue : ∀ symbol ∈ known.toList, symbolEquation matrix.field symbol.1 symbol.2 ∈ valid) (read : coefMap ev = .ok map)
    (shaped : (⟨.fromMap map, payload⟩ : MatrixRow).Shaped matrix.field size)
    (inside : (⟨.fromMap map, payload⟩ : MatrixRow).equation matrix.field ∈ valid)
    (listed : ∀ id, id ∈ map ↔ (⟨.fromMap map, payload⟩ : MatrixRow).coef matrix.field id ≠ 0) {cleared : DecodingMatrix}
    (brings : Brings matrix ev payload known normal pivot cleared)
    {result : DecodingMatrix × List (SourceSymbolId × Bytes)} (returned : matrix.addCoded ev payload known = .ok result) :
    EndsFit matrix known ((⟨.fromMap map, payload⟩ : MatrixRow).coef matrix.field) where
  rows pid row stored touched :=
    (admits_of_addCoded solid knownSized knownTrue read shaped inside returned stored touched).imp_right
      fun ⟨start, unbounded⟩ => ⟨start, (unbounded_iff listed).mp unbounded⟩
  brought last lead nonzero first pid row stored touched := by
    obtain ⟨reduced, ends, normalizes⟩ := brings.normalizes solid knownSized knownTrue read shaped inside
    rw [← ends.leaves echelon free] at nonzero first
    have same : lead = pivot := by
      rcases Nat.lt_trichotomy lead.toNat pivot.toNat with before | same | after
      · exact absurd (normalizes.first lead ((lt_iff _ _).mpr before)) nonzero
      · exact (eq_iff _ _).mpr same
      · exact absurd (first pivot ((lt_iff _ _).mpr after)) normalizes.nonzero
    rcases admits_of_backSubstitute echelon.shaped normalizes.shaped (normalizes.monic ▸ one_ne_zero) brings.backed stored
      (same ▸ touched) with bounded | ⟨start, unbounded⟩
    · exact absurd (ends.bounded.mp (normalizes.bounded.mp bounded)) ((unbounded_iff listed).mpr last)
    · exact ⟨unbounded, (brought_start listed last ends normalizes).mp start⟩

end Fits

/-- Every row that the call leaves solved is returned, and no solved row is dropped. -/
def ReturnsSolved (matrix : DecodingMatrix) (known : KnownSources) (ev : EncodingVector) (payload : Bytes) : Prop :=
  ∃ normal pivot cleared left recovered, Brings matrix ev payload known normal pivot cleared ∧
    matrix.addCoded ev payload known = .ok (left, recovered) ∧
    (∀ (pid : SourceSymbolId) row id, (cleared.rows.insert pivot normal)[pid]? = some row → row.Solves matrix.field id →
      (id, row.payload) ∈ recovered) ∧
    ∀ (pid : SourceSymbolId) row id, cleared.rows[pid]? = some row → row.Solves matrix.field id →
      pid ∈ cleared.enforceMaxRows.rows

private abbrev follows (matrix : DecodingMatrix) (known : KnownSources) (ev : EncodingVector) (coefs payload : Bytes) :
    Submodule matrix.field.Elem (SymbolEquation matrix.field) :=
  (determined matrix known ev coefs payload).comap (LinearMap.fst matrix.field.Elem _ (ℕ → matrix.field.Elem))

private theorem follows_of_space {equation : SymbolEquation matrix.field}
    (member : equation.1 ∈ Rows.space matrix.field matrix.rows {id | id ∈ known}) :
    equation ∈ follows matrix known ev coefs payload := Submodule.mem_sup_left member

private theorem follows_solid (echelon : Rows.Echelon matrix.field size matrix.rows)
    (free : Rows.Free matrix.field matrix.rows {id | id ∈ known}) :
    Solid matrix.field size (follows matrix known ev coefs payload) (Rows.space matrix.field matrix.rows {id | id ∈ known})
      matrix.rows {id | id ∈ known} := by
  refine echelon.solid ?_ free
  rintro _ ⟨pid, row, stored, rfl⟩
  apply follows_of_space
  rw [show (row.equation matrix.field).1 = _ from (Rows.coefs_of stored).symm]
  exact row_mem (Rows.mem_keySet.mpr ⟨row, stored⟩)

private theorem Brings.unique {normal normal' : MatrixRow} {pivot pivot' : SourceSymbolId} {cleared cleared' : DecodingMatrix}
    (brings : Brings matrix ev payload known normal pivot cleared) (again : Brings matrix ev payload known normal' pivot' cleared') :
    normal = normal' ∧ pivot = pivot' ∧ cleared = cleared' := by
  cases brings.reduced.symm.trans again.reduced
  cases brings.leads.symm.trans again.leads
  cases brings.backed.symm.trans again.backed
  exact ⟨rfl, rfl, rfl⟩

/-- Where the ends fit, the solved rows are returned and kept exactly if there is room for a row or the symbol of the
smallest key stays undetermined. -/
private theorem EndsFit.returns_iff (echelon : Rows.Echelon matrix.field size matrix.rows)
    (free : Rows.Free matrix.field matrix.rows {id | id ∈ known})
    (knownSized : ∀ symbol ∈ known.toList, symbol.2.length = size)
    (enters : Enters matrix.field size ev coefs payload)
    (independent : (codedEquation matrix.field ev.sourceIds coefs payload).1 ∉
      Rows.space matrix.field matrix.rows {id | id ∈ known})
    (fits : EndsFit matrix known (codedEquation matrix.field ev.sourceIds coefs payload).1) :
    ∃ normal pivot cleared left recovered, Brings matrix ev payload known normal pivot cleared ∧
      matrix.addCoded ev payload known = .ok (left, recovered) ∧
      (((∀ (pid : SourceSymbolId) row id, (cleared.rows.insert pivot normal)[pid]? = some row →
            row.Solves matrix.field id → (id, row.payload) ∈ recovered) ∧
          ∀ (pid : SourceSymbolId) row id, cleared.rows[pid]? = some row → row.Solves matrix.field id →
            pid ∈ cleared.enforceMaxRows.rows) ↔
        matrix.rows.size < matrix.maxRows ∨ ∀ oldest, matrix.rows.keys.head? = some oldest →
          Pi.single oldest 1 ∉ determined matrix known ev coefs payload) := by
  obtain ⟨map, read, shaped, equation, listed⟩ := enters.read
  have row := coefs_of_equation equation
  rw [← row] at fits listed
  have solid : Solid _ size (follows matrix known ev coefs payload) _ _ _ := follows_solid echelon free
  have inside : (⟨.fromMap map, payload⟩ : MatrixRow).equation matrix.field ∈ follows matrix known ev coefs payload :=
    equation ▸ Submodule.mem_sup_right (Submodule.mem_span_singleton_self _)
  rcases addCoded_cases rfl solid knownSized
    (fun symbol listed => follows_of_space (single_mem (mem_of_toList listed))) read shaped inside
    (show determined matrix known ev coefs payload ≤ _ from row ▸ le_rfl)
    (fun pid existing stored touched => (fits.rows pid existing stored touched).imp_right
      fun ⟨start, last⟩ => ⟨start, (unbounded_iff listed).mpr last⟩)
    (fun _ _ _ ends normalizes => fits.clears echelon free listed ends normalizes) with
    ⟨_, covers⟩ | ⟨normal, pivot, cleared, left, recovered, brings, rewrites, fresh, joined, extracted, returned⟩
  · exact absurd (covers (Submodule.mem_sup_right (Submodule.mem_span_singleton_self _))) independent
  have solved_iff {pid : SourceSymbolId} {row : MatrixRow} (stored : (cleared.insert pivot normal)[pid]? = some row) :
      Pi.single pid 1 ∈ determined matrix known ev coefs payload ↔ row.Solves matrix.field pid :=
    joined.solves_iff (fun _ follows => follows) (fun _ found => Submodule.mem_sup_left (single_mem found)) stored
  refine ⟨normal, pivot, { matrix with rows := cleared }, { matrix with rows := left }, recovered, brings, returned, ?_, ?_⟩
  · rintro ⟨_, keeps⟩
    by_contra dropped
    rw [not_or, Nat.not_lt] at dropped
    obtain ⟨full, dropped⟩ := dropped
    simp only [not_forall, not_not] at dropped
    obtain ⟨oldest, head, solved⟩ := dropped
    have key := OrderedKeys.head_mem head
    obtain ⟨row, stored⟩ := Rows.mem_keySet.mp (rewrites.mem_iff.mpr key)
    have present : (cleared.insert pivot normal)[oldest]? = some row := by
      rw [OrderedKeys.getElem?_insert, if_neg, stored]
      exact fun same => fresh (same ▸ key)
    obtain ⟨other, remains⟩ := Rows.mem_keySet.mp (keeps oldest row oldest stored ((solved_iff present).mp solved))
    rw [enforceMaxRows_rows, if_pos ⟨rewrites.size ▸ full, rewrites.keys_eq ▸ head⟩] at remains
    cases remains
  · intro room
    have stays {pid : SourceSymbolId} {row : MatrixRow} (stored : (cleared.insert pivot normal)[pid]? = some row)
        (apart : pid ≠ pivot) (solves : row.Solves matrix.field pid) :
        { matrix with rows := cleared }.enforceMaxRows.rows[pid]? = some row := by
      rw [enforceMaxRows_rows, if_neg]
      · rwa [OrderedKeys.getElem?_insert, if_neg apart] at stored
      · rintro ⟨full, head⟩
        rcases room with room | undetermined
        · exact Nat.not_lt.mpr full (rewrites.size ▸ room)
        · exact undetermined pid (rewrites.keys_eq ▸ head) ((solved_iff stored).mpr solves)
    refine ⟨fun pid row id stored solves => ?_, fun pid row id stored solves => ?_⟩
    · cases joined.system.key_of_solves stored solves
      refine extracted.complete pid row ?_ solves
      rw [OrderedKeys.getElem?_insert]
      split
      next here => rwa [OrderedKeys.getElem?_insert, if_pos here] at stored
      next apart => exact stays stored apart solves
    · have apart : pid ≠ pivot := fun same => fresh (rewrites.mem_iff.mp (same ▸ Rows.mem_keySet.mpr ⟨row, stored⟩))
      have present : (cleared.insert pivot normal)[pid]? = some row := by
        rw [OrderedKeys.getElem?_insert, if_neg apart, stored]
      cases joined.system.key_of_solves present solves
      exact Rows.mem_keySet.mpr ⟨row, stays present apart solves⟩

/-- An independent equation returns every row that it solves, and no solved row is dropped, exactly if the ends fit, and
there is room for a row or the symbol of the smallest key stays undetermined. -/
theorem addCoded_returns_solved_iff (echelon : Rows.Echelon matrix.field size matrix.rows)
    (free : Rows.Free matrix.field matrix.rows {id | id ∈ known})
    (knownSized : ∀ symbol ∈ known.toList, symbol.2.length = size)
    (enters : Enters matrix.field size ev coefs payload)
    (independent : (codedEquation matrix.field ev.sourceIds coefs payload).1 ∉
      Rows.space matrix.field matrix.rows {id | id ∈ known}) :
    ReturnsSolved matrix known ev payload ↔
      EndsFit matrix known (codedEquation matrix.field ev.sourceIds coefs payload).1 ∧
      (matrix.rows.size < matrix.maxRows ∨ ∀ oldest, matrix.rows.keys.head? = some oldest →
        Pi.single oldest 1 ∉ determined matrix known ev coefs payload) := by
  constructor
  · rintro ⟨normal, pivot, cleared, left, recovered, brings, returned, spares⟩
    obtain ⟨map, read, shaped, equation, listed⟩ := enters.read
    have row := coefs_of_equation equation
    have fits : EndsFit matrix known (codedEquation matrix.field ev.sourceIds coefs payload).1 := by
      rw [← row] at listed ⊢
      have solid : Solid _ size (follows matrix known ev coefs payload) _ _ _ := follows_solid echelon free
      exact endsFit_of_returned echelon free solid knownSized
        (fun symbol listed => follows_of_space (single_mem (mem_of_toList listed))) read shaped
        (equation ▸ Submodule.mem_sup_right (Submodule.mem_span_singleton_self _)) listed brings returned
    obtain ⟨_, _, _, _, _, brings', returned', exact⟩ := fits.returns_iff echelon free knownSized enters independent
    obtain ⟨rfl, rfl, rfl⟩ := brings.unique brings'
    cases returned.symm.trans returned'
    exact ⟨fits, exact.mp spares⟩
  · rintro ⟨fits, room⟩
    obtain ⟨normal, pivot, cleared, left, recovered, brings, returned, exact⟩ :=
      fits.returns_iff echelon free knownSized enters independent
    exact ⟨normal, pivot, cleared, left, recovered, brings, returned, exact.mpr room⟩

section Examples

private theorem multiple_of_row {field : Config.Field} {rows : Rows} {row : MatrixRow}
    (only : ∀ (pid : SourceSymbolId) other, rows[pid]? = some other → other = row) {v : SourceSymbolId → field.Elem}
    (inside : v ∈ rows.space field {id | id ∈ (∅ : KnownSources)}) : ∃ c : field.Elem, v = c • row.coef field := by
  have below : rows.space field {id | id ∈ (∅ : KnownSources)} ≤ Submodule.span field.Elem {row.coef field} := by
    refine rowSpace_le (fun pid key => ?_) fun id known => by simp at known
    obtain ⟨other, stored⟩ := Rows.mem_keySet.mp key
    rw [Rows.coefs_of stored, only pid other stored]
    exact Submodule.mem_span_singleton_self _
  obtain ⟨c, same⟩ := Submodule.mem_span_singleton.mp (below inside)
  exact ⟨c, same.symm⟩

theorem sum_independent (maxRows : ℕ) : (codedEquation .gf2_4 sum.ev.sourceIds [1, 1] [1]).1 ∉
    Rows.space .gf2_4 (halfway maxRows).rows {id | id ∈ (∅ : KnownSources)} := by
  intro inside
  obtain ⟨c, same⟩ := multiple_of_row (fun pid other stored => (halfway_row stored).2) inside
  have entry : (codedEquation .gf2_4 sum.ev.sourceIds [1, 1] [1]).1 0 = 1 ∧
      (codedEquation .gf2_4 sum.ev.sourceIds [1, 1] [1]).1 1 = 1 := by
    rw [show sum.ev.sourceIds = [0, 1] from rfl]
    simp [codedEquation, EncodingVector.columns, elem_one]
  have first := entry.1.symm.trans (congrFun same 0)
  have second := entry.2.symm.trans (congrFun same 1)
  rw [Pi.smul_apply, halfRow_coef.1, smul_eq_mul, mul_one] at first
  rw [Pi.smul_apply, ← first, one_smul] at second
  exact absurd ((elem_eq_one (show InField .gf2_4 2 by decide)).mp second.symm) (by decide)

/-- With room for another row, both symbols are returned. -/
theorem addCoded_returns_solved_iff_halfway : ∃ normal pivot cleared left recovered,
    Brings (halfway 2) sum.ev [1] ∅ normal pivot cleared ∧ (halfway 2).addCoded sum.ev [1] ∅ = .ok (left, recovered) ∧
      (∀ (pid : SourceSymbolId) row id, (cleared.rows.insert pivot normal)[pid]? = some row → row.Solves .gf2_4 id →
        (id, row.payload) ∈ recovered) ∧
      ∀ (pid : SourceSymbolId) row id, cleared.rows[pid]? = some row → row.Solves .gf2_4 id →
        pid ∈ cleared.enforceMaxRows.rows := by
  refine (@addCoded_returns_solved_iff 1 (halfway 2) ∅ _ _ _ (halfway_echelon 2) (fun _ _ _ _ known => by simp at known)
    (fun symbol listed => absurd listed List.not_mem_nil) sum_enters (sum_independent 2)).mpr ⟨⟨?_, ?_⟩, .inl (by decide)⟩
  · intro pid row stored _
    rw [(halfway_row stored).2]
    exact .inl (by decide)
  · intro last
    rw [show sum.ev.sourceIds = [0, 1] from rfl] at last
    simp [codedEquation, EncodingVector.columns] at last

/-- The sum solves the only row of a full matrix, whose symbol is dropped with it. -/
theorem addCoded_returns_solved_fails : ¬ ∀ (matrix : DecodingMatrix) (known : KnownSources) (ev : EncodingVector)
    (coefs payload : Bytes) size normal pivot cleared left recovered, 0 < size →
    Rows.Echelon matrix.field size matrix.rows → Rows.Free matrix.field matrix.rows {id | id ∈ known} →
    (∀ symbol ∈ known.toList, symbol.2.length = size) → Enters matrix.field size ev coefs payload →
    (∀ id ∈ ev.sourceIds, id < 0xFFFFFFFF) →
    (codedEquation matrix.field ev.sourceIds coefs payload).1 ∉ Rows.space matrix.field matrix.rows {id | id ∈ known} →
    Brings matrix ev payload known normal pivot cleared → matrix.addCoded ev payload known = .ok (left, recovered) →
    ∀ (pid : SourceSymbolId) row id, cleared.rows[pid]? = some row → row.Solves matrix.field id →
      (id, row.payload) ∈ recovered := by
  intro claim
  let cleared : MatrixRow := ⟨⟨0, [1, 0]⟩, [0]⟩
  obtain ⟨normal, reduced, second⟩ := Outcome.passes_iff.mp (show ((do
      let row ← (halfway 1).reducedRow sum.ev [1] ∅
      let row ← (halfway 1).forwardEliminate row
      row.normalize (halfway 1).field) : Result MatrixRow).passes (fun row => decide (row = ⟨⟨0, [0, 1]⟩, [1]⟩)) = true by
    decide +kernel)
  cases of_decide_eq_true second
  obtain ⟨matrix, backed, stored⟩ := Outcome.passes_iff.mp (show ((halfway 1).backSubstitute 1 ⟨⟨0, [0, 1]⟩, [1]⟩).passes
    (fun matrix => decide (matrix.rows[(0 : SourceSymbolId)]? = some cleared)) = true by decide +kernel)
  obtain ⟨⟨left, recovered⟩, returned, only⟩ := Outcome.passes_iff.mp (show ((halfway 1).addCoded sum.ev [1] ∅).passes
    (fun result => decide (result.2 = [(1, [1])])) = true by decide +kernel)
  have shaped : cleared.Shaped .gf2_4 1 := ⟨⟨by decide, fun c member =>
    of_decide_eq_true (List.all_eq_true.mp (show cleared.coefs.coefs.all (· < 16) = true by decide) c member)⟩, rfl⟩
  obtain ⟨found, scanned, solves⟩ := isSolved_eq shaped
  cases scanned.symm.trans (show cleared.coefs.isSolved = .ok (some 0) by decide)
  have missed := claim (halfway 1) ∅ sum.ev [1, 1] [1] 1 _ 1 matrix left recovered (by decide) (halfway_echelon 1)
    (fun _ _ _ _ known => by simp at known) (fun symbol listed => absurd listed List.not_mem_nil) sum_enters
    (below_of_all (by decide)) (sum_independent 1) ⟨reduced, by decide, backed⟩ returned 0 cleared 0
    (of_decide_eq_true stored) ((solves 0).mp rfl)
  rw [show recovered = [(1, [1])] from of_decide_eq_true only] at missed
  revert missed
  decide

end Examples

end Delp.DecodingMatrix
