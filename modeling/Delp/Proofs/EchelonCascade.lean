import Delp.Proofs.EchelonForm

/-! A source symbol takes its column out of a matrix in reduced echelon form. The matrix stays in the form, and what the
rows then determine is returned, unless the column is the key of a row. -/

namespace Delp.DecodingMatrix
open Machine Gf Elimination MatrixRow

variable {field : Config.Field} {size : ℕ}

namespace Cascade

/-- A cascade from a symbol under whose id a row is stored: that row stays, and the column is cleared in the first turn. -/
structure Stuck (field : Config.Field) (size : ℕ) (id : SourceSymbolId) (state : Cascade) : Prop where
  shaped : state.Shaped field size
  key : id ∈ state.rows
  cleared : (∀ (pid : SourceSymbolId) row, state.rows[pid]? = some row → row.coef field id = 0) ∨
    ∃ data rest, state.queue = (id, data) :: rest

/-- No turn removes the row, because no row is solved for a cleared column. -/
theorem Stuck.turn {state next : Cascade} {id other : SourceSymbolId} {data : Bytes} {rest taken : List (SourceSymbolId × Bytes)}
    {rows : Rows} {solved : List SourceSymbolId} (stuck : Stuck field size id state)
    (turn : Turn field size state other data rest rows solved taken next) : Stuck field size id next := by
  have zero (pid : SourceSymbolId) (row : MatrixRow) (stored : rows[pid]? = some row) : row.coef field id = 0 := by
    obtain ⟨before, old, clears⟩ := turn.rewrites.backward pid row stored
    by_cases same : id = other
    · rw [same]
      exact clears.coef_column (Pi.single_eq_same _ _)
    · rw [clears.coef_other (Pi.single_eq_of_ne same _)]
      rcases stuck.cleared with cleared | ⟨first, later, queued⟩
      · exact cleared pid before old
      · rw [turn.popped, List.cons.injEq, Prod.mk.injEq] at queued
        exact absurd queued.1.1.symm same
  refine ⟨stuck.shaped.turn turn, ?_, .inl fun pid row stored => zero pid row (turn.rows_of stored).2⟩
  obtain ⟨row, stored⟩ := Rows.mem_keySet.mp (turn.rewrites.mem_iff.mpr stuck.key)
  refine Rows.mem_keySet.mpr ⟨row, ?_⟩
  rw [turn.extracts.rows id, if_neg]
  · exact stored
  · intro listed
    obtain ⟨pid, left, present, solves⟩ := turn.sound id listed
    exact solves.1 (zero pid left present)

end Cascade

/-- A symbol under whose id a row is stored leaves that row without a coefficient at its key. -/
theorem addKnownSource_key {matrix : DecodingMatrix} (shaped : Rows.Shaped matrix.field size matrix.rows)
    {id : SourceSymbolId} {data : Bytes} (sized : data.length = size) (key : id ∈ matrix.rows) (known : KnownSources) :
    ∃ rows recovered row, matrix.addKnownSource id data known = .ok ({ matrix with rows }, recovered) ∧
      rows[id]? = some row ∧ row.coef matrix.field id = 0 := by
  obtain ⟨final, ran, stuck, empty, _⟩ := Cascade.run_rule (Cascade.Stuck matrix.field size id)
    (fun state stuck => ⟨stuck.shaped.rows, stuck.shaped.queue⟩) (fun _ _ _ _ _ _ _ _ stuck turn => stuck.turn turn)
    (matrix.rows.size + 2) { rows := matrix.rows, queue := [(id, data)], localKnown := known, recovered := [] }
    ⟨⟨shaped, by simpa using sized, by simp⟩, key, .inr ⟨data, [], rfl⟩⟩ (by simp only [List.length_singleton]; omega)
  obtain ⟨row, stored⟩ := Rows.mem_keySet.mp stuck.key
  refine ⟨final.rows, final.recovered, row, by rw [addKnownSource, ran]; rfl, stored, ?_⟩
  rcases stuck.cleared with cleared | ⟨_, _, queued⟩
  · exact cleared id row stored
  · rw [empty] at queued
    cases queued

def withSymbol (matrix : DecodingMatrix) (id : SourceSymbolId) (data : Bytes) : Set (SymbolEquation matrix.field) :=
  Insert.insert (symbolEquation matrix.field id data) (Rows.equations matrix.field matrix.rows)

/-- Substitution of a symbol consistent with the rows keeps every row keyed by its lowest column, and returns once each
symbol that this determines, exactly if no row is stored under its id. -/
theorem addKnownSource_exact_iff {matrix : DecodingMatrix} (positive : 0 < size)
    (echelon : Rows.Echelon matrix.field size matrix.rows) {id : SourceSymbolId} {data : Bytes} (sized : data.length = size)
    (consistent : ∃ x, Satisfies size (withSymbol matrix id data) x) (known : KnownSources) :
    ∃ rows recovered, matrix.addKnownSource id data known = .ok ({ matrix with rows }, recovered) ∧
      ((Rows.Keyed matrix.field rows ∧ (recovered.map (·.1)).Nodup ∧
          ∀ other value, (other, value) ∈ recovered ↔
            other ≠ id ∧ ∀ y, Satisfies size (withSymbol matrix id data) y → y other = value) ↔
        id ∉ matrix.rows) := by
  obtain ⟨x, satisfies⟩ := consistent
  by_cases key : id ∈ matrix.rows
  · obtain ⟨rows, recovered, row, returned, stored, zero⟩ := addKnownSource_key echelon.shaped sized key known
    refine ⟨rows, recovered, returned, fun ⟨keyed, _⟩ => ?_, fun fresh => absurd key fresh⟩
    exact absurd (keyed.monic id row stored) (zero ▸ zero_ne_one)
  · obtain ⟨cleared, left, recovered, rewrites, extracted, returned⟩ :=
      addKnownSource_eq matrix echelon.shaped echelon.reduced echelon.unsolved sized key known
    have before : Solid matrix.field size (Submodule.span matrix.field.Elem (withSymbol matrix id data))
        (Rows.space matrix.field matrix.rows ∅) matrix.rows ∅ :=
      echelon.solid (fun equation member => Submodule.subset_span (.inr member)) fun _ _ _ _ none => none.elim
    have solid := before.substitute rewrites key (Submodule.subset_span (.inl rfl)) le_rfl
    obtain ⟨ends, unsolved, good⟩ := solid.extract extracted
    have lowest (pid : SourceSymbolId) (row : MatrixRow) (column : SourceSymbolId) (stored : left[pid]? = some row)
        (below : column < pid) : row.coef matrix.field column = 0 := by
      obtain ⟨before, old, clears⟩ := rewrites.backward pid row (extracted.of_left stored).1
      by_cases here : column = id
      · rw [here]
        exact clears.coef_column (Pi.single_eq_same _ _)
      · rw [clears.coef_other (Pi.single_eq_of_ne here _)]
        exact echelon.lowest pid before column old below
    refine ⟨left, recovered, returned, fun _ => key, fun _ => ⟨(Rows.Echelon.of_solid ends unsolved lowest).toKeyed,
      extracted.once, fun other value => ?_⟩⟩
    rw [ends.reported_iff positive satisfies unsolved]
    · simp
    · rintro equation (rfl | ⟨pid, row, stored, rfl⟩)
      · exact Submodule.mem_sup_right (Submodule.mem_span_singleton_self _)
      · refine Submodule.mem_sup_left ?_
        rw [show (row.equation matrix.field).1 = _ from (Rows.coefs_of stored).symm]
        exact row_mem (Rows.mem_keySet.mpr ⟨row, stored⟩)
    · intro symbol member
      refine ⟨fun old => ?_, (good symbol member).1, (good symbol member).2⟩
      obtain ⟨row, stored, solves⟩ := extracted.key_of (List.mem_map_of_mem member)
      exact solves.1 (solid.free symbol.1 row symbol.1 stored old)

section Examples

theorem halfway_withSymbol (maxRows : ℕ) (id : SourceSymbolId) :
    Satisfies 1 (withSymbol (halfway maxRows) id (Decoder.onlyFirst id)) Decoder.onlyFirst := by
  refine ⟨Decoder.onlyFirst_sized, ?_⟩
  rintro equation (rfl | member)
  · exact symbolEquation_mem_truths.mpr rfl
  · exact (halfway_consistent maxRows).holds equation (.inl (.inl member))

/-- The symbol that is no key gives the other one. -/
theorem addKnownSource_exact_iff_halfway : ∃ rows recovered,
    (halfway 2).addKnownSource 1 [1] ∅ = .ok ({ halfway 2 with rows }, recovered) ∧
      Rows.Keyed .gf2_4 rows ∧ (recovered.map (·.1)).Nodup ∧
      ∀ other value, (other, value) ∈ recovered ↔
        other ≠ 1 ∧ ∀ y, Satisfies 1 (withSymbol (halfway 2) 1 [1]) y → y other = value := by
  obtain ⟨rows, recovered, returned, exact⟩ := addKnownSource_exact_iff (by decide) (halfway_echelon 2)
    (show ([1] : Bytes).length = 1 from rfl) ⟨_, halfway_withSymbol 2 1⟩ ∅
  refine ⟨rows, recovered, returned, exact.mpr fun key => ?_⟩
  obtain ⟨row, stored⟩ := Rows.mem_keySet.mp key
  exact absurd (halfway_row stored).1 (by decide)

/-- The symbol that is the key leaves the other one in a row under a column that is zero. -/
theorem addKnownSource_exact_fails : ¬ ∀ (matrix : DecodingMatrix) size id data (known : KnownSources) rows recovered, 0 < size →
    Rows.Echelon matrix.field size matrix.rows → data.length = size → (∃ x, Satisfies size (withSymbol matrix id data) x) →
    matrix.addKnownSource id data known = .ok ({ matrix with rows }, recovered) →
    Rows.Keyed matrix.field rows ∧ (recovered.map (·.1)).Nodup ∧ ∀ other value, (other, value) ∈ recovered ↔
      other ≠ id ∧ ∀ y, Satisfies size (withSymbol matrix id data) y → y other = value := by
  intro claim
  have key : (0 : SourceSymbolId) ∈ (halfway 2).rows := by decide
  obtain ⟨rows, recovered, row, returned, stored, zero⟩ := addKnownSource_key (halfway_echelon 2).shaped
    (show ([0] : Bytes).length = 1 from rfl) key ∅
  obtain ⟨keyed, _⟩ := claim (halfway 2) 1 0 [0] ∅ rows recovered (by decide) (halfway_echelon 2) rfl
    ⟨_, halfway_withSymbol 2 0⟩ returned
  exact absurd (keyed.monic 0 row stored) (zero ▸ zero_ne_one)

end Examples

end Delp.DecodingMatrix
