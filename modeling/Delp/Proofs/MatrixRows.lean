import Delp.Lib.Elimination
import Delp.Proofs.DenseRows
import Mathlib.Data.FinEnum

/-! Matrix rows as linear equations over the decoder's field. Every row operation of the
decoder clears one column of a row with an equation that is monic there. -/

namespace Delp
open Machine Gf Elimination

/-- The equations of a decoder: over its field, in symbols indexed by source id. -/
abbrev SymbolEquation (field : Config.Field) := Equation SourceSymbolId field.Elem (ℕ → field.Elem)

def symbolEquation (field : Config.Field) (id : SourceSymbolId) (data : Bytes) : SymbolEquation field :=
  known id (symbol field data)

theorem gfInv_eq {field : Config.Field} {c : UInt8} (inside : InField field c) (nonzero : c ≠ 0) :
    ∃ inv, gfInv c field = .ok inv ∧ elem field inv * elem field c = 1 := by
  unfold gfInv
  rw [if_neg nonzero]
  cases field with
  | gf2_8 =>
    obtain ⟨b, returned, product⟩ := Gf2_8.inv_eq (a := ⟨c⟩) nonzero
    refine ⟨b.value, by simp only [returned, Outcome.ok_bind, Outcome.pure_def], ?_⟩
    rw [mul_comm]
    exact product
  | gf2_4 =>
    have masked : (Gf2_4.fromU8 c).value = c := and_of_lt inside
    obtain ⟨b, returned, product⟩ := Gf2_4.inv_eq (a := .fromU8 c) (by rwa [masked])
    refine ⟨b.value, by simp only [returned, Outcome.ok_bind, Outcome.pure_def], ?_⟩
    have same : elem .gf2_4 b.value = b := Gf2_4.ext (and_of_lt b.low)
    rw [mul_comm, same]
    exact product

namespace MatrixRow

structure Shaped (field : Config.Field) (size : ℕ) (row : MatrixRow) : Prop where
  coefs : row.coefs.Shaped field
  payload : row.payload.length = size

def coef (field : Config.Field) (row : MatrixRow) (id : SourceSymbolId) : field.Elem := elem field (row.coefs.get id)

def equation (field : Config.Field) (row : MatrixRow) : SymbolEquation field :=
  (row.coef field, symbol field row.payload)

variable {field : Config.Field} {size : ℕ} {row other : MatrixRow}

theorem Shaped.get_eq_zero (shaped : row.Shaped field size) {id : SourceSymbolId} :
    row.coefs.get id = 0 ↔ row.coef field id = 0 :=
  (elem_eq_zero (DenseCoefs.get_inField shaped.coefs id)).symm

theorem coefs_of_equation {equation : SymbolEquation field} (same : row.equation field = equation) :
    row.coef field = equation.1 :=
  congrArg Prod.fst same

/-- A row with one column cleared by a multiple of an equation that is monic there. -/
structure Clears (field : Config.Field) (size : ℕ) (column : SourceSymbolId) (pivot : SymbolEquation field)
    (row cleared : MatrixRow) : Prop where
  shaped : cleared.Shaped field size
  bounded : cleared.coefs.Bounded ↔ row.coefs.Bounded
  equation : cleared.equation field = row.equation field + row.coef field column • pivot
  same : row.coef field column = 0 → cleared = row

namespace Clears
variable {column : SourceSymbolId} {pivot : SymbolEquation field} {cleared : MatrixRow}

theorem coefs_eq (clears : Clears field size column pivot row cleared) :
    cleared.coef field = row.coef field + row.coef field column • pivot.1 :=
  coefs_of_equation clears.equation

theorem coef_eq (clears : Clears field size column pivot row cleared) (id : SourceSymbolId) :
    cleared.coef field id = row.coef field id + row.coef field column * pivot.1 id :=
  congrFun clears.coefs_eq id

theorem coef_column (clears : Clears field size column pivot row cleared) (monic : pivot.1 column = 1) :
    cleared.coef field column = 0 := by
  rw [clears.coef_eq, monic, mul_one, add_self]

theorem coef_other (clears : Clears field size column pivot row cleared) {id : SourceSymbolId}
    (absent : pivot.1 id = 0) : cleared.coef field id = row.coef field id := by
  rw [clears.coef_eq, absent, mul_zero, add_zero]

theorem restore (clears : Clears field size column pivot row cleared) :
    row.equation field = cleared.equation field + row.coef field column • pivot := by
  have twice (value : SymbolEquation field) : value + value = 0 := by
    ext
    · exact add_self _
    · exact add_self _
  rw [clears.equation, add_assoc, twice, add_zero]

end Clears

theorem subtractScaled_clears (shaped : row.Shaped field size) (otherShaped : other.Shaped field size)
    {column : SourceSymbolId} (nonzero : row.coef field column ≠ 0) (admits : row.coefs.Admits other.coefs) :
    ∃ cleared, row.subtractScaled other (row.coefs.get column) field = .ok cleared ∧
      Clears field size column (other.equation field) row cleared := by
  obtain ⟨coefs, subtracted, sum⟩ :=
    DenseCoefs.subtractScaled_eq shaped.coefs otherShaped.coefs admits (row.coefs.get column)
  have length : row.payload.length = other.payload.length := by rw [shaped.payload, otherShaped.payload]
  refine ⟨_, by rw [subtractScaled, subtracted, Outcome.ok_bind, mulAcc_eq length, Outcome.ok_bind, Outcome.pure_def],
    ⟨sum.shaped, ?_⟩, sum.bounded, Prod.ext ?_ ?_, fun zero => absurd zero nonzero⟩
  · rw [List.length_zipWith, List.length_map, ← length, Nat.min_self, shaped.payload]
  · funext id
    change elem field (coefs.get id) = elem field (row.coefs.get id) + elem field _ * elem field (other.coefs.get id)
    rw [sum.get, elem_xor, elem_mulByte (DenseCoefs.get_inField otherShaped.coefs id)]
  · change symbol field (row.payload.zipWith _ _) = symbol field row.payload + elem field _ • symbol field other.payload
    rw [symbol_xor (by rw [List.length_map, length]), symbol_mulByte]

theorem admits_of_subtractScaled (shaped : row.Shaped field size) (otherShaped : other.Shaped field size)
    {column id : SourceSymbolId} (nonzero : row.coef field column ≠ 0) (some : other.coef field id ≠ 0) {cleared : MatrixRow}
    (returned : row.subtractScaled other (row.coefs.get column) field = .ok cleared) :
    row.coefs.Admits other.coefs ∧
      (row.coefs.coefs ≠ [] → cleared.coefs.coefs ≠ [] ∧
        (cleared.coefs.baseId = 0 ↔ row.coefs.baseId = 0 ∨ other.coefs.baseId = 0)) := by
  have filled : other.coefs.coefs ≠ [] := by
    intro empty
    refine some (otherShaped.get_eq_zero.mp ?_)
    rw [DenseCoefs.get_eq, empty, List.getD_nil, ite_self]
  have factor : row.coefs.get column ≠ 0 := fun zero => nonzero (shaped.get_eq_zero.mp zero)
  rw [subtractScaled] at returned
  obtain ⟨coefs, subtracted, returned⟩ := Outcome.bind_eq_ok.mp returned
  obtain ⟨payload, _, returned⟩ := Outcome.bind_eq_ok.mp returned
  cases returned
  have admits := DenseCoefs.admits_of_subtractScaled otherShaped.coefs.addressed filled factor subtracted
  obtain ⟨_, again, sum⟩ := DenseCoefs.subtractScaled_eq shaped.coefs otherShaped.coefs admits (row.coefs.get column)
  cases subtracted.symm.trans again
  exact ⟨admits, fun rowFilled => ⟨sum.filled rowFilled, sum.start rowFilled filled factor⟩⟩

theorem substitute_clears (shaped : row.Shaped field size) {data : Bytes} (sized : data.length = size)
    {id : SourceSymbolId} (nonzero : row.coef field id ≠ 0) :
    ∃ cleared, row.substitute id data (row.coefs.get id) field = .ok cleared ∧
      Clears field size id (symbolEquation field id data) row cleared := by
  have length : row.payload.length = data.length := by rw [shaped.payload, sized]
  refine ⟨_, by rw [substitute, mulAcc_eq length, Outcome.ok_bind, Outcome.pure_def],
    ⟨DenseCoefs.remove_shaped shaped.coefs id, ?_⟩, DenseCoefs.remove_bounded _ id, Prod.ext ?_ ?_, fun zero => absurd zero nonzero⟩
  · rw [List.length_zipWith, List.length_map, ← length, Nat.min_self, shaped.payload]
  · funext query
    change elem field ((row.coefs.remove id).get query) =
      elem field (row.coefs.get query) + elem field (row.coefs.get id) * (Pi.single id 1 : SourceSymbolId → field.Elem) query
    rw [DenseCoefs.get_remove, Pi.single_apply]
    split
    next here => rw [here, mul_one, add_self, elem_zero]
    next => rw [mul_zero, add_zero]
  · change symbol field (row.payload.zipWith _ _) = symbol field row.payload + elem field _ • symbol field data
    rw [symbol_xor (by rw [List.length_map, length]), symbol_mulByte]

theorem clears_of_zero (shaped : row.Shaped field size) {column : SourceSymbolId} (pivot : SymbolEquation field)
    (zero : row.coef field column = 0) : Clears field size column pivot row row :=
  ⟨shaped, Iff.rfl, by rw [zero, zero_smul, add_zero], fun _ => rfl⟩

structure Normalizes (field : Config.Field) (size : ℕ) (row normal : MatrixRow) (pivot : SourceSymbolId) : Prop where
  shaped : normal.Shaped field size
  leads : normal.coefs.pivotId = .ok (some pivot)
  nonzero : row.coef field pivot ≠ 0
  first : ∀ id < pivot, row.coef field id = 0
  monic : normal.coef field pivot = 1
  bounded : normal.coefs.Bounded ↔ row.coefs.Bounded
  start : normal.coefs.baseId = row.coefs.baseId
  multiple : ∃ scale : field.Elem, scale ≠ 0 ∧ normal.equation field = scale • row.equation field

theorem normalize_eq (shaped : row.Shaped field size) (nonzero : row.coefs.isZero = false) :
    ∃ normal pivot, row.normalize field = .ok normal ∧ Normalizes field size row normal pivot := by
  obtain ⟨pivot, c, leads⟩ := DenseCoefs.exists_pivot shaped.coefs nonzero
  have inside : InField field c := leads.coef ▸ DenseCoefs.get_inField shaped.coefs pivot
  have pivotNonzero : row.coef field pivot ≠ 0 := by
    rw [ne_eq, ← shaped.get_eq_zero, leads.coef]
    exact leads.nonzero
  have first (id : SourceSymbolId) (before : id < pivot) : row.coef field id = 0 :=
    shaped.get_eq_zero.mp (leads.first id before)
  unfold normalize
  rw [leads.pivotCoef]
  dsimp only
  split
  next one =>
    exact ⟨row, pivot, rfl, shaped, leads.pivotId, pivotNonzero, first, by rw [coef, leads.coef, one, elem_one],
      Iff.rfl, rfl, 1, one_ne_zero, (one_smul _ _).symm⟩
  next =>
    obtain ⟨inv, inverted, product⟩ := gfInv_eq inside leads.nonzero
    rw [inverted, Outcome.ok_bind, mulScale_eq, Outcome.pure_def]
    have invNonzero : elem field inv ≠ 0 := by
      intro zero
      rw [zero, zero_mul] at product
      exact zero_ne_one product
    have scaledShaped := DenseCoefs.scale_shaped shaped.coefs inv
    have scaled (id : SourceSymbolId) : elem field ((row.coefs.scale inv field).get id) =
        elem field inv * elem field (row.coefs.get id) := by
      rw [DenseCoefs.get_scale, elem_mulByte (DenseCoefs.get_inField shaped.coefs id)]
    have zeros (id : SourceSymbolId) : (row.coefs.scale inv field).get id = 0 ↔ row.coefs.get id = 0 := by
      rw [← elem_eq_zero (DenseCoefs.get_inField scaledShaped id), scaled, mul_eq_zero, or_iff_right invNonzero,
        elem_eq_zero (DenseCoefs.get_inField shaped.coefs id)]
    have scaledNonzero : (row.coefs.scale inv field).isZero = false := by
      rw [← Bool.not_eq_true, DenseCoefs.isZero_iff scaledShaped]
      exact fun all => leads.nonzero (leads.coef ▸ (zeros pivot).mp (all pivot))
    obtain ⟨again, d, scaledLeads⟩ := DenseCoefs.exists_pivot scaledShaped scaledNonzero
    -- scaling keeps the first nonzero column
    have same : again = pivot := by
      have notBefore : ¬ again < pivot := fun before => scaledLeads.nonzero
        (scaledLeads.coef ▸ (zeros again).mpr (leads.first again before))
      have notAfter : ¬ pivot < again := fun before => leads.nonzero
        (leads.coef ▸ (zeros pivot).mp (scaledLeads.first pivot before))
      rw [lt_iff] at notBefore notAfter
      rw [eq_iff]
      omega
    refine ⟨_, pivot, rfl, ⟨scaledShaped, ?_⟩, same ▸ scaledLeads.pivotId, pivotNonzero, first, ?_,
      DenseCoefs.scale_bounded _ inv, rfl, elem field inv, invNonzero, Prod.ext (funext scaled) (symbol_mulByte inv row.payload)⟩
    · rw [List.length_map, shaped.payload]
    · exact (scaled pivot).trans (by rw [leads.coef, product])

theorem isZero_of_normalize {normal : MatrixRow} (returned : row.normalize field = .ok normal) : row.coefs.isZero = false := by
  rw [← Bool.not_eq_true, DenseCoefs.isZero, List.all_eq_true]
  intro zeros
  have none : row.coefs.pivotCoef = none := List.find?_eq_none.mpr fun c member => by simpa using zeros c member
  rw [normalize, none] at returned
  cases returned

def Solves (field : Config.Field) (row : MatrixRow) (id : SourceSymbolId) : Prop :=
  row.coef field id ≠ 0 ∧ ∀ other, other ≠ id → row.coef field other = 0

theorem isSolved_eq (shaped : row.Shaped field size) :
    ∃ found, row.coefs.isSolved = .ok found ∧ ∀ id, found = some id ↔ row.Solves field id := by
  obtain ⟨found, returned, solved⟩ := DenseCoefs.isSolved_eq shaped.coefs
  refine ⟨found, returned, fun id => (solved id).trans ?_⟩
  simp only [DenseCoefs.Solved, Solves, ne_eq, shaped.get_eq_zero]

theorem Solves.equation_eq {id : SourceSymbolId} (solves : row.Solves field id) (monic : row.coef field id = 1) :
    row.equation field = symbolEquation field id row.payload := by
  refine Prod.ext (funext fun other => ?_) rfl
  change row.coef field other = (Pi.single id 1 : SourceSymbolId → field.Elem) other
  rw [Pi.single_apply]
  split
  next same => rw [same, monic]
  next apart => exact solves.2 other apart

theorem Solves.lt_max (shaped : row.Shaped field size) (bounded : row.coefs.Bounded) {id : SourceSymbolId} (solves : row.Solves field id) :
    id < 0xFFFFFFFF := by
  obtain ⟨above, inside⟩ := DenseCoefs.entry_of_get (fun zero => solves.1 (shaped.get_eq_zero.mp zero))
  rw [lt_iff]
  change id.toNat < 4294967295
  unfold DenseCoefs.Bounded at bounded
  omega

end MatrixRow
end Delp
