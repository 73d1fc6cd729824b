import Mathlib

/-! Linear equations in unknowns indexed by `ι`, and systems of them in reduced form:
every row has coefficient one at its own key and zero at the key of every other row. -/

namespace Elimination
variable {ι K V : Type} [Field K] [AddCommGroup V] [Module K V]

/-- A coefficient for each unknown, and the value of their combination. -/
abbrev Equation (ι K V : Type) := (ι → K) × V

def known [DecidableEq ι] (i : ι) (value : V) : Equation ι K V := (Pi.single i 1, value)

def satisfied [Fintype ι] (x : ι → V) : Submodule K (Equation ι K V) where
  carrier := {equation | equation.2 = ∑ i, equation.1 i • x i}
  zero_mem' := by simp
  add_mem' := by
    intro first second left right
    simp only [Set.mem_ofPred_eq] at left right
    simp only [Set.mem_ofPred_eq, Prod.fst_add, Prod.snd_add, Pi.add_apply, add_smul, Finset.sum_add_distrib, left, right]
  smul_mem' := by
    intro c equation holds
    simp only [Set.mem_ofPred_eq] at holds
    simp only [Set.mem_ofPred_eq, Prod.smul_fst, Prod.smul_snd, Pi.smul_apply, smul_eq_mul, mul_smul,
      Finset.smul_sum, holds]

theorem mem_satisfied [Fintype ι] {x : ι → V} {equation : Equation ι K V} :
    equation ∈ satisfied x ↔ equation.2 = ∑ i, equation.1 i • x i := Iff.rfl

theorem known_mem_satisfied [Fintype ι] [DecidableEq ι] {x : ι → V} {i : ι} {value : V} :
    known i value ∈ satisfied (K := K) x ↔ value = x i := by
  rw [mem_satisfied]
  simp [known, Pi.single_apply, ite_smul]

/-- Keys with their rows in reduced form. -/
structure Reduced (keys : Set ι) (row : ι → ι → K) : Prop where
  pivot : ∀ p ∈ keys, row p p = 1
  clear : ∀ p ∈ keys, ∀ q ∈ keys, p ≠ q → row p q = 0
  absent : ∀ p ∉ keys, row p = 0

namespace Reduced
variable {keys : Set ι} {row row' : ι → ι → K}

/-- Adding multiples of a vector that is zero at every key keeps the form. -/
theorem eliminate (reduced : Reduced keys row) (c : ι → K) {v : ι → K} (free : ∀ q ∈ keys, v q = 0)
    (cleared : ∀ p ∈ keys, row' p = row p + c p • v) (absent : ∀ p ∉ keys, row' p = 0) : Reduced keys row' := by
  have same {p q : ι} (key : p ∈ keys) (column : q ∈ keys) : row' p q = row p q := by
    rw [cleared p key, Pi.add_apply, Pi.smul_apply, free q column, smul_zero, add_zero]
  refine ⟨fun p key => ?_, fun p key q column apart => ?_, absent⟩
  · rw [same key key, reduced.pivot p key]
  · rw [same key column, reduced.clear p key q column apart]

/-- Dropping rows keeps the form. -/
theorem restrict (reduced : Reduced keys row) {fewer : Set ι} (subset : fewer ⊆ keys)
    (same : ∀ p ∈ fewer, row' p = row p) (absent : ∀ p ∉ fewer, row' p = 0) : Reduced fewer row' := by
  refine ⟨fun p key => ?_, fun p key q column apart => ?_, absent⟩
  · rw [same p key, reduced.pivot p (subset key)]
  · rw [same p key, reduced.clear p (subset key) q (subset column) apart]

/-- A monic row that is zero at the keys can join rows that are zero at its own. -/
theorem insert (reduced : Reduced keys row) {p : ι} (monic : row' p p = 1) (free : ∀ q ∈ keys, row' p q = 0)
    (clear : ∀ q ∈ keys, row q p = 0) (same : ∀ q, q ≠ p → row' q = row q) : Reduced (Insert.insert p keys) row' := by
  have fresh : ∀ q ∈ keys, q ≠ p := fun q key here => zero_ne_one ((free p (here ▸ key)).symm.trans monic)
  refine ⟨fun q key => ?_, fun q key r column apart => ?_, fun q missing => ?_⟩
  · rcases key with rfl | key
    · exact monic
    · rw [same q (fresh q key), reduced.pivot q key]
  · rcases key with rfl | key
    · exact free r (column.resolve_left fun here => apart here.symm)
    · rw [same q (fresh q key)]
      rcases column with rfl | column
      · exact clear q key
      · exact reduced.clear q key r column apart
  · rw [same q fun here => missing (.inl here), reduced.absent q fun key => missing (.inr key)]

end Reduced

section Space
variable [DecidableEq ι]

/-- What the rows and the known unknowns determine. -/
def rowSpace (keys : Set ι) (row : ι → ι → K) (found : Set ι) : Submodule K (ι → K) :=
  Submodule.span K (row '' keys ∪ (fun k => Pi.single k 1) '' found)

variable {keys found : Set ι} {row : ι → ι → K} {space : Submodule K (ι → K)}

theorem row_mem {p : ι} (key : p ∈ keys) : row p ∈ rowSpace keys row found :=
  Submodule.subset_span (.inl ⟨p, key, rfl⟩)

theorem single_mem {k : ι} (known : k ∈ found) : (Pi.single k 1 : ι → K) ∈ rowSpace keys row found :=
  Submodule.subset_span (.inr ⟨k, known, rfl⟩)

theorem rowSpace_le (rows : ∀ p ∈ keys, row p ∈ space) (units : ∀ k ∈ found, (Pi.single k 1 : ι → K) ∈ space) :
    rowSpace keys row found ≤ space := by
  refine Submodule.span_le.mpr ?_
  rintro v (⟨p, key, rfl⟩ | ⟨k, known, rfl⟩)
  · exact rows p key
  · exact units k known

end Space

section Residue
variable [Fintype ι] {keys : Set ι} {row : ι → ι → K}

/-- What is left at column `j` of a vector from which the rows have been eliminated. -/
def residue (row : ι → ι → K) (j : ι) : (ι → K) →ₗ[K] K :=
  (LinearMap.proj j : (ι → K) →ₗ[K] K) - ∑ p, row p j • (LinearMap.proj p : (ι → K) →ₗ[K] K)

theorem residue_apply (row : ι → ι → K) (j : ι) (v : ι → K) :
    residue row j v = v j - ∑ p, row p j * v p := by
  simp [residue, LinearMap.sum_apply]

theorem residue_row (reduced : Reduced keys row) (j : ι) {p : ι} (member : p ∈ keys) :
    residue row j (row p) = 0 := by
  rw [residue_apply, Finset.sum_eq_single p]
  · rw [reduced.pivot p member, mul_one, sub_self]
  · intro q _ other
    by_cases key : q ∈ keys
    · rw [reduced.clear p member q key other.symm, mul_zero]
    · rw [reduced.absent q key, Pi.zero_apply, zero_mul]
  · exact fun missing => absurd (Finset.mem_univ p) missing

variable [DecidableEq ι]

theorem residue_single (row : ι → ι → K) (i j : ι) :
    residue row j (Pi.single i 1) = (if j = i then 1 else 0) - row i j := by
  rw [residue_apply, Pi.single_apply, Finset.sum_eq_single i]
  · rw [Pi.single_eq_same, mul_one]
  · intro p _ other
    rw [Pi.single_eq_of_ne other, mul_zero]
  · exact fun missing => absurd (Finset.mem_univ i) missing

/-- A reduced system determines the unknowns already known, and those whose row mentions no other. -/
theorem single_mem_rowSpace_iff (reduced : Reduced keys row) {found : Set ι} (free : ∀ p ∈ keys, ∀ k ∈ found, row p k = 0)
    {i : ι} : (Pi.single i 1 : ι → K) ∈ rowSpace keys row found ↔ i ∈ found ∨ i ∈ keys ∧ ∀ j, j ≠ i → row i j = 0 := by
  constructor
  · intro member
    by_contra undetermined
    rw [not_or, not_and] at undetermined
    obtain ⟨missing, unsolved⟩ := undetermined
    -- the column at which the unit vector survives elimination
    obtain ⟨j, foundFree, keyFree, survives⟩ : ∃ j, j ∉ found ∧ j ∉ keys ∧
        (if j = i then 1 else 0) - row i j ≠ 0 := by
      by_cases key : i ∈ keys
      · simp only [not_forall] at unsolved
        obtain ⟨j, other, nonzero⟩ := unsolved key
        refine ⟨j, fun known => nonzero (free i key j known), fun second =>
          nonzero (reduced.clear i key j second other.symm), ?_⟩
        rwa [if_neg other, zero_sub, neg_ne_zero]
      · refine ⟨i, missing, key, ?_⟩
        rw [if_pos rfl, reduced.absent i key, Pi.zero_apply, sub_zero]
        exact one_ne_zero
    have vanishes : rowSpace keys row found ≤ LinearMap.ker (residue row j) := by
      refine rowSpace_le (fun p key => residue_row reduced j key) fun k known => ?_
      · have other : j ≠ k := fun same => foundFree (same ▸ known)
        have clear : row k j = 0 := by
          by_cases key : k ∈ keys
          · exact absurd (reduced.pivot k key) (by rw [free k key k known]; exact zero_ne_one)
          · rw [reduced.absent k key, Pi.zero_apply]
        rw [LinearMap.mem_ker, residue_single, if_neg other, clear, sub_zero]
    have zero := LinearMap.mem_ker.mp (vanishes member)
    rw [residue_single] at zero
    exact survives zero
  · rintro (known | ⟨key, zeros⟩)
    · exact single_mem known
    · have unit : row i = Pi.single i 1 := by
        funext j
        by_cases here : j = i
        · rw [here, reduced.pivot i key, Pi.single_eq_same]
        · rw [zeros j here, Pi.single_eq_of_ne here]
      exact unit ▸ row_mem key

/-- A reduced system without solved rows determines exactly the unknowns already known. -/
theorem single_mem_span_iff (reduced : Reduced keys row) {found : Set ι}
    (free : ∀ p ∈ keys, ∀ k ∈ found, row p k = 0) (unsolved : ∀ p ∈ keys, ∃ j, j ≠ p ∧ row p j ≠ 0) {i : ι} :
    (Pi.single i 1 : ι → K) ∈ rowSpace keys row found ↔ i ∈ found := by
  rw [single_mem_rowSpace_iff reduced free, or_iff_left]
  rintro ⟨key, zeros⟩
  obtain ⟨j, other, nonzero⟩ := unsolved i key
  exact nonzero (zeros j other)

end Residue

section Combinations
variable {n count : ℕ} {space : Submodule K V}

/-- Vectors are in every space that holds nonsingular combinations of them. -/
theorem mem_of_nonsingular {M : Matrix (Fin n) (Fin n) K} (nonsingular : M.det ≠ 0) {v : Fin n → V}
    (inside : ∀ j, ∑ i, M i j • v i ∈ space) (i : Fin n) : v i ∈ space := by
  have inverse : M * M⁻¹ = 1 := Matrix.mul_nonsing_inv M (isUnit_iff_ne_zero.mpr nonsingular)
  have entry (other : Fin n) : ∑ j, M other j * M⁻¹ j i = if other = i then 1 else 0 := by
    rw [← Matrix.mul_apply, inverse, Matrix.one_apply]
  have combined : ∑ j, M⁻¹ j i • ∑ other, M other j • v other = v i := by
    simp only [Finset.smul_sum, smul_smul]
    rw [Finset.sum_comm]
    simp only [mul_comm (M⁻¹ _ i), ← Finset.sum_smul, entry, ite_smul, one_smul, zero_smul, Finset.sum_ite_eq', Finset.mem_univ,
      if_true]
  rw [← combined]
  exact space.sum_mem fun j _ => space.smul_mem _ (inside j)

/-- As many combinations as lost vectors, nonsingular at these, bring them back once the others are there. -/
theorem lost_mem {v : Fin count → V} {c : Fin n → Fin count → K} (equations : ∀ j, ∑ p, c j p • v p ∈ space)
    {place : Fin n → Fin count} (apart : Function.Injective place) (others : ∀ p, (∀ i, place i ≠ p) → v p ∈ space)
    (nonsingular : (Matrix.of fun i j => c j (place i)).det ≠ 0) (i : Fin n) : v (place i) ∈ space := by
  refine mem_of_nonsingular nonsingular (v := fun i => v (place i)) (fun j => ?_) i
  have split := Finset.sum_add_sum_compl (Finset.univ.image place) fun p => c j p • v p
  rw [Finset.sum_image fun a _ b _ same => apart same] at split
  have rest : ∑ p ∈ (Finset.univ.image place)ᶜ, c j p • v p ∈ space := by
    refine space.sum_mem fun p outside => space.smul_mem _ (others p fun i same => ?_)
    exact Finset.mem_compl.mp outside (Finset.mem_image.mpr ⟨i, Finset.mem_univ i, same⟩)
  refine (space.add_mem_iff_left rest).mp ?_
  have whole := equations j
  rw [← split] at whole
  exact whole

end Combinations
end Elimination
