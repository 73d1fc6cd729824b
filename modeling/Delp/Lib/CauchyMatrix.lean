import Mathlib.LinearAlgebra.Lagrange
import Mathlib.LinearAlgebra.Matrix.ToLinearEquiv

/-! Cauchy matrices: rows and columns at points of a field, apart from one another. -/

universe u

namespace CauchyMatrix
open Polynomial Matrix

variable {K : Type u} [Field K] {n : ℕ} (x y : Fin n → K)

/-- The entry of row `i` and column `j` is the inverse of the distance of their points. -/
def cauchy : Matrix (Fin n) (Fin n) K := .of fun i j => (x j - y i)⁻¹

variable {x y}

/-- The polynomial of a vector that the matrix annihilates vanishes at every row point. -/
private theorem eval_nodal_sum {v : Fin n → K} (apart : ∀ i j, x j ≠ y i) (annihilated : cauchy x y *ᵥ v = 0) (i : Fin n) :
    (∑ j, C (v j) * Lagrange.nodal (Finset.univ.erase j) x).eval (y i) = 0 := by
  have row : ∑ j, (x j - y i)⁻¹ * v j = 0 := congrFun annihilated i
  have term (j : Fin n) : (C (v j) * Lagrange.nodal (Finset.univ.erase j) x).eval (y i) =
      -(Lagrange.nodal Finset.univ x).eval (y i) * ((x j - y i)⁻¹ * v j) := by
    have factor : (Lagrange.nodal Finset.univ x).eval (y i) =
        (y i - x j) * (Lagrange.nodal (Finset.univ.erase j) x).eval (y i) := by
      rw [Lagrange.nodal_eq_mul_nodal_erase (Finset.mem_univ j), eval_mul, eval_sub, eval_X, eval_C]
    have distance : x j - y i ≠ 0 := sub_ne_zero.mpr (apart i j)
    rw [factor, eval_mul, eval_C]
    field_simp
    ring
  rw [eval_finsetSum, Finset.sum_congr rfl fun j _ => term j, ← Finset.mul_sum, row, mul_zero]

/-- With distinct row points and distinct column points the matrix is nonsingular. -/
theorem det_ne_zero (columns : Function.Injective x) (rows : Function.Injective y) (apart : ∀ i j, x j ≠ y i) :
    (cauchy x y).det ≠ 0 := by
  rw [Ne, ← exists_mulVec_eq_zero_iff]
  rintro ⟨v, nonzero, annihilated⟩
  obtain ⟨place, entry⟩ := Function.ne_iff.mp nonzero
  have short : ∑ j, C (v j) * Lagrange.nodal (Finset.univ.erase j) x ∈ degreeLT K n := by
    refine Submodule.sum_mem _ fun j _ => ?_
    rw [C_mul']
    refine Submodule.smul_mem _ _ (mem_degreeLT.mpr ?_)
    rw [Lagrange.degree_nodal, Finset.card_erase_of_mem (Finset.mem_univ j), Finset.card_univ, Fintype.card_fin]
    exact_mod_cast Nat.sub_one_lt_of_lt j.pos
  have vanishes : ∑ j, C (v j) * Lagrange.nodal (Finset.univ.erase j) x = 0 := by
    refine eq_zero_of_degree_lt_of_eval_index_eq_zero Finset.univ rows.injOn ?_ fun i _ => eval_nodal_sum apart annihilated i
    rw [Finset.card_univ, Fintype.card_fin]
    exact mem_degreeLT.mp short
  -- at a column point only the term of that column is left
  have column := congrArg (eval (x place)) vanishes
  rw [eval_finsetSum, eval_zero, Finset.sum_eq_single place, eval_mul, eval_C, mul_eq_zero] at column
  · rcases column with zero | zero
    · exact entry zero
    · refine Lagrange.eval_nodal_not_at_node (fun j other => ?_) zero
      exact columns.ne (Finset.ne_of_mem_erase other).symm
  · intro j _ other
    rw [eval_mul, Lagrange.eval_nodal_at_node (Finset.mem_erase.mpr ⟨other.symm, Finset.mem_univ place⟩), mul_zero]
  · exact fun absent => absurd (Finset.mem_univ place) absent

theorem det_eq_zero {i j : Fin n} (differ : i ≠ j) (same : y i = y j) : (cauchy x y).det = 0 :=
  det_zero_of_row_eq differ (funext fun k => by simp only [cauchy, of_apply, same])

end CauchyMatrix
