import Mathlib.LinearAlgebra.Vandermonde

/-! Matrices of successive powers: a Vandermonde matrix whose exponents need not start at zero. -/

universe u

namespace VandermondeMatrix

variable {K : Type u} [Field K] {n : ℕ} {x : Fin n → K}

/-- Row `i` holds the powers of its point from the `first` one on. -/
def successive (x : Fin n → K) (first : ℕ) : Matrix (Fin n) (Fin n) K := .of fun i j => x i ^ (first + j)

/-- With distinct points other than zero the matrix is nonsingular. -/
theorem det_ne_zero (distinct : Function.Injective x) (nonzero : ∀ i, x i ≠ 0) (first : ℕ) : (successive x first).det ≠ 0 := by
  have scaled : successive x first = .of fun i j => x i ^ first * Matrix.vandermonde x i j :=
    Matrix.ext fun i j => pow_add (x i) first j
  rw [scaled, Matrix.det_mul_column]
  apply mul_ne_zero
  · exact Finset.prod_ne_zero_iff.mpr fun i _ => pow_ne_zero first (nonzero i)
  · exact Matrix.det_vandermonde_ne_zero_iff.mpr distinct

end VandermondeMatrix
