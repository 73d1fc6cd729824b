import Delp.Gf.Symbols
import Delp.Lib.VandermondeMatrix
import Delp.Wire.CoefGen

/-! The Vandermonde generator as powers: the coefficient of a source id in a coded packet is the
power of its point that the coded id says. -/

namespace Delp
open Machine Gf

namespace CoefGen

/-- The powers of the generator, from which the tables are built. -/
def generatorPower (field : Config.Field) (n : ℕ) : field.Elem :=
  match field with
  | .gf2_8 => (Gf2_8.bytes.field gf2_8_generates).power n
  | .gf2_4 => (Gf2_4.nibbles.field gf2_4_generates).power n

def powers (field : Config.Field) : ℕ :=
  match field with
  | .gf2_8 => gf2_8Order - 1
  | .gf2_4 => gf2_4Order - 1

variable {field : Config.Field}

theorem generatorPower_add (m n : ℕ) : generatorPower field (m + n) = generatorPower field m * generatorPower field n := by
  cases field with
  | gf2_8 => exact ((Gf2_8.bytes.field gf2_8_generates).power_mul_power m n).symm
  | gf2_4 => exact ((Gf2_4.nibbles.field gf2_4_generates).power_mul_power m n).symm

theorem generatorPower_mul (m n : ℕ) : generatorPower field (m * n) = generatorPower field m ^ n := by
  induction n with
  | zero => cases field <;> rfl
  | succ n ih => rw [Nat.mul_succ, generatorPower_add, ih, pow_succ]

theorem generatorPower_ne_zero (n : ℕ) : generatorPower field n ≠ 0 := by
  cases field with
  | gf2_8 => exact (Gf2_8.bytes.field gf2_8_generates).power_ne_zero n
  | gf2_4 => exact (Gf2_4.nibbles.field gf2_4_generates).power_ne_zero n

/-- Powers repeat with the order of the generator, and not before. -/
theorem generatorPower_inj {m n : ℕ} (same : generatorPower field m = generatorPower field n) :
    m % powers field = n % powers field := by
  cases field with
  | gf2_8 =>
    have values := congrArg Gf2_8.bytes.value same
    simp only [generatorPower, Represents.value_power] at values
    rw [← gf2_8_generates.power_mod m, ← gf2_8_generates.power_mod n] at values
    exact Function.iterate_injOn_Iio_minimalPeriod
      (by rw [gf2_8_generates.minimal]; exact Nat.mod_lt m (by decide))
      (by rw [gf2_8_generates.minimal]; exact Nat.mod_lt n (by decide)) values
  | gf2_4 =>
    have values := congrArg Gf2_4.nibbles.value same
    simp only [generatorPower, Represents.value_power] at values
    rw [← gf2_4_generates.power_mod m, ← gf2_4_generates.power_mod n] at values
    exact Function.iterate_injOn_Iio_minimalPeriod
      (by rw [gf2_4_generates.minimal]; exact Nat.mod_lt m (by decide))
      (by rw [gf2_4_generates.minimal]; exact Nat.mod_lt n (by decide)) values

private theorem exponent (srcId codedId : UInt32) {n : ℕ} (small : 0 < n ∧ n ≤ 255) :
    (UInt32.ofNat (srcId.toNat * codedId.toNat % n)).toNat % n = srcId.toNat * codedId.toNat % n := by
  have below := Nat.mod_lt (srcId.toNat * codedId.toNat) small.1
  rw [toNat_ofNat (by omega), Nat.mod_mod]

theorem vandermondeCoef_eq (srcId : UInt32) {codedId : UInt32} (positive : 1 ≤ codedId) :
    ∃ c, vandermondeCoef field srcId codedId = .ok c ∧ InField field c ∧
      elem field c = generatorPower field srcId.toNat ^ codedId.toNat := by
  cases field with
  | gf2_8 =>
    refine ⟨gf2_8Exp.getD (srcId.toNat * codedId.toNat % 255) 0, ?_, trivial, ?_⟩
    · rw [vandermondeCoef, Gf2_8.vandermonde, Outcome.require_of positive, Outcome.ok_bind]
      change Outcome.ok (gf2_8Exp.getD ((UInt32.ofNat (srcId.toNat * codedId.toNat % 255)).toNat % 255) 0) = _
      rw [exponent srcId codedId (by decide)]
    · rw [← generatorPower_mul]
      apply Gf2_8.ext
      have below := Nat.mod_lt (srcId.toNat * codedId.toNat) (show 0 < 255 by decide)
      refine (getD_gf2_8Exp (by omega)).trans ?_
      rw [gf2_8_generates.power_mod]
      exact (Gf2_8.bytes.value_power gf2_8_generates _).symm
  | gf2_4 =>
    refine ⟨gf2_4Exp.getD (srcId.toNat * codedId.toNat % 15) 0, ?_, Gf2_4.exp_lt _, ?_⟩
    · rw [vandermondeCoef, Gf2_4.vandermonde, Outcome.require_of positive, Outcome.ok_bind]
      change Outcome.ok (gf2_4Exp.getD ((UInt32.ofNat (srcId.toNat * codedId.toNat % 15)).toNat % 15) 0) = _
      rw [exponent srcId codedId (by decide)]
    · rw [← generatorPower_mul]
      apply Gf2_4.ext
      change gf2_4Exp.getD (srcId.toNat * codedId.toNat % 15) 0 &&& 0x0F = _
      rw [and_of_lt (Gf2_4.exp_lt _), getD_gf2_4Exp]
      exact (Gf2_4.nibbles.value_power gf2_4_generates _).symm

/-- The coefficients of ids with distinct points, in as many successive packets, are nonsingular. -/
theorem vandermonde_square {k : ℕ} {ids : Fin k → UInt32} {first : UInt32}
    (distinct : Function.Injective fun i => (ids i).toNat % powers field) (positive : 1 ≤ first)
    (fits : first.toNat + k ≤ 255) :
    ∃ coefs : Fin k → Fin k → UInt8,
      (∀ i j : Fin k, vandermondeCoef field (ids i) (first + UInt32.ofNat j) = .ok (coefs i j) ∧ InField field (coefs i j)) ∧
        (Matrix.of fun i j => elem field (coefs i j)).det ≠ 0 := by
  have number (j : Fin k) : (first + UInt32.ofNat j).toNat = first.toNat + j := by
    have inside := j.isLt
    rw [toNat_add (by rw [toNat_ofNat (by omega)]; omega), toNat_ofNat (by omega)]
  have above (j : Fin k) : 1 ≤ first + UInt32.ofNat j := by
    rw [le_iff, number]
    exact Nat.le_add_right_of_le ((le_iff _ _).mp positive)
  choose coefs derived inField spells using fun i (j : Fin k) => @vandermondeCoef_eq field (ids i) _ (above j)
  refine ⟨coefs, fun i j => ⟨derived i j, inField i j⟩, ?_⟩
  have matrix : (Matrix.of fun i j => elem field (coefs i j)) =
      VandermondeMatrix.successive (fun i => generatorPower field (ids i).toNat) first.toNat := by
    apply Matrix.ext
    intro i j
    exact (spells i j).trans (congrArg _ (number j))
  rw [matrix]
  apply VandermondeMatrix.det_ne_zero
  · intro i j same
    exact distinct (generatorPower_inj same)
  · intro i
    exact generatorPower_ne_zero _

end CoefGen
end Delp
