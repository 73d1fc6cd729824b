import Mathlib.Algebra.Field.Defs
import Mathlib.Algebra.Group.Hom.Defs
import Mathlib.Dynamics.PeriodicPts.Defs
import Mathlib.Order.Interval.Finset.Nat
import Mathlib.Tactic.Ring

/-! A field whose nonzero elements are the powers of one generator, given only by
the additive map that multiplies by the generator and by a discrete logarithm. This is
how a codec multiplies with log and exp tables. -/

structure CyclicField (α : Type) [AddCommGroup α] where
  /-- Multiplication by the generator. -/
  double : α →+ α
  one : α
  order : ℕ
  log : α → ℕ
  one_ne_zero : one ≠ 0
  order_pos : 0 < order
  period : double^[order] one = one
  power_log : ∀ a, a ≠ 0 → double^[log a] one = a

namespace CyclicField
variable {α : Type} [AddCommGroup α] (F : CyclicField α)

def power (n : ℕ) : α := F.double^[n] F.one

theorem power_add (m n : ℕ) : F.double^[m] (F.power n) = F.power (m + n) :=
  (Function.iterate_add_apply F.double m n F.one).symm

theorem iterate_zero (n : ℕ) : F.double^[n] 0 = 0 := by
  induction n with
  | zero => rfl
  | succ n ih => rw [Function.iterate_succ_apply', ih, map_zero]

theorem iterate_add (n : ℕ) (a b : α) : F.double^[n] (a + b) = F.double^[n] a + F.double^[n] b := by
  induction n with
  | zero => rfl
  | succ n ih => rw [Function.iterate_succ_apply', ih, map_add, ← Function.iterate_succ_apply' F.double,
      ← Function.iterate_succ_apply' F.double]

theorem power_order_mul (k : ℕ) : F.power (F.order * k) = F.one := by
  induction k with
  | zero => rfl
  | succ k ih => rw [Nat.mul_succ, ← power_add, power, F.period, ← power, ih]

theorem power_ne_zero (n : ℕ) : F.power n ≠ 0 := by
  intro zero
  apply F.one_ne_zero
  rw [← F.power_order_mul n, show F.order * n = (F.order * n - n) + n from
    (Nat.sub_add_cancel (Nat.le_mul_of_pos_left n F.order_pos)).symm, ← power_add, zero, iterate_zero]

theorem one_eq : F.one = F.power 0 := rfl

variable [DecidableEq α]

/-- Multiplication through the logarithm of the left factor. -/
def mul (a b : α) : α := if a = 0 then 0 else F.double^[F.log a] b

def inv (a : α) : α := if a = 0 then 0 else F.power (F.order * F.log a - F.log a)

theorem zero_mul (a : α) : F.mul 0 a = 0 := if_pos rfl

theorem mul_zero (a : α) : F.mul a 0 = 0 := by
  unfold mul
  split
  · rfl
  · exact F.iterate_zero _

theorem zero_or_power (a : α) : a = 0 ∨ ∃ n, a = F.power n := by
  by_cases zero : a = 0
  · exact .inl zero
  · exact .inr ⟨F.log a, (F.power_log a zero).symm⟩

theorem power_mul_power (m n : ℕ) : F.mul (F.power m) (F.power n) = F.power (m + n) := by
  rw [mul, if_neg (F.power_ne_zero m), power_add, Nat.add_comm, ← power_add, power, F.power_log _ (F.power_ne_zero m),
    power_add, Nat.add_comm]

theorem mul_comm (a b : α) : F.mul a b = F.mul b a := by
  rcases F.zero_or_power a with rfl | ⟨m, rfl⟩
  · rw [zero_mul, mul_zero]
  rcases F.zero_or_power b with rfl | ⟨n, rfl⟩
  · rw [zero_mul, mul_zero]
  rw [power_mul_power, power_mul_power, Nat.add_comm]

theorem mul_assoc (a b c : α) : F.mul (F.mul a b) c = F.mul a (F.mul b c) := by
  rcases F.zero_or_power a with rfl | ⟨m, rfl⟩
  · simp only [zero_mul]
  rcases F.zero_or_power b with rfl | ⟨n, rfl⟩
  · simp only [zero_mul, mul_zero]
  rcases F.zero_or_power c with rfl | ⟨k, rfl⟩
  · simp only [mul_zero]
  simp only [power_mul_power, Nat.add_assoc]

theorem one_mul (a : α) : F.mul F.one a = a := by
  rcases F.zero_or_power a with rfl | ⟨n, rfl⟩
  · exact F.mul_zero _
  · rw [one_eq, power_mul_power, Nat.zero_add]

theorem mul_add (a b c : α) : F.mul a (b + c) = F.mul a b + F.mul a c := by
  unfold mul
  split
  · exact (add_zero 0).symm
  · exact F.iterate_add _ b c

theorem mul_inv_cancel {a : α} (nonzero : a ≠ 0) : F.mul a (F.inv a) = F.one := by
  have expanded : F.mul a (F.inv a) = F.mul (F.power (F.log a)) (F.power (F.order * F.log a - F.log a)) := by
    rw [inv, if_neg nonzero, show F.power (F.log a) = a from F.power_log a nonzero]
  rw [expanded, power_mul_power, Nat.add_sub_cancel' (Nat.le_mul_of_pos_left _ F.order_pos), power_order_mul]

abbrev toField : Field α where
  mul := F.mul
  one := F.one
  inv := F.inv
  mul_assoc := F.mul_assoc
  one_mul := F.one_mul
  mul_one a := (F.mul_comm a F.one).trans (F.one_mul a)
  left_distrib := F.mul_add
  right_distrib a b c := by
    change F.mul (a + b) c = F.mul a c + F.mul b c
    rw [F.mul_comm, F.mul_add, F.mul_comm c a, F.mul_comm c b]
  zero_mul := F.zero_mul
  mul_zero := F.mul_zero
  mul_comm := F.mul_comm
  mul_inv_cancel _ := F.mul_inv_cancel
  inv_zero := if_pos rfl
  exists_pair_ne := ⟨F.one, 0, F.one_ne_zero⟩
  neg_add_cancel := neg_add_cancel
  zsmul := zsmulRec
  nsmul := nsmulRec
  nnqsmul := _
  qsmul := _
  sub_eq_add_neg := sub_eq_add_neg

end CyclicField

namespace Function

/-- A point whose period is no proper divisor of `n` has minimal period `n`. -/
theorem minimalPeriod_eq_of_divisors {α : Type} {f : α → α} {x : α} {n : ℕ}
    (periodic : IsPeriodicPt f n x) (proper : ∀ d, d ∣ n → d ≠ n → f^[d] x ≠ x) : minimalPeriod f x = n := by
  by_contra different
  exact proper _ periodic.minimalPeriod_dvd different iterate_minimalPeriod

/-- Iterates that stay inside `1 .. n` and repeat only after `n` turns visit all of it. -/
theorem iterate_surjective_of_minimalPeriod {α : Type} {f : α → α} {x : α} {n : ℕ}
    (minimal : minimalPeriod f x = n) (rank : α → ℕ) (injective : Injective rank)
    (inside : ∀ i, 0 < rank (f^[i] x) ∧ rank (f^[i] x) ≤ n) {y : α} (positive : 0 < rank y)
    (bounded : rank y ≤ n) : ∃ i < n, f^[i] x = y := by
  have visits : (Finset.range n).image (fun i => rank (f^[i] x)) = Finset.Icc 1 n := by
    apply Finset.eq_of_subset_of_card_le
    · intro value member
      obtain ⟨i, _, rfl⟩ := Finset.mem_image.mp member
      exact Finset.mem_Icc.mpr (inside i)
    · rw [Finset.card_image_of_injOn, Finset.card_range, Nat.card_Icc, Nat.add_sub_cancel]
      intro i first j second same
      simp only [Finset.coe_range, Set.mem_Iio] at first second
      exact iterate_injOn_Iio_minimalPeriod (by simpa [minimal]) (by simpa [minimal]) (injective same)
  have member : rank y ∈ Finset.Icc 1 n := Finset.mem_Icc.mpr ⟨positive, bounded⟩
  rw [← visits] at member
  obtain ⟨i, small, found⟩ := Finset.mem_image.mp member
  exact ⟨i, Finset.mem_range.mp small, injective found⟩

end Function
