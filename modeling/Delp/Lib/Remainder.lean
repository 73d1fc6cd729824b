import Mathlib.Tactic.Ring
import Mathlib.Algebra.Ring.Nat

/-! A fractional rate kept exact by a running remainder. -/

namespace Remainder

/-- After some steps at a rate of `numer` in `denom`, whole units emitted and the rest carried on. -/
structure Paced (numer denom steps emitted rest : ℕ) : Prop where
  total : emitted * denom + rest = steps * numer
  small : rest < denom

variable {numer denom steps emitted rest : ℕ}

theorem Paced.start (positive : 0 < denom) : Paced numer denom 0 0 0 := ⟨by rw [Nat.zero_mul, Nat.zero_mul], positive⟩

/-- A step adds the rate to the rest, and emits the whole units in the sum. -/
theorem Paced.step (paced : Paced numer denom steps emitted rest) :
    Paced numer denom (steps + 1) (emitted + (rest + numer) / denom) ((rest + numer) % denom) := by
  have positive : 0 < denom := Nat.lt_of_le_of_lt (Nat.zero_le _) paced.small
  refine ⟨?_, Nat.mod_lt _ positive⟩
  calc (emitted + (rest + numer) / denom) * denom + (rest + numer) % denom
      = emitted * denom + (denom * ((rest + numer) / denom) + (rest + numer) % denom) := by ring
    _ = emitted * denom + rest + numer := by rw [Nat.div_add_mod, Nat.add_assoc]
    _ = (steps + 1) * numer := by rw [paced.total, Nat.add_mul, Nat.one_mul]

/-- A rate of one in `denom` emits when the count of the steps since the last unit is full. -/
theorem Paced.tick (paced : Paced 1 denom steps emitted rest) :
    if denom ≤ rest + 1 then Paced 1 denom (steps + 1) (emitted + 1) 0 else Paced 1 denom (steps + 1) emitted (rest + 1) := by
  have next := paced.step
  have small := paced.small
  split
  next full =>
    have same : rest + 1 = denom := by omega
    rw [same, Nat.div_self (by omega), Nat.mod_self] at next
    exact next
  next more =>
    rw [Nat.div_eq_of_lt (by omega), Nat.mod_eq_of_lt (by omega)] at next
    exact next

/-- Nothing is lost to rounding but the last fraction of a unit. -/
theorem Paced.emitted_eq (paced : Paced numer denom steps emitted rest) : emitted = steps * numer / denom := by
  have positive : 0 < denom := Nat.lt_of_le_of_lt (Nat.zero_le _) paced.small
  rw [← paced.total, Nat.mul_comm, Nat.mul_add_div positive, Nat.div_eq_of_lt paced.small, Nat.add_zero]

end Remainder
