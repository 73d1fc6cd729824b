import Mathlib.Data.List.Induction
import Mathlib.Tactic.Common
import Mathlib.Algebra.Ring.Nat

/-! Natural numbers as big-endian bytes of a fixed width. -/

namespace Machine

/-- The last `width` bytes of a number, the most significant one first. -/
def toBe : ℕ → ℕ → List UInt8
  | 0, _ => []
  | width + 1, value => toBe width (value / 256) ++ [UInt8.ofNat value]

def fromBe (bytes : List UInt8) : ℕ := bytes.foldl (fun value byte => value * 256 + byte.toNat) 0

@[simp] theorem length_toBe (width value : ℕ) : (toBe width value).length = width := by
  induction width generalizing value with
  | zero => rfl
  | succ width ih => rw [toBe, List.length_append, ih, List.length_singleton]

theorem fromBe_concat (bytes : List UInt8) (byte : UInt8) : fromBe (bytes ++ [byte]) = fromBe bytes * 256 + byte.toNat := by
  rw [fromBe, List.foldl_append]
  rfl

theorem fromBe_toBe (width value : ℕ) : fromBe (toBe width value) = value % 256 ^ width := by
  induction width generalizing value with
  | zero => exact (Nat.mod_one value).symm
  | succ width ih =>
    have low : (UInt8.ofNat value).toNat = value % 256 := UInt8.toNat_ofNat'
    rw [toBe, fromBe_concat, ih, low, Nat.pow_succ', Nat.mod_mul]
    omega

theorem fromBe_lt (bytes : List UInt8) : fromBe bytes < 256 ^ bytes.length := by
  induction bytes using List.reverseRecOn with
  | nil => exact Nat.one_pos
  | append_singleton bytes byte ih =>
    have small := byte.toNat_lt
    rw [fromBe_concat, List.length_append, List.length_singleton, Nat.pow_succ]
    omega

/-- Reading bytes as a number loses none of them. -/
theorem toBe_fromBe (bytes : List UInt8) : toBe bytes.length (fromBe bytes) = bytes := by
  induction bytes using List.reverseRecOn with
  | nil => rfl
  | append_singleton bytes byte ih =>
    have small := byte.toNat_lt
    have high : (fromBe bytes * 256 + byte.toNat) / 256 = fromBe bytes := by omega
    have low : UInt8.ofNat (fromBe bytes * 256 + byte.toNat) = byte := by
      apply UInt8.toNat_inj.mp
      have last : (UInt8.ofNat (fromBe bytes * 256 + byte.toNat)).toNat = (fromBe bytes * 256 + byte.toNat) % 256 := UInt8.toNat_ofNat'
      omega
    rw [List.length_append, List.length_singleton, toBe, fromBe_concat, high, low, ih]

end Machine
