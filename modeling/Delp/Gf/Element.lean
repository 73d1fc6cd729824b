import Delp.Error
import Delp.Gf.Tables
import Delp.Lib.Machine

/-! Field elements and their table-driven arithmetic. -/

namespace Delp

/-- An element of GF(2⁸): any byte. -/
@[ext] structure Gf2_8 where
  value : UInt8
deriving DecidableEq, Repr

namespace Gf2_8

/-- The doubled exp table makes the index sum valid without a reduction. -/
def mulRaw (a b : UInt8) : UInt8 :=
  if a = 0 ∨ b = 0 then 0
  else Gf.gf2_8Exp.getD ((Gf.gf2_8Log.getD a.toNat 0).toNat + (Gf.gf2_8Log.getD b.toNat 0).toNat) 0

def add (a b : Gf2_8) : Gf2_8 := ⟨a.value ^^^ b.value⟩

def mul (a b : Gf2_8) : Gf2_8 := ⟨mulRaw a.value b.value⟩

/-- Inversion asserts that its argument is not zero, in every build. -/
def inv (a : Gf2_8) : Result Gf2_8 := do
  Outcome.require (a.value ≠ 0) .assertion
  pure ⟨Gf.gf2_8Exp.getD (255 - (Gf.gf2_8Log.getD a.value.toNat 0).toNat) 0⟩

def alphaPow (exp : UInt32) : Gf2_8 := ⟨Gf.gf2_8Exp.getD (exp.toNat % 255) 0⟩

/-- `alpha ^ ((src_id * coded_id) mod (ORDER − 1))`; the product is taken in `u64`. -/
def vandermonde (srcId codedId : UInt32) : Result Gf2_8 := do
  Outcome.require (1 ≤ codedId) .assertion
  pure (alphaPow (UInt32.ofNat (srcId.toNat * codedId.toNat % (Gf.gf2_8Order - 1))))

end Gf2_8

/-- An element of GF(2⁴): a byte whose high nibble is zero. -/
@[ext] structure Gf2_4 where
  value : UInt8
  low : value < 16
deriving DecidableEq, Repr

namespace Gf2_4

theorem mask_lt (v : UInt8) : v &&& 0x0F < 16 := by
  rw [UInt8.lt_iff_toNat_lt, UInt8.toNat_and]
  exact Nat.lt_of_le_of_lt Nat.and_le_right (by decide)

theorem exp_lt (i : Nat) : Gf.gf2_4Exp.getD i 0 < 16 := by
  have entries : Gf.gf2_4Exp.all (· < 16) = true := by decide
  rw [List.getD_eq_getElem?_getD]
  cases found : Gf.gf2_4Exp[i]? with
  | none => decide
  | some x => exact of_decide_eq_true (List.all_eq_true.mp entries x (List.mem_of_getElem? found))

theorem xor_lt {a b : UInt8} (low : a < 16) (other : b < 16) : a ^^^ b < 16 := by
  rw [UInt8.lt_iff_toNat_lt] at *
  rw [UInt8.toNat_xor]
  exact Nat.xor_lt_two_pow (show a.toNat < 2 ^ 4 from low) other

def mulRaw (a b : UInt8) : UInt8 :=
  if a = 0 ∨ b = 0 then 0
  else Gf.gf2_4Exp.getD
    (((Gf.gf2_4Log.getD a.toNat 0).toNat + (Gf.gf2_4Log.getD b.toNat 0).toNat) % (Gf.gf2_4Order - 1)) 0

theorem mulRaw_lt (a b : UInt8) : mulRaw a b < 16 := by
  unfold mulRaw
  split
  · decide
  · exact exp_lt _

/-- `from_u8` keeps the low nibble. -/
def fromU8 (v : UInt8) : Gf2_4 := ⟨v &&& 0x0F, mask_lt v⟩

def add (a b : Gf2_4) : Gf2_4 := ⟨a.value ^^^ b.value, xor_lt a.low b.low⟩

def mul (a b : Gf2_4) : Gf2_4 := ⟨mulRaw a.value b.value, mulRaw_lt _ _⟩

def inv (a : Gf2_4) : Result Gf2_4 := do
  Outcome.require (a.value ≠ 0) .assertion
  pure ⟨Gf.gf2_4Exp.getD
    ((Gf.gf2_4Order - 1 - (Gf.gf2_4Log.getD a.value.toNat 0).toNat) % (Gf.gf2_4Order - 1)) 0, exp_lt _⟩

def alphaPow (exp : UInt32) : Gf2_4 := ⟨Gf.gf2_4Exp.getD (exp.toNat % (Gf.gf2_4Order - 1)) 0, exp_lt _⟩

def vandermonde (srcId codedId : UInt32) : Result Gf2_4 := do
  Outcome.require (1 ≤ codedId) .assertion
  pure (alphaPow (UInt32.ofNat (srcId.toNat * codedId.toNat % (Gf.gf2_4Order - 1))))

end Gf2_4

end Delp
