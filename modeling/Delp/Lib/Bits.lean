import Mathlib.Tactic.Ring
import Mathlib.Data.Nat.Bitwise

/-! Bit strings, highest bit first, as byte-oriented bit readers and writers see them. -/

namespace Bits

/-- The `width` low bits of a number. -/
def ofNat : ℕ → ℕ → List Bool
  | 0, _ => []
  | width + 1, value => value.testBit width :: ofNat width value

def toNat (bits : List Bool) : ℕ := bits.foldl (fun value bit => 2 * value + bit.toNat) 0

def ofBytes (bytes : List UInt8) : List Bool := bytes.flatMap fun byte => ofNat 8 byte.toNat

@[simp] theorem length_ofNat (width value : ℕ) : (ofNat width value).length = width := by
  induction width with
  | zero => rfl
  | succ width ih => rw [ofNat, List.length_cons, ih]

@[simp] theorem length_ofBytes (bytes : List UInt8) : (ofBytes bytes).length = 8 * bytes.length := by
  induction bytes with
  | nil => rfl
  | cons byte bytes ih =>
    have split : ofBytes (byte :: bytes) = ofNat 8 byte.toNat ++ ofBytes bytes := rfl
    rw [split, List.length_append, ih, length_ofNat, List.length_cons]
    omega

@[simp] theorem ofBytes_nil : ofBytes [] = [] := rfl

@[simp] theorem ofBytes_append (front back : List UInt8) : ofBytes (front ++ back) = ofBytes front ++ ofBytes back :=
  List.flatMap_append

theorem ofBytes_singleton (byte : UInt8) : ofBytes [byte] = ofNat 8 byte.toNat := by
  simp [ofBytes]

theorem ofNat_snoc (width value : ℕ) (bit : Bool) :
    ofNat (width + 1) (2 * value + bit.toNat) = ofNat width value ++ [bit] := by
  induction width with
  | zero =>
    cases bit <;> simp [ofNat, Nat.testBit_zero]
  | succ width ih =>
    have shifted : (2 * value + bit.toNat).testBit (width + 1) = value.testBit width := by
      rw [Nat.testBit_succ]
      congr 1
      have := bit.toNat_lt
      omega
    rw [ofNat, ih, shifted]
    rfl

theorem ofNat_mod {width modulus : ℕ} (narrow : width ≤ modulus) (value : ℕ) :
    ofNat width (value % 2 ^ modulus) = ofNat width value := by
  induction width with
  | zero => rfl
  | succ width ih =>
    rw [ofNat, ofNat, ih (by omega), Nat.testBit_mod_two_pow, decide_eq_true (show width < modulus by omega), Bool.true_and]

theorem ofNat_shiftLeft (width value : ℕ) : ofNat width (value <<< width) = List.replicate width false := by
  suffices zeros : ∀ count, count ≤ width → ofNat count (value <<< width) = List.replicate count false from
    zeros width (Nat.le_refl _)
  intro count
  induction count with
  | zero => exact fun _ => rfl
  | succ count ih =>
    intro bounded
    rw [ofNat, ih (by omega), Nat.testBit_shiftLeft, decide_eq_false (show ¬ count ≥ width by omega), Bool.false_and,
      List.replicate_succ]

theorem ofNat_add (high low value : ℕ) : ofNat (high + low) value = ofNat high (value >>> low) ++ ofNat low value := by
  induction high with
  | zero => simp [ofNat]
  | succ high ih =>
    rw [Nat.succ_add, ofNat, ih, ofNat, List.cons_append, Nat.testBit_shiftRight, Nat.add_comm low]

theorem foldl_toNat (bits : List Bool) (start : ℕ) :
    bits.foldl (fun value bit => 2 * value + bit.toNat) start = start * 2 ^ bits.length + toNat bits := by
  induction bits generalizing start with
  | nil => simp [toNat]
  | cons bit bits ih =>
    rw [toNat, List.foldl_cons, List.foldl_cons, ih, ih, List.length_cons, pow_succ]
    ring

theorem toNat_append (front back : List Bool) : toNat (front ++ back) = toNat front * 2 ^ back.length + toNat back := by
  rw [toNat, List.foldl_append, foldl_toNat]
  rfl

theorem toNat_ofNat (width value : ℕ) : toNat (ofNat width value) = value % 2 ^ width := by
  induction width with
  | zero => simp [ofNat, toNat, Nat.mod_one]
  | succ width ih =>
    have split : ofNat (width + 1) value = [value.testBit width] ++ ofNat width value := rfl
    rw [split, toNat_append, ih, length_ofNat, Nat.mod_pow_succ]
    have single : toNat [value.testBit width] = value / 2 ^ width % 2 := by
      rw [toNat, List.foldl_cons, List.foldl_nil, Nat.mul_zero, Nat.zero_add, Nat.toNat_testBit]
    rw [single]
    ring

theorem toNat_lt (bits : List Bool) : toNat bits < 2 ^ bits.length := by
  induction bits with
  | nil => simp [toNat]
  | cons bit bits ih =>
    have split : bit :: bits = [bit] ++ bits := rfl
    rw [split, toNat_append, List.length_append, List.length_singleton, pow_add, pow_one]
    have first : toNat [bit] ≤ 1 := by cases bit <;> decide
    have scaled := Nat.mul_le_mul_right (2 ^ bits.length) first
    omega

theorem getElem?_ofBytes (bytes : List UInt8) (i : ℕ) {p : ℕ} (within : p < 8) :
    (ofBytes bytes)[8 * i + p]? = bytes[i]?.map fun byte => byte.toNat.testBit (7 - p) := by
  have inByte (value : ℕ) : (ofNat 8 value)[p]? = some (value.testBit (7 - p)) := by
    match p, within with
    | 0, _ | 1, _ | 2, _ | 3, _ | 4, _ | 5, _ | 6, _ | 7, _ => rfl
  induction bytes generalizing i with
  | nil => simp
  | cons byte bytes ih =>
    have split : ofBytes (byte :: bytes) = ofNat 8 byte.toNat ++ ofBytes bytes := rfl
    rw [split]
    cases i with
    | zero =>
      rw [List.getElem?_append_left (by simpa using within), Nat.mul_zero, Nat.zero_add, inByte]
      rfl
    | succ i =>
      rw [List.getElem?_append_right (by simp only [length_ofNat]; omega), length_ofNat,
        show 8 * (i + 1) + p - 8 = 8 * i + p by omega, ih]
      rfl

/-- The 16-bit word at a word position of a byte buffer. -/
def word (bytes : List UInt8) (k : ℕ) : ℕ := toNat (((ofBytes bytes).drop (16 * k)).take 16)

theorem word_lt (bytes : List UInt8) (k : ℕ) : word bytes k < 2 ^ 16 :=
  Nat.lt_of_lt_of_le (toNat_lt _) (Nat.pow_le_pow_right (by decide) (List.length_take_le _ _))

/-- A buffer that spells 16-bit values has them at its word positions. -/
theorem word_spelled {bytes : List UInt8} {values : List ℕ} {tail : List Bool}
    (spelled : ofBytes bytes = values.flatMap (ofNat 16) ++ tail) {k : ℕ} (inside : k < values.length) :
    word bytes k = values[k] % 2 ^ 16 := by
  have chunk : ((values.flatMap (ofNat 16) ++ tail).drop (16 * k)).take 16 = ofNat 16 values[k] := by
    clear spelled
    induction values generalizing k with
    | nil => cases inside
    | cons value values ih =>
      rw [List.flatMap_cons, List.append_assoc]
      cases k with
      | zero =>
        rw [Nat.mul_zero, List.drop_zero, List.take_append_of_le_length (by simp), List.take_of_length_le (by simp)]
        rfl
      | succ k =>
        rw [show 16 * (k + 1) = (ofNat 16 value).length + 16 * k by rw [length_ofNat]; ring, ← List.drop_drop, List.drop_left]
        exact ih (Nat.lt_of_succ_lt_succ inside)
  rw [word, spelled, chunk, toNat_ofNat]

end Bits
