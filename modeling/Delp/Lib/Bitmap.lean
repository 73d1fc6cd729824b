import Mathlib.Data.List.Sort
import Mathlib.Data.Nat.Bitwise

/-! Sets of positions as byte buffers, a bit for each position, highest bit of a byte first. -/

namespace Bitmap

/-- Whether the bit of a position is set; there are none behind the buffer. -/
def isSet (bytes : List UInt8) (p : ℕ) : Bool := (bytes.getD (p / 8) 0).toNat.testBit (7 - p % 8)

def set (bytes : List UInt8) (p : ℕ) : List UInt8 :=
  bytes.set (p / 8) (bytes.getD (p / 8) 0 ||| (1 <<< UInt8.ofNat (7 - p % 8)))

/-- The positions set in the byte at an index. -/
def positionsOfByte (byte : UInt8) (i : ℕ) : List ℕ :=
  ((List.range 8).filter fun r => byte.toNat.testBit (7 - r)).map (8 * i + ·)

def positions (bytes : List UInt8) : List ℕ := bytes.zipIdx.flatMap fun (byte, i) => positionsOfByte byte i

@[simp] theorem length_set (bytes : List UInt8) (p : ℕ) : (set bytes p).length = bytes.length := List.length_set

/-- Shift and mask, as programs test a bit. -/
theorem testBit_eq (byte : UInt8) {r : ℕ} (within : r < 8) :
    (((byte >>> UInt8.ofNat (7 - r)) &&& 1) == 1) = byte.toNat.testBit (7 - r) := by
  have shift : (UInt8.ofNat (7 - r)).toNat % 8 = 7 - r := by
    rw [UInt8.toNat_ofNat', Nat.mod_eq_of_lt (by omega), Nat.mod_eq_of_lt (by omega)]
  rw [Bool.eq_iff_iff, beq_iff_eq, ← UInt8.toNat_inj, UInt8.toNat_and, UInt8.toNat_shiftRight, shift, UInt8.toNat_one,
    Nat.and_one_is_mod, Nat.shiftRight_eq_div_pow, Nat.testBit_eq_decide_div_mod_eq, decide_eq_true_eq]

theorem isSet_behind {bytes : List UInt8} {p : ℕ} (behind : 8 * bytes.length ≤ p) : isSet bytes p = false := by
  rw [isSet, List.getD_eq_default _ _ (by omega)]
  exact Nat.zero_testBit _

theorem lt_of_isSet {bytes : List UInt8} {p : ℕ} (set : isSet bytes p = true) : p < 8 * bytes.length := by
  by_contra behind
  rw [isSet_behind (Nat.le_of_not_lt behind)] at set
  exact Bool.false_ne_true set

theorem isSet_replicate (n p : ℕ) : isSet (List.replicate n 0) p = false := by
  have zero : (List.replicate n (0 : UInt8)).getD (p / 8) 0 = 0 := by
    rw [List.getD_eq_getElem?_getD, List.getElem?_replicate]
    split <;> rfl
  rw [isSet, zero]
  exact Nat.zero_testBit _

theorem isSet_set {bytes : List UInt8} {p : ℕ} (inside : p < 8 * bytes.length) (q : ℕ) :
    isSet (set bytes p) q = (decide (q = p) || isSet bytes q) := by
  have byte : p / 8 < bytes.length := by omega
  have mask : (1 <<< UInt8.ofNat (7 - p % 8) : UInt8).toNat = 2 ^ (7 - p % 8) := by
    rw [UInt8.toNat_shiftLeft, UInt8.toNat_ofNat', Nat.mod_eq_of_lt (show 7 - p % 8 < 2 ^ 8 by omega),
      Nat.mod_eq_of_lt (show 7 - p % 8 < 8 by omega), UInt8.toNat_one, Nat.one_shiftLeft, Nat.mod_eq_of_lt]
    exact Nat.pow_lt_pow_right (by decide) (by omega)
  unfold isSet set
  by_cases same : q / 8 = p / 8
  · rw [same, List.getD_eq_getElem _ _ (by rwa [List.length_set]), List.getElem_set_self, UInt8.toNat_or, Nat.testBit_or, mask,
      Nat.testBit_two_pow, Bool.or_comm]
    congr 1
    exact decide_eq_decide.mpr (by omega)
  · rw [List.getD_eq_getElem?_getD, List.getElem?_set_ne (Ne.symm same), ← List.getD_eq_getElem?_getD,
      decide_eq_false (fun here => same (by rw [here])), Bool.false_or]

theorem isSet_take (bytes : List UInt8) (n p : ℕ) : isSet (bytes.take n) p = (decide (p < 8 * n) && isSet bytes p) := by
  unfold isSet
  rw [List.getD_eq_getElem?_getD, List.getElem?_take]
  by_cases inside : p < 8 * n
  · rw [if_pos (by omega), decide_eq_true inside, Bool.true_and, List.getD_eq_getElem?_getD]
  · rw [if_neg (by omega), decide_eq_false inside, Bool.false_and]
    exact Nat.zero_testBit _

theorem mem_positionsOfByte {byte : UInt8} {i p : ℕ} :
    p ∈ positionsOfByte byte i ↔ p / 8 = i ∧ byte.toNat.testBit (7 - p % 8) = true := by
  simp only [positionsOfByte, List.mem_map, List.mem_filter, List.mem_range]
  constructor
  · rintro ⟨r, ⟨within, bit⟩, rfl⟩
    exact ⟨by omega, by rwa [show (8 * i + r) % 8 = r by omega]⟩
  · rintro ⟨rfl, bit⟩
    exact ⟨p % 8, ⟨by omega, bit⟩, by omega⟩

theorem mem_positions {bytes : List UInt8} {p : ℕ} : p ∈ positions bytes ↔ isSet bytes p = true := by
  simp only [positions, List.mem_flatMap, Prod.exists, List.mem_zipIdx_iff_getElem?, mem_positionsOfByte]
  constructor
  · rintro ⟨byte, i, at_, rfl, bit⟩
    rwa [isSet, List.getD_eq_getElem?_getD, at_]
  · intro bit
    rw [isSet, List.getD_eq_getElem?_getD] at bit
    cases found : bytes[p / 8]? with
    | none =>
      rw [found] at bit
      exact absurd bit (by rw [Option.getD_none, UInt8.toNat_zero, Nat.zero_testBit]; decide)
    | some byte =>
      rw [found] at bit
      exact ⟨byte, p / 8, found, rfl, bit⟩

theorem ascending_positions (bytes : List UInt8) : (positions bytes).Pairwise (· < ·) := by
  refine List.pairwise_flatMap.mpr ⟨fun item _ => ?_, ?_⟩
  · refine List.pairwise_map.mpr ((List.pairwise_lt_range.filter _).imp fun less => ?_)
    exact Nat.add_lt_add_left less _
  · have later : bytes.zipIdx.Pairwise fun a b => a.2 < b.2 := by
      rw [← List.pairwise_map (f := Prod.snd) (R := (· < ·)), List.zipIdx_map_snd]
      exact List.pairwise_lt_range'
    refine later.imp fun less p first q second => ?_
    have left := (mem_positionsOfByte.mp first).1
    have right := (mem_positionsOfByte.mp second).1
    omega

/-- The positions of a buffer are the ascending list of those that are set. -/
theorem positions_eq {bytes : List UInt8} {ps : List ℕ} (ascending : ps.Pairwise (· < ·))
    (spelled : ∀ p, isSet bytes p = true ↔ p ∈ ps) : positions bytes = ps :=
  List.Pairwise.eq_of_mem_iff (ascending_positions bytes) ascending fun p => mem_positions.trans (spelled p)

end Bitmap
