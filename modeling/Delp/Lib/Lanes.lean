import Delp.Lib.Machine

/-! Vector registers of byte lanes, with the documented semantics of the operations on
them, and loops that work through a buffer a register at a time. -/

/-- A register of `n` byte lanes, the lowest address first. -/
abbrev Lanes (n : Nat) := Fin n → UInt8

/-- A buffer under work. The positions stored to, in the order of the stores, are a ghost. -/
structure Lanes.Buffer where
  bytes : List UInt8
  stored : List Nat
deriving DecidableEq, Repr

namespace Lanes
open Machine
variable {ε : Type} {n : Nat}

section Operations

/-- An unaligned load. A read past the end of the buffer is not allowed to happen. -/
def loadu (n : Nat) (buf : List UInt8) (off : Nat) : Outcome ε (Lanes n) :=
  if off + n ≤ buf.length then .ok fun i => buf.getD (off + i) 0 else .panic .bounds

def storeu (buf : Buffer) (off : Nat) (lanes : Lanes n) : Outcome ε Buffer :=
  if off + n ≤ buf.bytes.length then
    .ok ⟨buf.bytes.take off ++ List.ofFn lanes ++ buf.bytes.drop (off + n), buf.stored ++ List.range' off n⟩
  else .panic .bounds

def set1 (byte : UInt8) : Lanes n := fun _ => byte

def and (a b : Lanes n) : Lanes n := fun i => a i &&& b i

def xor (a b : Lanes n) : Lanes n := fun i => a i ^^^ b i

/-- The little-endian 16-bit lane that holds a byte lane. -/
def word (a : Lanes n) (i : Fin n) : Nat :=
  let lane (k : Nat) : Nat := if inside : k < n then (a ⟨k, inside⟩).toNat else 0
  lane (2 * (i / 2)) + 256 * lane (2 * (i / 2) + 1)

/-- Shift every 16-bit lane right; bits cross from one byte lane into the other. -/
def srliEpi16 (a : Lanes n) (count : Nat) : Lanes n := fun i =>
  let shifted := a.word i / 2 ^ count
  UInt8.ofNat (if i.val % 2 = 0 then shifted else shifted / 256)

/-- Table lookup in each 16-byte half by the low nibble of an index, zero where its top bit is set. -/
def shuffleEpi8 (table indices : Lanes n) : Lanes n := fun i =>
  if indices i &&& 0x80 ≠ 0 then 0
  else
    let k := 16 * (i.val / 16) + (indices i &&& 0x0F).toNat
    if inside : k < n then table ⟨k, inside⟩ else 0

/-- A 16-byte register in both halves of a wide one. -/
def broadcast (half : Lanes 16) : Lanes 32 := fun i => half ⟨i.val % 16, Nat.mod_lt _ (by decide)⟩

def shr (a : Lanes n) (count : UInt8) : Lanes n := fun i => a i >>> count

/-- Table lookup by whole bytes, zero where the index is out of the table. -/
def tbl (table indices : Lanes n) : Lanes n := fun i =>
  if inside : (indices i).toNat < n then table ⟨(indices i).toNat, inside⟩ else 0

def Buffer.of (bytes : List UInt8) : Buffer := ⟨bytes, []⟩

/-- A buffer after one store to every position, in ascending order. -/
def Buffer.done (bytes : List UInt8) : Buffer := ⟨bytes, List.range bytes.length⟩

/-- Work on a part of a buffer in place; positions count from the start of the part. -/
def updateSlice (buf : Buffer) (first last : Nat) (f : Buffer → Outcome ε Buffer) : Outcome ε Buffer := do
  let part ← slice buf.bytes first last
  let part ← f (.of part)
  pure ⟨buf.bytes.take first ++ part.bytes ++ buf.bytes.drop last, buf.stored ++ part.stored.map (first + ·)⟩

end Operations

section Nibbles

theorem low_nibble (byte : UInt8) : (byte &&& 0x0F).toNat = byte.toNat % 16 := by
  rw [UInt8.toNat_and]
  exact Nat.and_two_pow_sub_one_eq_mod byte.toNat 4

theorem high_nibble (byte : UInt8) : (byte >>> 4).toNat = byte.toNat / 16 := by
  rw [UInt8.toNat_shiftRight]
  exact Nat.shiftRight_eq_div_pow byte.toNat 4

theorem low_nibble_lt (byte : UInt8) : (byte &&& 0x0F).toNat < 16 := by
  rw [low_nibble]
  exact Nat.mod_lt _ (by decide)

theorem high_nibble_lt (byte : UInt8) : (byte >>> 4).toNat < 16 := by
  have small := byte.toNat_lt
  rw [high_nibble]
  omega

/-- The mask removes the bits that a 16-bit shift by four carries over from the other byte. -/
theorem and_srliEpi16 (even : n % 2 = 0) (a : Lanes n) (i : Fin n) : srliEpi16 a 4 i &&& (0x0F : UInt8) = a i >>> 4 := by
  have inside := i.isLt
  apply UInt8.toNat_inj.mp
  rw [low_nibble, high_nibble, srliEpi16, word]
  dsimp only
  rw [UInt8.toNat_ofNat', dif_pos (by omega), dif_pos (by omega)]
  rcases Nat.mod_two_eq_zero_or_one i.val with first | second
  · have same : (⟨2 * (i.val / 2), by omega⟩ : Fin n) = i := Fin.ext (by simp only; omega)
    have small := (a i).toNat_lt
    rw [if_pos first, same]
    omega
  · have same : (⟨2 * (i.val / 2) + 1, by omega⟩ : Fin n) = i := Fin.ext (by simp only; omega)
    have small := (a i).toNat_lt
    have other := (a ⟨2 * (i.val / 2), by omega⟩).toNat_lt
    rw [if_neg (by omega), same]
    omega

/-- A lookup by a nibble stays in the half it is made in. -/
theorem shuffleEpi8_nibble (table indices : Lanes n) (i : Fin n) (nibble : (indices i).toNat < 16)
    (inside : 16 * (i.val / 16) + (indices i).toNat < n) :
    shuffleEpi8 table indices i = table ⟨16 * (i.val / 16) + (indices i).toNat, inside⟩ := by
  have top : indices i &&& 0x80 = 0 := by
    have entries : ∀ k < 16, UInt8.ofNat k &&& (0x80 : UInt8) = 0 := by decide
    have entry := entries _ nibble
    rwa [UInt8.ofNat_toNat] at entry
  have low : (indices i &&& 0x0F).toNat = (indices i).toNat := by rw [low_nibble, Nat.mod_eq_of_lt nibble]
  rw [shuffleEpi8, if_neg (not_not.mpr top)]
  simp only [low]
  rw [dif_pos inside]

end Nibbles

section Buffers
variable {old whole : List UInt8}

theorem loadu_of {buf : List UInt8} {off : Nat} (inside : off + n ≤ buf.length) :
    loadu n buf off = (.ok fun i => buf.getD (off + i) 0 : Outcome ε (Lanes n)) := if_pos inside

/-- A buffer after one store to every position before the given one: final bytes, then old ones. -/
def upTo (whole old : List UInt8) (position : Nat) : Buffer :=
  ⟨whole.take position ++ old.drop position, List.range position⟩

theorem upTo_zero (whole old : List UInt8) : upTo whole old 0 = .of old := by
  simp [upTo, Buffer.of]

theorem upTo_length (same : whole.length = old.length) {position : Nat} (inside : position ≤ old.length) :
    (upTo whole old position).bytes.length = old.length := by
  rw [upTo, List.length_append, List.length_take, List.length_drop]
  omega

theorem upTo_take (same : whole.length = old.length) {position : Nat} (inside : position ≤ old.length) :
    (upTo whole old position).bytes.take position = whole.take position :=
  List.take_left' (by rw [List.length_take]; omega)

theorem upTo_drop (same : whole.length = old.length) {position k : Nat} (inside : position ≤ old.length) (behind : position ≤ k) :
    (upTo whole old position).bytes.drop k = old.drop k := by
  have front : (whole.take position).length = position := by rw [List.length_take]; omega
  obtain ⟨more, rfl⟩ := Nat.exists_eq_add_of_le behind
  rw [upTo, ← List.drop_drop, List.drop_left' front, List.drop_drop]

/-- What has not been reached is loaded as it was. -/
theorem loadu_upTo (same : whole.length = old.length) {position off : Nat} (behind : position ≤ off)
    (inside : off + n ≤ old.length) :
    loadu n (upTo whole old position).bytes off = (.ok fun i => old.getD (off + i) 0 : Outcome ε (Lanes n)) := by
  rw [loadu_of (by rwa [upTo_length same (by omega)])]
  congr 1
  funext i
  have entry (buf : List UInt8) : buf.getD (off + i) 0 = (buf.drop off).getD i 0 := by
    rw [List.getD_eq_getElem?_getD, List.getD_eq_getElem?_getD, List.getElem?_drop]
  rw [entry, upTo_drop same (by omega) behind, ← entry]

/-- Storing the final bytes of the next register moves the position over it. -/
theorem storeu_upTo (same : whole.length = old.length) {off : Nat} (inside : off + n ≤ old.length) {lanes : Lanes n}
    (values : ∀ i, lanes i = whole.getD (off + i) 0) :
    storeu (upTo whole old off) off lanes = (.ok (upTo whole old (off + n)) : Outcome ε Buffer) := by
  have register : List.ofFn lanes = (whole.drop off).take n := by
    apply List.ext_getElem
    · rw [List.length_ofFn, List.length_take, List.length_drop]
      omega
    · intro i left right
      rw [List.length_ofFn] at left
      rw [List.getElem_ofFn, values, List.getElem_take, List.getElem_drop, List.getD_eq_getElem _ _ (by omega)]
  have stored : List.range off ++ List.range' off n = List.range (off + n) := by
    rw [List.range_eq_range', List.range_eq_range', ← List.range'_append_1, Nat.zero_add]
  rw [storeu, if_pos (by rwa [upTo_length same (by omega)]), upTo_take same (by omega),
    upTo_drop same (by omega) (Nat.le_add_right _ _), register, ← List.take_add]
  exact congrArg _ (congrArg _ stored)

/-- A loop whose turns finish a register each. -/
theorem foldlM_upTo {turn : Buffer → Nat → Outcome ε Buffer} {width count : Nat} (inside : count * width ≤ old.length)
    (finishes : ∀ off, off + width ≤ old.length → turn (upTo whole old off) off = .ok (upTo whole old (off + width))) :
    (List.range count).foldlM (fun buf i => turn buf (i * width)) (.of old) = .ok (upTo whole old (count * width)) := by
  induction count with
  | zero => rw [Nat.zero_mul, upTo_zero]; rfl
  | succ count ih =>
    rw [Nat.succ_mul] at inside ⊢
    rw [List.range_succ, List.foldlM_append, ih (by omega), Outcome.ok_bind, Outcome.foldlM_cons, finishes _ inside,
      Outcome.ok_bind]
    rfl

theorem upTo_length_eq (same : whole.length = old.length) : upTo whole old old.length = .done whole := by
  rw [upTo, Buffer.done, same, List.drop_length, List.append_nil, List.take_of_length_le (Nat.le_of_eq same)]

/-- The rest of the buffer, finished in one go. -/
theorem updateSlice_upTo (same : whole.length = old.length) {base : Nat} (inside : base ≤ old.length)
    {f : Buffer → Outcome ε Buffer} (rest : f (.of (old.drop base)) = .ok (.done (whole.drop base))) :
    updateSlice (upTo whole old base) base old.length f = .ok (.done whole) := by
  have part : ((upTo whole old base).bytes.drop base).take (old.length - base) = old.drop base := by
    rw [upTo_drop same inside (Nat.le_refl _), List.take_of_length_le (by rw [List.length_drop])]
  have stored : List.range base ++ (List.range (whole.drop base).length).map (base + ·) = List.range whole.length := by
    rw [← List.range_add, List.length_drop, Nat.add_sub_cancel' (by rwa [same])]
  rw [updateSlice, slice_of inside (by rw [upTo_length same inside]), Outcome.ok_bind, part, rest, Outcome.ok_bind,
    Outcome.pure_def, upTo_take same inside, upTo_drop same inside inside, List.drop_length, List.append_nil]
  exact congrArg _ (congr (congrArg _ (List.take_append_drop base whole)) stored)

/-- Registers from the front and the rest in one go: together they cover the buffer. -/
theorem chunked_of (same : whole.length = old.length) {turn : Buffer → Nat → Outcome ε Buffer} {width : Nat}
    (finishes : ∀ off, off + width ≤ old.length → turn (upTo whole old off) off = .ok (upTo whole old (off + width)))
    {f : Buffer → Outcome ε Buffer}
    (rest : f (.of (old.drop (old.length / width * width))) = .ok (.done (whole.drop (old.length / width * width)))) :
    ((List.range (old.length / width)).foldlM (fun buf i => turn buf (i * width)) (.of old) >>= fun buf =>
      updateSlice buf (old.length / width * width) (old.length / width * width + old.length % width) f) = .ok (.done whole) := by
  have covers : old.length / width * width + old.length % width = old.length := Nat.div_add_mod' old.length width
  have inside : old.length / width * width ≤ old.length := Nat.div_mul_le_self old.length width
  rw [foldlM_upTo inside finishes, Outcome.ok_bind, covers]
  exact updateSlice_upTo same inside rest

/-- A rest of no bytes can be left out. -/
theorem chunked_unless (same : whole.length = old.length) {turn : Buffer → Nat → Outcome ε Buffer} {width : Nat}
    (finishes : ∀ off, off + width ≤ old.length → turn (upTo whole old off) off = .ok (upTo whole old (off + width)))
    {f : Buffer → Outcome ε Buffer}
    (rest : f (.of (old.drop (old.length / width * width))) = .ok (.done (whole.drop (old.length / width * width)))) :
    ((List.range (old.length / width)).foldlM (fun buf i => turn buf (i * width)) (.of old) >>= fun buf =>
      if old.length % width > 0 then
        updateSlice buf (old.length / width * width) (old.length / width * width + old.length % width) f
      else pure buf) = .ok (.done whole) := by
  by_cases tail : old.length % width > 0
  · simp only [tail, if_true]
    exact chunked_of same finishes rest
  · have covers : old.length / width * width = old.length := by
      have parts := Nat.div_add_mod' old.length width
      omega
    simp only [tail, if_false]
    rw [foldlM_upTo (Nat.le_of_eq covers) finishes, Outcome.ok_bind, covers, upTo_length_eq same]
    rfl

end Buffers

end Lanes
