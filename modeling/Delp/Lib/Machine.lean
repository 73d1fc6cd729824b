import Delp.Lib.Outcome
import Mathlib.Tactic.Ring
import Mathlib.Data.Nat.Bitwise

/-! Fixed-width arithmetic and byte buffers as a checked build executes them:
an addition that does not fit its width, or a slice outside its buffer, panics. -/

universe u

namespace Machine
variable {ε : Type}

def addU8 (a b : UInt8) : Outcome ε UInt8 :=
  if a.toNat + b.toNat < UInt8.size then .ok (a + b) else .panic .overflow

def addU32 (a b : UInt32) : Outcome ε UInt32 :=
  if a.toNat + b.toNat < UInt32.size then .ok (a + b) else .panic .overflow

def subU32 (a b : UInt32) : Outcome ε UInt32 :=
  if b ≤ a then .ok (a - b) else .panic .overflow

def subUsize (a b : Nat) : Outcome ε Nat :=
  if b ≤ a then .ok (a - b) else .panic .overflow

theorem le_iff (a b : UInt32) : a ≤ b ↔ a.toNat ≤ b.toNat := UInt32.le_iff_toNat_le

theorem lt_iff (a b : UInt32) : a < b ↔ a.toNat < b.toNat := UInt32.lt_iff_toNat_lt

theorem eq_iff (a b : UInt32) : a = b ↔ a.toNat = b.toNat := UInt32.toNat_inj.symm

theorem toNat_lt (a : UInt32) : a.toNat < 4294967296 := a.toNat_lt

theorem toNat_add {a b : UInt32} (fits : a.toNat + b.toNat < 4294967296) :
    (a + b).toNat = a.toNat + b.toNat := by
  rw [UInt32.toNat_add, Nat.mod_eq_of_lt fits]

theorem toNat_sub {a b : UInt32} (ordered : b ≤ a) : (a - b).toNat = a.toNat - b.toNat :=
  UInt32.toNat_sub_of_le a b ordered

theorem toNat_ofNat {n : Nat} (fits : n < 4294967296) : (UInt32.ofNat n).toNat = n := by
  rw [UInt32.toNat_ofNat', Nat.mod_eq_of_lt fits]

theorem addU8_eq_ok {a b sum : UInt8} :
    (addU8 a b : Outcome ε UInt8) = .ok sum ↔ a.toNat + b.toNat < 256 ∧ sum = a + b := Outcome.guarded_eq_ok

theorem addU32_eq_ok {a b sum : UInt32} :
    (addU32 a b : Outcome ε UInt32) = .ok sum ↔ a.toNat + b.toNat < 4294967296 ∧ sum = a + b := Outcome.guarded_eq_ok

theorem addU32_overflow {a b : UInt32} (past : ¬ a.toNat + b.toNat < 4294967296) :
    (addU32 a b : Outcome ε UInt32) = .panic .overflow :=
  if_neg past

theorem subU32_eq_ok {a b difference : UInt32} :
    (subU32 a b : Outcome ε UInt32) = .ok difference ↔ b ≤ a ∧ difference = a - b := Outcome.guarded_eq_ok

@[simp] theorem returns_addU32 {a b : UInt32} :
    (addU32 a b : Outcome ε UInt32).Returns ↔ a.toNat + b.toNat < 4294967296 := Outcome.returns_guarded

theorem noError_addU32 {a b : UInt32} : (addU32 a b : Outcome ε UInt32).NoError := Outcome.noError_guarded

theorem noError_addU8 {a b : UInt8} : (addU8 a b : Outcome ε UInt8).NoError := Outcome.noError_guarded

private theorem max_spec (a b : UInt32) : (max a b = a ∨ max a b = b) ∧ a ≤ max a b ∧ b ≤ max a b := by
  have unfolded : max a b = if a ≤ b then b else a := rfl
  rw [unfolded]
  split
  next less => exact ⟨.inr rfl, less, UInt32.le_refl _⟩
  next more => exact ⟨.inl rfl, UInt32.le_refl _, UInt32.le_of_lt (UInt32.not_le.mp more)⟩

theorem foldl_max (first : UInt32) (rest : List UInt32) :
    rest.foldl max first ∈ first :: rest ∧ ∀ id ∈ first :: rest, id ≤ rest.foldl max first := by
  induction rest generalizing first with
  | nil => exact ⟨List.mem_singleton.mpr rfl, fun id member => by rw [List.mem_singleton.mp member]; exact UInt32.le_refl _⟩
  | cons second rest ih =>
    obtain ⟨member, bound⟩ := ih (max first second)
    obtain ⟨choice, left, right⟩ := max_spec first second
    rw [List.foldl_cons]
    have larger := bound _ List.mem_cons_self
    refine ⟨?_, fun id listed => ?_⟩
    · rcases List.mem_cons.mp member with same | later
      · rw [same]
        rcases choice with same | same <;> rw [same] <;> simp
      · exact List.mem_cons_of_mem _ (List.mem_cons_of_mem _ later)
    · rcases List.mem_cons.mp listed with rfl | listed
      · exact UInt32.le_trans left larger
      · rcases List.mem_cons.mp listed with rfl | listed
        · exact UInt32.le_trans right larger
        · exact bound id (List.mem_cons_of_mem _ listed)

section Buffers
variable {α : Type}

/-- `&buf[first..last]`. -/
def slice (buf : List α) (first last : Nat) : Outcome ε (List α) :=
  if first ≤ last ∧ last ≤ buf.length then .ok ((buf.drop first).take (last - first)) else .panic .bounds

/-- `&buf[first..]`. -/
def sliceFrom (buf : List α) (first : Nat) : Outcome ε (List α) :=
  if first ≤ buf.length then .ok (buf.drop first) else .panic .bounds

/-- `buf[position]`. -/
def index (buf : List α) (position : Nat) : Outcome ε α := Outcome.get .bounds buf[position]?

theorem slice_eq_ok {buf part : List α} {first last : Nat} :
    (slice buf first last : Outcome ε (List α)) = .ok part ↔
      (first ≤ last ∧ last ≤ buf.length) ∧ part = (buf.drop first).take (last - first) := Outcome.guarded_eq_ok

theorem slice_of {buf : List α} {first last : Nat} (ordered : first ≤ last) (inside : last ≤ buf.length) :
    (slice buf first last : Outcome ε (List α)) = .ok ((buf.drop first).take (last - first)) :=
  if_pos ⟨ordered, inside⟩

@[simp] theorem returns_slice {buf : List α} {first last : Nat} :
    (slice buf first last : Outcome ε (List α)).Returns ↔ first ≤ last ∧ last ≤ buf.length := Outcome.returns_guarded

theorem sliceFrom_of {buf : List α} {first : Nat} (inside : first ≤ buf.length) :
    (sliceFrom buf first : Outcome ε (List α)) = .ok (buf.drop first) := if_pos inside

theorem sliceFrom_eq_ok {buf part : List α} {first : Nat} :
    (sliceFrom buf first : Outcome ε (List α)) = .ok part ↔ first ≤ buf.length ∧ part = buf.drop first := Outcome.guarded_eq_ok

@[simp] theorem returns_sliceFrom {buf : List α} {first : Nat} :
    (sliceFrom buf first : Outcome ε (List α)).Returns ↔ first ≤ buf.length := Outcome.returns_guarded

theorem index_eq_ok {buf : List α} {position : Nat} {value : α} :
    (index buf position : Outcome ε α) = .ok value ↔ buf[position]? = some value := Outcome.get_eq_ok

theorem index_of {buf : List UInt8} {position : Nat} (inside : position < buf.length) :
    (index buf position : Outcome ε UInt8) = .ok (buf.getD position 0) := by
  rw [index, List.getElem?_eq_getElem inside, List.getD_eq_getElem _ _ inside]
  rfl

@[simp] theorem returns_index {buf : List α} {position : Nat} :
    (index buf position : Outcome ε α).Returns ↔ position < buf.length := by
  simp [index]

end Buffers

section Words

/-- `u32::to_be_bytes`. -/
def toBeBytes (word : UInt32) : List UInt8 :=
  [(word >>> 24).toUInt8, (word >>> 16).toUInt8, (word >>> 8).toUInt8, word.toUInt8]

/-- `u32::from_be_bytes` of a slice; the callers pass exactly four bytes. -/
def fromBeBytes : List UInt8 → UInt32
  | b0 :: b1 :: b2 :: b3 :: _ =>
    (b0.toUInt32 <<< 24) ||| (b1.toUInt32 <<< 16) ||| (b2.toUInt32 <<< 8) ||| b3.toUInt32
  | _ => 0

@[simp] theorem length_toBeBytes (word : UInt32) : (toBeBytes word).length = 4 := rfl

private theorem reassemble (n : Nat) (bounded : n < 2 ^ 32) :
    (((n >>> 24) % 2 ^ 8) <<< 24) % 2 ^ 32 ||| (((n >>> 16) % 2 ^ 8) <<< 16) % 2 ^ 32 |||
      (((n >>> 8) % 2 ^ 8) <<< 8) % 2 ^ 32 ||| n % 2 ^ 8 = n := by
  apply Nat.eq_of_testBit_eq
  intro i
  simp only [Nat.testBit_lor, Nat.testBit_mod_two_pow, Nat.testBit_shiftLeft, Nat.testBit_shiftRight]
  have high : 32 ≤ i → n.testBit i = false := fun large =>
    Nat.testBit_lt_two_pow (Nat.lt_of_lt_of_le bounded (Nat.pow_le_pow_right (by decide) large))
  -- one case for each of the four bytes the bit may lie in, and one above them
  rcases Nat.lt_or_ge i 8 with byte | byte
  · simp [byte, show i < 32 by omega, show ¬ 8 ≤ i by omega, show ¬ 16 ≤ i by omega, show ¬ 24 ≤ i by omega]
  rcases Nat.lt_or_ge i 16 with second | second
  · simp [byte, show i < 32 by omega, show ¬ i < 8 by omega, show i - 8 < 8 by omega,
      show 8 + (i - 8) = i by omega, show ¬ 16 ≤ i by omega, show ¬ 24 ≤ i by omega]
  rcases Nat.lt_or_ge i 24 with third | third
  · simp [second, show i < 32 by omega, show ¬ i < 8 by omega, show ¬ i - 8 < 8 by omega,
      show i - 16 < 8 by omega, show 16 + (i - 16) = i by omega, show ¬ 24 ≤ i by omega]
  rcases Nat.lt_or_ge i 32 with fourth | fourth
  · simp [third, fourth, show ¬ i < 8 by omega, show ¬ i - 8 < 8 by omega, show ¬ i - 16 < 8 by omega,
      show i - 24 < 8 by omega, show 24 + (i - 24) = i by omega]
  · simp [high fourth, show ¬ i < 32 by omega, show ¬ i < 8 by omega]

/-- Reading a big-endian word undoes writing it, whatever bytes follow. -/
@[simp] theorem fromBeBytes_toBeBytes (word : UInt32) (rest : List UInt8) :
    fromBeBytes (toBeBytes word ++ rest) = word := by
  apply UInt32.toNat_inj.mp
  simp only [toBeBytes, fromBeBytes, List.cons_append, UInt32.toNat_or, UInt32.toNat_shiftLeft,
    UInt8.toNat_toUInt32, UInt32.toNat_toUInt8, UInt32.toNat_shiftRight]
  exact reassemble word.toNat word.toNat_lt

/-- `u32::from_be_bytes(buf[offset..offset + 4].try_into().unwrap())`. -/
def readU32 (buf : List UInt8) (offset : Nat) : Outcome ε UInt32 := do
  let bytes ← slice buf offset (offset + 4)
  pure (fromBeBytes bytes)

@[simp] theorem returns_readU32 {buf : List UInt8} {offset : Nat} :
    (readU32 buf offset : Outcome ε UInt32).Returns ↔ offset + 4 ≤ buf.length := by
  simp [readU32, Outcome.returns_bind]

theorem fromBeBytes_take (buf : List UInt8) : fromBeBytes (buf.take 4) = fromBeBytes buf := by
  match buf with
  | [] | [_] | [_, _] | [_, _, _] | _ :: _ :: _ :: _ :: _ => rfl

theorem readU32_of {buf : List UInt8} {offset : Nat} (inside : offset + 4 ≤ buf.length) :
    (readU32 buf offset : Outcome ε UInt32) = .ok (fromBeBytes (buf.drop offset)) := by
  simp only [readU32, slice_of (Nat.le_add_right offset 4) inside, Outcome.ok_bind, Nat.add_sub_cancel_left,
    fromBeBytes_take, Outcome.pure_def]

end Words
end Machine
