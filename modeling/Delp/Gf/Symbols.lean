import Delp.Gf.Laws
import Delp.Gf.Simd
import Mathlib.Algebra.Module.Pi

/-! Symbols as vectors over the field of a configuration: a byte is one element of
GF(2⁸), or two of GF(2⁴), and the bulk kernels are the operations of a vector space. -/

namespace Delp
open Machine

abbrev Config.Field.Elem : Config.Field → Type
  | .gf2_8 => Gf2_8
  | .gf2_4 => Gf2_4

instance (field : Config.Field) : Field field.Elem :=
  match field with
  | .gf2_8 => inferInstanceAs (Field Gf2_8)
  | .gf2_4 => inferInstanceAs (Field Gf2_4)

namespace Gf

def InField : Config.Field → UInt8 → Prop
  | .gf2_8, _ => True
  | .gf2_4, c => c < 16

instance (field : Config.Field) (c : UInt8) : Decidable (InField field c) :=
  match field with
  | .gf2_8 => inferInstanceAs (Decidable True)
  | .gf2_4 => inferInstanceAs (Decidable (c < 16))

def elem (field : Config.Field) (c : UInt8) : field.Elem :=
  match field with
  | .gf2_8 => ⟨c⟩
  | .gf2_4 => .fromU8 c

/-- The vector of the elements packed in a byte string. -/
def symbol (field : Config.Field) (bytes : Bytes) : ℕ → field.Elem :=
  match field with
  | .gf2_8 => fun lane => ⟨bytes.getD lane 0⟩
  | .gf2_4 => fun lane => .fromU8 (bytes.getD (lane / 2) 0 >>> if lane % 2 = 0 then 0 else 4)

def mulByte (field : Config.Field) (c s : UInt8) : UInt8 :=
  match field with
  | .gf2_8 => Gf2_8.mulRaw s c
  | .gf2_4 => Gf2_4.mulRaw (s &&& 0x0F) (c &&& 0x0F) ^^^ (Gf2_4.mulRaw (s >>> 4) (c &&& 0x0F) <<< 4)

private theorem forall_byte {p : UInt8 → Prop} (entries : ∀ n < 256, p (UInt8.ofNat n)) (s : UInt8) : p s := by
  have entry := entries s.toNat s.toNat_lt
  rwa [UInt8.ofNat_toNat] at entry

private theorem forall_nibble {p : UInt8 → Prop} (entries : ∀ n < 16, p (UInt8.ofNat n)) {s : UInt8}
    (low : s < 16) : p s := by
  have entry := entries s.toNat (UInt8.lt_iff_toNat_lt.mp low)
  rwa [UInt8.ofNat_toNat] at entry

private theorem nibbles_xor (s : UInt8) : (s &&& (0x0F : UInt8)) ^^^ ((s >>> 4) <<< 4) = s :=
  forall_byte (p := fun s => (s &&& (0x0F : UInt8)) ^^^ ((s >>> 4) <<< 4) = s) (by decide +kernel) s

theorem shiftRight_lt (s : UInt8) : s >>> 4 < 16 :=
  forall_byte (p := fun s => s >>> 4 < 16) (by decide +kernel) s

theorem and_of_lt {s : UInt8} (low : s < 16) : s &&& 0x0F = s :=
  forall_nibble (p := fun s => s &&& 0x0F = s) (by decide +kernel) low

private theorem packed {x y : UInt8} (low : x < 16) (high : y < 16) :
    (x ^^^ (y <<< 4)) &&& 0x0F = x ∧ (x ^^^ (y <<< 4)) >>> 4 = y := by
  have entries : ∀ m < 16, ∀ n < 16, (UInt8.ofNat m ^^^ (UInt8.ofNat n <<< 4)) &&& (0x0F : UInt8) = UInt8.ofNat m ∧
    (UInt8.ofNat m ^^^ (UInt8.ofNat n <<< 4)) >>> (4 : UInt8) = UInt8.ofNat n := by decide +kernel
  have entry := entries x.toNat (UInt8.lt_iff_toNat_lt.mp low) y.toNat (UInt8.lt_iff_toNat_lt.mp high)
  simpa only [UInt8.ofNat_toNat] using entry

section Elements
variable {field : Config.Field} {c d : UInt8}

theorem elem_eq_iff (inside : InField field c) (other : InField field d) : elem field c = elem field d ↔ c = d := by
  cases field with
  | gf2_8 => exact ⟨fun same => congrArg Gf2_8.value same, congrArg _⟩
  | gf2_4 =>
    refine ⟨fun same => ?_, congrArg _⟩
    have values : c &&& 0x0F = d &&& 0x0F := congrArg Gf2_4.value same
    rwa [and_of_lt inside, and_of_lt other] at values

theorem elem_zero : elem field 0 = 0 := by
  cases field
  · rfl
  · exact Gf2_4.ext (by decide)

theorem elem_one : elem field 1 = 1 := by
  cases field
  · rfl
  · exact Gf2_4.ext (by decide)

theorem inField_zero : InField field 0 := by
  cases field <;> decide

theorem inField_one : InField field 1 := by
  cases field <;> decide

theorem elem_eq_zero (inside : InField field c) : elem field c = 0 ↔ c = 0 := by
  rw [← elem_zero, elem_eq_iff inside inField_zero]

theorem elem_eq_one (inside : InField field c) : elem field c = 1 ↔ c = 1 := by
  rw [← elem_one, elem_eq_iff inside inField_one]

theorem add_self (a : field.Elem) : a + a = 0 := by
  cases field
  · exact Gf2_8.ext UInt8.xor_self
  · exact Gf2_4.ext UInt8.xor_self

end Elements

section Lanes
variable {field : Config.Field}

private theorem lane_xor (x y : UInt8) (shift : UInt8) :
    Gf2_4.fromU8 ((x ^^^ y) >>> shift) = Gf2_4.fromU8 (x >>> shift) + Gf2_4.fromU8 (y >>> shift) := by
  apply Gf2_4.ext
  rw [Gf2_4.value_add]
  simp only [Gf2_4.fromU8, UInt8.shiftRight_xor]
  exact UInt8.toBitVec_inj.mp (by ext; simp [Bool.and_xor_distrib_right])

theorem getD_zipWith_xor {a b : Bytes} (length : a.length = b.length) (i : ℕ) :
    (a.zipWith (· ^^^ ·) b).getD i 0 = a.getD i 0 ^^^ b.getD i 0 := by
  rcases Nat.lt_or_ge i a.length with inside | outside
  · simp [inside, length ▸ inside]
  · simp [outside, length ▸ outside]

theorem symbol_xor {a b : Bytes} (length : a.length = b.length) :
    symbol field (a.zipWith (· ^^^ ·) b) = symbol field a + symbol field b := by
  cases field with
  | gf2_8 =>
    funext lane
    exact Gf2_8.ext (getD_zipWith_xor length lane)
  | gf2_4 =>
    funext lane
    simp only [symbol, Pi.add_apply, getD_zipWith_xor length, lane_xor]

theorem mulByte_zero (c : UInt8) : mulByte field c 0 = 0 := by
  cases field
  · simp [mulByte, Gf2_8.mulRaw]
  · simp [mulByte, Gf2_4.mulRaw]

theorem getD_map_mulByte (c : UInt8) (bytes : Bytes) (i : ℕ) :
    (bytes.map (mulByte field c)).getD i 0 = mulByte field c (bytes.getD i 0) := by
  rw [List.getD_eq_getElem?_getD, List.getD_eq_getElem?_getD, List.getElem?_map]
  cases bytes[i]? with
  | none => exact (mulByte_zero c).symm
  | some byte => rfl

theorem symbol_mulByte (c : UInt8) (bytes : Bytes) :
    symbol field (bytes.map (mulByte field c)) = elem field c • symbol field bytes := by
  cases field with
  | gf2_8 =>
    funext lane
    apply Gf2_8.ext
    have product := Gf2_8.value_mul ⟨bytes.getD lane 0⟩ ⟨c⟩
    rw [mul_comm] at product
    exact (getD_map_mulByte c bytes lane).trans product.symm
  | gf2_4 =>
    funext lane
    apply Gf2_4.ext
    rw [Pi.smul_apply, smul_eq_mul, mul_comm, Gf2_4.value_mul]
    simp only [symbol, getD_map_mulByte, Gf2_4.fromU8, elem]
    have kept := packed (Gf2_4.mulRaw_lt (bytes.getD (lane / 2) 0 &&& 0x0F) (c &&& 0x0F))
      (Gf2_4.mulRaw_lt (bytes.getD (lane / 2) 0 >>> 4) (c &&& 0x0F))
    split
    · rw [UInt8.shiftRight_zero, UInt8.shiftRight_zero]
      exact kept.1
    · rw [and_of_lt (shiftRight_lt (bytes.getD (lane / 2) 0)), and_of_lt (shiftRight_lt _)]
      exact kept.2

theorem symbol_zero (size : ℕ) : symbol field (List.replicate size 0) = 0 := by
  have zeros (i : ℕ) : (List.replicate size (0 : UInt8)).getD i 0 = 0 := by
    rw [List.getD_eq_getElem?_getD, List.getElem?_replicate]
    split <;> rfl
  cases field with
  | gf2_8 =>
    funext lane
    exact Gf2_8.ext (zeros lane)
  | gf2_4 =>
    funext lane
    simp only [symbol, zeros, UInt8.zero_shiftRight]
    exact (elem_zero : elem .gf2_4 0 = 0)

theorem symbol_injective {a b : Bytes} (length : a.length = b.length) (same : symbol field a = symbol field b) :
    a = b := by
  have bytes (i : ℕ) : a.getD i 0 = b.getD i 0 := by
    cases field with
    | gf2_8 => exact congrArg Gf2_8.value (congrFun same i)
    | gf2_4 =>
      have low := congrArg Gf2_4.value (congrFun same (2 * i))
      have high := congrArg Gf2_4.value (congrFun same (2 * i + 1))
      simp only [symbol, Nat.mul_mod_right, if_true, UInt8.shiftRight_zero, Gf2_4.fromU8,
        Nat.mul_div_cancel_left i (show 0 < 2 by decide)] at low
      simp only [symbol, Nat.mul_add_mod, show 1 % 2 ≠ 0 by decide, if_false, Gf2_4.fromU8,
        show (2 * i + 1) / 2 = i by omega, and_of_lt (shiftRight_lt _)] at high
      rw [← nibbles_xor (a.getD i 0), low, high, nibbles_xor]
  apply List.ext_getElem length
  intro i inside other
  have entry := bytes i
  rwa [List.getD_eq_getElem _ _ inside, List.getD_eq_getElem _ _ other] at entry

end Lanes

section Combination
variable {field : Config.Field}

def combine (field : Config.Field) (size : ℕ) (terms : List (UInt8 × Bytes)) : Bytes :=
  terms.foldl (fun sum term => sum.zipWith (· ^^^ ·) (term.2.map (mulByte field term.1))) (List.replicate size 0)

/-- The combination of symbols is a linear combination of their vectors. -/
theorem symbol_combine {size : ℕ} {terms : List (UInt8 × Bytes)} (sized : ∀ term ∈ terms, term.2.length = size) :
    (combine field size terms).length = size ∧
      symbol field (combine field size terms) =
        (terms.map fun term => elem field term.1 • symbol field term.2).sum := by
  suffices loop : ∀ sum : Bytes, sum.length = size →
      (terms.foldl (fun sum term => sum.zipWith (· ^^^ ·) (term.2.map (mulByte field term.1))) sum).length = size ∧
      symbol field (terms.foldl (fun sum term => sum.zipWith (· ^^^ ·) (term.2.map (mulByte field term.1))) sum) =
        symbol field sum + (terms.map fun term => elem field term.1 • symbol field term.2).sum by
    have total := loop (List.replicate size 0) List.length_replicate
    rwa [symbol_zero, zero_add] at total
  induction terms with
  | nil => exact fun sum length => ⟨length, by simp⟩
  | cons term terms ih =>
    intro sum length
    have matched : sum.length = (term.2.map (mulByte field term.1)).length := by
      rw [List.length_map, length, sized term List.mem_cons_self]
    have rest := ih (fun other member => sized other (List.mem_cons_of_mem _ member))
      (sum.zipWith (· ^^^ ·) (term.2.map (mulByte field term.1)))
      (by rw [List.length_zipWith, ← matched, Nat.min_self, length])
    refine ⟨rest.1, rest.2.trans ?_⟩
    rw [symbol_xor matched, symbol_mulByte, List.map_cons, List.sum_cons, add_assoc]

end Combination

section Kernels
variable {field : Config.Field}

private theorem getD_table (entry : ℕ → UInt8) {x : UInt8} (low : x < 16) :
    ((List.range 16).map entry).getD x.toNat 0 = entry x.toNat := by
  have inside : x.toNat < 16 := UInt8.lt_iff_toNat_lt.mp low
  simp only [List.getD_eq_getElem?_getD, List.getElem?_map, List.getElem?_range inside, Option.map_some,
    Option.getD_some]

theorem product_gf2_8 (c s : UInt8) : (NibbleTables.forGf2_8 c).product s = mulByte .gf2_8 c s := by
  simp only [NibbleTables.product, NibbleTables.forGf2_8, getD_table _ (Gf2_4.mask_lt s),
    getD_table _ (shiftRight_lt s), UInt8.ofNat_toNat]
  have distributed := congrArg Gf2_8.value
    (add_mul (⟨s &&& 0x0F⟩ : Gf2_8) ⟨(s >>> 4) <<< 4⟩ ⟨c⟩)
  rw [Gf2_8.value_add, Gf2_8.value_mul, Gf2_8.value_mul, Gf2_8.value_mul, Gf2_8.value_add, nibbles_xor] at distributed
  exact distributed.symm

theorem product_gf2_4 (c s : UInt8) :
    (NibbleTables.forGf2_4 (((c &&& 0x0F) <<< 4) ||| (c &&& 0x0F))).product s = mulByte .gf2_4 c s := by
  have twice : ∀ n < 16, ((UInt8.ofNat n <<< 4) ||| UInt8.ofNat n) &&& (0x0F : UInt8) = UInt8.ofNat n ∧
    ((UInt8.ofNat n <<< 4) ||| UInt8.ofNat n) >>> (4 : UInt8) = UInt8.ofNat n := by decide +kernel
  obtain ⟨low, high⟩ := twice (c &&& 0x0F).toNat (UInt8.lt_iff_toNat_lt.mp (Gf2_4.mask_lt c))
  rw [UInt8.ofNat_toNat] at low high
  simp only [NibbleTables.product, NibbleTables.forGf2_4, getD_table _ (Gf2_4.mask_lt s),
    getD_table _ (shiftRight_lt s), UInt8.ofNat_toNat, low, high, mulByte]

theorem mulByte_of_zero (s : UInt8) : mulByte field 0 s = 0 := by
  cases field
  · simp [mulByte, Gf2_8.mulRaw]
  · simp [mulByte, Gf2_4.mulRaw]

theorem scalarMulAcc_eq {dst src : Bytes} (length : dst.length = src.length) {t : NibbleTables} {c : UInt8}
    (product : ∀ s, t.product s = mulByte field c s) :
    scalarMulAcc dst src t = dst.zipWith (· ^^^ ·) (src.map (mulByte field c)) := by
  rw [scalarMulAcc, ← length, List.drop_length, List.append_nil, List.zipWith_map_right]
  simp only [product]

theorem zipWith_zero {dst src : Bytes} (length : dst.length = src.length) {f : UInt8 → UInt8}
    (zero : ∀ s, f s = 0) : dst.zipWith (· ^^^ ·) (src.map f) = dst := by
  induction dst generalizing src with
  | nil => rfl
  | cons d dst ih =>
    obtain _ | ⟨s, src⟩ := src
    · cases length
    · simp [zero, ih (Nat.succ.inj length)]

/-- The bulk accumulation adds the scaled source, byte by byte. -/
theorem mulAcc_eq {dst src : Bytes} (length : dst.length = src.length) (c : UInt8) :
    mulAcc field dst src c = .ok (dst.zipWith (· ^^^ ·) (src.map (mulByte field c))) := by
  cases field with
  | gf2_8 =>
    rw [mulAcc, mulAccGf2_8, Outcome.require_of length, Outcome.ok_bind]
    split
    next zero =>
      subst zero
      rw [zipWith_zero length mulByte_of_zero]
      rfl
    next => rw [scalarMulAcc_eq length (product_gf2_8 c), Outcome.pure_def]
  | gf2_4 =>
    rw [mulAcc, mulAccGf2_4, Outcome.require_of length, Outcome.ok_bind]
    dsimp only
    split
    next zero =>
      rw [zipWith_zero length fun s => by simp [mulByte, zero, Gf2_4.mulRaw]]
      rfl
    next => rw [scalarMulAcc_eq length (product_gf2_4 c), Outcome.pure_def]

theorem mulScale_eq (buf : Bytes) (c : UInt8) : mulScale field buf c = buf.map (mulByte field c) := by
  have zeros {f : UInt8 → UInt8} (zero : ∀ s, f s = 0) : List.replicate buf.length 0 = buf.map f := by
    rw [List.map_congr_left (g := fun _ => 0) fun s _ => zero s, List.map_const']
  cases field with
  | gf2_8 =>
    rw [mulScale, mulScaleGf2_8]
    split
    next zero =>
      subst zero
      exact zeros mulByte_of_zero
    split
    next one =>
      subst one
      have same : mulByte .gf2_8 1 = id := by
        funext s
        have product := congrArg Gf2_8.value (mul_one (⟨s⟩ : Gf2_8))
        rwa [Gf2_8.value_mul] at product
      rw [same, List.map_id]
    next => rw [scalarMulScale, funext (product_gf2_8 c)]
  | gf2_4 =>
    rw [mulScale, mulScaleGf2_4]
    split
    next zero => exact zeros fun s => by simp [mulByte, zero, Gf2_4.mulRaw]
    next => rw [scalarMulScale, funext (product_gf2_4 c)]

theorem mulByte_inField {s : UInt8} (inside : InField field s) (c : UInt8) : InField field (mulByte field c s) := by
  cases field with
  | gf2_8 => trivial
  | gf2_4 =>
    have high : s >>> 4 = 0 := forall_nibble (p := fun s => s >>> 4 = 0) (by decide +kernel) inside
    have shifted : mulByte .gf2_4 c s = Gf2_4.mulRaw (s &&& 0x0F) (c &&& 0x0F) := by
      simp [mulByte, high, Gf2_4.mulRaw]
    rw [shifted]
    exact Gf2_4.mulRaw_lt _ _

theorem xor_inField {a b : UInt8} (left : InField field a) (right : InField field b) : InField field (a ^^^ b) := by
  cases field
  · trivial
  · exact Gf2_4.xor_lt left right

theorem elem_xor (a b : UInt8) : elem field (a ^^^ b) = elem field a + elem field b := by
  cases field with
  | gf2_8 => rfl
  | gf2_4 =>
    have sum := lane_xor a b 0
    rwa [UInt8.shiftRight_zero, UInt8.shiftRight_zero, UInt8.shiftRight_zero] at sum

theorem elem_mulByte {s : UInt8} (inside : InField field s) (c : UInt8) :
    elem field (mulByte field c s) = elem field c * elem field s := by
  cases field with
  | gf2_8 =>
    rw [mul_comm]
    exact Gf2_8.ext (Gf2_8.value_mul ⟨s⟩ ⟨c⟩).symm
  | gf2_4 =>
    rw [mul_comm]
    apply Gf2_4.ext
    rw [Gf2_4.value_mul]
    have low : mulByte .gf2_4 c s < 16 := mulByte_inField inside c
    have high : s >>> 4 = 0 := forall_nibble (p := fun s => s >>> 4 = 0) (by decide +kernel) inside
    simp only [elem, Gf2_4.fromU8, and_of_lt low]
    simp [mulByte, high, Gf2_4.mulRaw]

end Kernels

end Gf

end Delp
