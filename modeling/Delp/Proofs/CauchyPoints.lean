import Delp.Gf.Symbols
import Delp.Lib.CauchyMatrix
import Delp.Wire.CoefGen

/-! The Cauchy generators as inverse distances: every id has a column point and every coded id of
a generation a row point, in disjoint halves of the field. -/

namespace Delp
open Machine Config Gf

namespace CoefGen

/-- Where the row points start: above every column point. -/
def rowBase : Config.Field → ℕ
  | .gf2_8 => 128
  | .gf2_4 => 8

/-- What a generation adds to the offsets of its rows. -/
def rotation : Config.Field → ℕ
  | .gf2_8 => 7
  | .gf2_4 => 3

def columnPoint (field : Config.Field) (id : ℕ) : field.Elem :=
  elem field (UInt8.ofNat (id % EncoderConfigBuilder.cauchyMax field))

def rowOffset (field : Config.Field) (codedId generation : ℕ) : ℕ :=
  (codedId + rotation field * generation) % EncoderConfigBuilder.cauchyMax field

def rowPoint (field : Config.Field) (offset : ℕ) : field.Elem := elem field (UInt8.ofNat (rowBase field + offset))

def cauchyCoef : Config.Field → UInt32 → UInt32 → UInt8 → Result UInt8
  | .gf2_8 => cauchyCoefGf2_8
  | .gf2_4 => cauchyCoefGf2_4

variable {field : Config.Field}

private theorem point_eq_iff {m n : ℕ} (first : m < 2 * rowBase field) (second : n < 2 * rowBase field) :
    elem field (UInt8.ofNat m) = elem field (UInt8.ofNat n) ↔ m = n := by
  have inside {k : ℕ} (small : k < 2 * rowBase field) : (UInt8.ofNat k).toNat = k ∧ InField field (UInt8.ofNat k) := by
    have byte : (UInt8.ofNat k).toNat = k := by
      rw [UInt8.toNat_ofNat', Nat.mod_eq_of_lt]
      cases field <;> simp only [rowBase] at small <;> omega
    refine ⟨byte, ?_⟩
    cases field with
    | gf2_8 => trivial
    | gf2_4 =>
      refine UInt8.lt_iff_toNat_lt.mpr ?_
      rw [byte]
      exact small
  rw [elem_eq_iff (inside first).2 (inside second).2, ← UInt8.toNat_inj, (inside first).1, (inside second).1]

private theorem cauchyMax_le (field : Config.Field) :
    0 < EncoderConfigBuilder.cauchyMax field ∧ EncoderConfigBuilder.cauchyMax field ≤ rowBase field := by
  cases field <;> decide

theorem columnPoint_eq_iff {a b : ℕ} : columnPoint field a = columnPoint field b ↔
    a % EncoderConfigBuilder.cauchyMax field = b % EncoderConfigBuilder.cauchyMax field := by
  obtain ⟨positive, small⟩ := cauchyMax_le field
  have first := Nat.mod_lt a positive
  have second := Nat.mod_lt b positive
  exact point_eq_iff (by omega) (by omega)

theorem rowPoint_eq_iff {m n : ℕ} (first : m < EncoderConfigBuilder.cauchyMax field)
    (second : n < EncoderConfigBuilder.cauchyMax field) : rowPoint field m = rowPoint field n ↔ m = n := by
  obtain ⟨_, small⟩ := cauchyMax_le field
  rw [rowPoint, rowPoint, point_eq_iff (by omega) (by omega), Nat.add_left_cancel_iff]

theorem columnPoint_ne_rowPoint (id : ℕ) {offset : ℕ} (inside : offset < EncoderConfigBuilder.cauchyMax field) :
    columnPoint field id ≠ rowPoint field offset := by
  obtain ⟨positive, small⟩ := cauchyMax_le field
  have column := Nat.mod_lt id positive
  rw [columnPoint, rowPoint, Ne, point_eq_iff (by omega) (by omega)]
  omega

theorem rowOffset_lt (field : Config.Field) (codedId generation : ℕ) :
    rowOffset field codedId generation < EncoderConfigBuilder.cauchyMax field := Nat.mod_lt _ (cauchyMax_le field).1

private theorem rotated (codedId : UInt32) (generation : UInt8) (turn : UInt32) (small : codedId.toNat < 128)
    (few : turn.toNat ≤ 7) :
    (addU32 codedId (generation.toUInt32 * turn) : Result UInt32) = .ok (codedId + generation.toUInt32 * turn) ∧
      (codedId + generation.toUInt32 * turn).toNat = codedId.toNat + turn.toNat * generation.toNat := by
  have bounded := generation.toNat_lt
  have product : (generation.toUInt32 * turn).toNat = turn.toNat * generation.toNat := by
    rw [UInt32.toNat_mul, UInt8.toNat_toUInt32, Nat.mul_comm, Nat.mod_eq_of_lt]
    exact Nat.lt_of_le_of_lt (Nat.mul_le_mul few (Nat.le_of_lt bounded)) (by decide)
  have fits : turn.toNat * generation.toNat ≤ 7 * 255 := Nat.mul_le_mul few (Nat.le_of_lt_succ bounded)
  have sum : codedId.toNat + (generation.toUInt32 * turn).toNat < 4294967296 := by rw [product]; omega
  exact ⟨addU32_eq_ok.mpr ⟨sum, rfl⟩, by rw [toNat_add sum, product]⟩

private theorem masked (word : UInt32) : (word &&& 0x7F).toUInt8 = UInt8.ofNat (word.toNat % 128) := by
  apply UInt8.toNat_inj.mp
  rw [UInt32.toNat_toUInt8, UInt32.toNat_and, UInt8.toNat_ofNat']
  exact congrArg (· % 256) (Nat.and_two_pow_sub_one_eq_mod word.toNat 7)

private theorem reduced (word : UInt32) : (word % 7).toUInt8 = UInt8.ofNat (word.toNat % 7) := by
  apply UInt8.toNat_inj.mp
  rw [UInt32.toNat_toUInt8, UInt32.toNat_mod, UInt8.toNat_ofNat']
  rfl

private theorem based {base offset : ℕ} (fits : base + offset < 256) :
    (addU8 (UInt8.ofNat base) (UInt8.ofNat offset) : Result UInt8) = .ok (UInt8.ofNat (base + offset)) := by
  rw [UInt8.ofNat_add]
  refine addU8_eq_ok.mpr ⟨?_, rfl⟩
  rw [UInt8.toNat_ofNat', UInt8.toNat_ofNat', Nat.mod_eq_of_lt (by omega), Nat.mod_eq_of_lt (by omega)]
  exact fits

theorem cauchyCoef_eq (srcId codedId : UInt32) (generation : UInt8)
    (inCycle : codedId.toNat < EncoderConfigBuilder.cauchyMax field) :
    ∃ c, cauchyCoef field srcId codedId generation = .ok c ∧ InField field c ∧
      elem field c = (columnPoint field srcId.toNat - rowPoint field (rowOffset field codedId.toNat generation.toNat))⁻¹ := by
  have apart := columnPoint_ne_rowPoint srcId.toNat (rowOffset_lt field codedId.toNat generation.toNat)
  have below := rowOffset_lt field codedId.toNat generation.toNat
  cases field with
  | gf2_8 =>
    obtain ⟨added, sum⟩ := rotated codedId generation 7 inCycle (by decide)
    have offset : (codedId + generation.toUInt32 * 7 &&& 0x7F).toUInt8 =
        UInt8.ofNat (rowOffset .gf2_8 codedId.toNat generation.toNat) := by
      rw [masked, sum]
      rfl
    have distance : (⟨UInt8.ofNat (srcId.toNat % 128) ^^^ UInt8.ofNat (128 + rowOffset .gf2_8 codedId.toNat generation.toNat)⟩ : Gf2_8) =
        columnPoint .gf2_8 srcId.toNat - rowPoint .gf2_8 (rowOffset .gf2_8 codedId.toNat generation.toNat) := rfl
    obtain ⟨b, inverted, product⟩ := Gf2_8.inv_eq (a := ⟨UInt8.ofNat (srcId.toNat % 128) ^^^
      UInt8.ofNat (128 + rowOffset .gf2_8 codedId.toNat generation.toNat)⟩) fun zero =>
        sub_ne_zero.mpr apart (distance.symm.trans (Gf2_8.ext zero))
    refine ⟨b.value, ?_, trivial, ?_⟩
    · rw [cauchyCoef, cauchyCoefGf2_8, Outcome.require_of (lt_iff _ _ |>.mpr inCycle), Outcome.ok_bind]
      dsimp only
      rw [added, Outcome.ok_bind, offset, show (128 : UInt8) = UInt8.ofNat 128 from rfl, based (by simp only [EncoderConfigBuilder.cauchyMax] at below; omega), Outcome.ok_bind,
        masked, inverted]
      rfl
    · rw [← distance]
      exact eq_inv_of_mul_eq_one_right product
  | gf2_4 =>
    simp only [EncoderConfigBuilder.cauchyMax] at inCycle below
    obtain ⟨added, sum⟩ := rotated codedId generation 3 (by omega) (by decide)
    have offset : (((codedId + generation.toUInt32 * 3) % 7).toUInt8) =
        UInt8.ofNat (rowOffset .gf2_4 codedId.toNat generation.toNat) := by
      rw [reduced, sum]
      rfl
    have low {k : ℕ} (small : k < 16) : UInt8.ofNat k < 16 := by
      rw [UInt8.lt_iff_toNat_lt, UInt8.toNat_ofNat', Nat.mod_eq_of_lt (by omega)]
      exact small
    have column := low (show srcId.toNat % 7 < 16 by omega)
    have row := low (show 8 + rowOffset .gf2_4 codedId.toNat generation.toNat < 16 by omega)
    have distance : Gf2_4.fromU8 (UInt8.ofNat (srcId.toNat % 7) ^^^ UInt8.ofNat (8 + rowOffset .gf2_4 codedId.toNat generation.toNat)) =
        columnPoint .gf2_4 srcId.toNat - rowPoint .gf2_4 (rowOffset .gf2_4 codedId.toNat generation.toNat) := by
      refine Gf2_4.ext ?_
      show _ &&& 0x0F = (_ &&& 0x0F) ^^^ (_ &&& 0x0F)
      exact (and_of_lt (Gf2_4.xor_lt column row)).trans
        (congrArg₂ (· ^^^ ·) (and_of_lt column) (and_of_lt row)).symm
    obtain ⟨b, inverted, product⟩ := Gf2_4.inv_eq (a := Gf2_4.fromU8 (UInt8.ofNat (srcId.toNat % 7) ^^^
      UInt8.ofNat (8 + rowOffset .gf2_4 codedId.toNat generation.toNat))) fun zero =>
        sub_ne_zero.mpr apart (distance.symm.trans (Gf2_4.ext zero))
    refine ⟨b.value, ?_, b.low, ?_⟩
    · rw [cauchyCoef, cauchyCoefGf2_4, Outcome.require_of (lt_iff _ _ |>.mpr inCycle), Outcome.ok_bind]
      dsimp only
      rw [added, Outcome.ok_bind, offset, show (8 : UInt8) = UInt8.ofNat 8 from rfl, based (by omega), Outcome.ok_bind,
        reduced, inverted]
      rfl
    · rw [← distance, ← eq_inv_of_mul_eq_one_right product]
      exact Gf2_4.ext (and_of_lt b.low)

theorem cauchy_square {k : ℕ} {ids codedIds : Fin k → UInt32} {generations : Fin k → UInt8}
    (columns : Function.Injective fun j => (ids j).toNat % EncoderConfigBuilder.cauchyMax field)
    (inCycle : ∀ i, (codedIds i).toNat < EncoderConfigBuilder.cauchyMax field)
    (rows : Function.Injective fun i => rowOffset field (codedIds i).toNat (generations i).toNat) :
    ∃ coefs : Fin k → Fin k → UInt8,
      (∀ i j, cauchyCoef field (ids j) (codedIds i) (generations i) = .ok (coefs i j) ∧ InField field (coefs i j)) ∧
        (Matrix.of fun i j => elem field (coefs i j)).det ≠ 0 := by
  choose coefs derived inField spells using fun i j => cauchyCoef_eq (ids j) (codedIds i) (generations i) (inCycle i)
  refine ⟨coefs, fun i j => ⟨derived i j, inField i j⟩, ?_⟩
  have matrix : (Matrix.of fun i j => elem field (coefs i j)) = CauchyMatrix.cauchy
      (fun j => columnPoint field (ids j).toNat)
      (fun i => rowPoint field (rowOffset field (codedIds i).toNat (generations i).toNat)) :=
    Matrix.ext fun i j => spells i j
  rw [matrix]
  apply CauchyMatrix.det_ne_zero
  · intro i j same
    exact columns (columnPoint_eq_iff.mp same)
  · intro i j same
    exact rows ((rowPoint_eq_iff (rowOffset_lt _ _ _) (rowOffset_lt _ _ _)).mp same)
  · intro i j
    exact columnPoint_ne_rowPoint _ (rowOffset_lt _ _ _)

/-- Every square of Cauchy coefficients is nonsingular, over the fields whose sums and products are
those of the two implementations. -/
theorem cauchy_nonsingular (k : ℕ) :
    (∀ (ids codedIds : Fin k → UInt32) (generations : Fin k → UInt8),
      (Function.Injective fun j => (ids j).toNat % 128) → (∀ i, codedIds i < 128) →
      (Function.Injective fun i => ((codedIds i).toNat + 7 * (generations i).toNat) % 128) →
      ∃ coefs : Matrix (Fin k) (Fin k) Gf2_8,
        (∀ i j, cauchyCoefGf2_8 (ids j) (codedIds i) (generations i) = .ok (coefs i j).value) ∧ coefs.det ≠ 0) ∧
    (∀ (ids codedIds : Fin k → UInt32) (generations : Fin k → UInt8),
      (Function.Injective fun j => (ids j).toNat % 7) → (∀ i, codedIds i < 7) →
      (Function.Injective fun i => ((codedIds i).toNat + 3 * (generations i).toNat) % 7) →
      ∃ coefs : Matrix (Fin k) (Fin k) Gf2_4,
        (∀ i j, cauchyCoefGf2_4 (ids j) (codedIds i) (generations i) = .ok (coefs i j).value) ∧ coefs.det ≠ 0) ∧
    (∀ a b : Gf2_8, a + b = a.add b ∧ a * b = a.mul b) ∧ ∀ a b : Gf2_4, a + b = a.add b ∧ a * b = a.mul b := by
  refine ⟨fun ids codedIds generations columns inCycle rows => ?_, fun ids codedIds generations columns inCycle rows => ?_,
    fun a b => ⟨rfl, Gf2_8.ext (Gf2_8.value_mul a b)⟩, fun a b => ⟨rfl, Gf2_4.ext (Gf2_4.value_mul a b)⟩⟩
  · obtain ⟨coefs, derived, nonsingular⟩ :=
      @cauchy_square .gf2_8 _ _ _ _ columns (fun i => (lt_iff _ _).mp (inCycle i)) rows
    exact ⟨_, fun i j => (derived i j).1, nonsingular⟩
  · obtain ⟨coefs, derived, nonsingular⟩ :=
      @cauchy_square .gf2_4 _ _ _ _ columns (fun i => (lt_iff _ _).mp (inCycle i)) rows
    refine ⟨_, fun i j => (derived i j).1.trans ?_, nonsingular⟩
    exact congrArg Outcome.ok (and_of_lt (derived i j).2).symm

/-- Two packets of one coded id, from successive generations. -/
theorem cauchy_nonsingular_two :
    ∃ coefs : Matrix (Fin 2) (Fin 2) Gf2_8,
      (∀ i j : Fin 2, cauchyCoefGf2_8 (![5, 130] j) (![3, 3] i) (![0, 1] i) = .ok (coefs i j).value) ∧ coefs.det ≠ 0 :=
  (cauchy_nonsingular 2).1 ![5, 130] ![3, 3] ![0, 1] (by decide) (by decide) (by decide)

end CoefGen
end Delp
