import Delp.Gf.Kernels
import Delp.Gf.Symbols

/-! The vector kernels against the byte-wise one: a register of products is the products
of its bytes, and the chunks of every kernel cover a buffer without a gap or an overlap. -/

namespace Delp.Gf
open Machine Lanes

section Registers
variable {n : ℕ} {t : NibbleTables}

/-- A register with a 16-entry table in each of its 16-byte halves. -/
def Holds (table : Bytes) (lanes : Lanes n) : Prop := ∀ i, lanes i = table.getD (i.val % 16) 0

/-- Every lane of a product depends on its own byte only, as the tables say. -/
def Computes (t : NibbleTables) (product : Lanes n → Lanes n) : Prop := ∀ inp i, product inp i = t.product (inp i)

theorem loadu_table {table : Bytes} (full : table.length = 16) :
    ∃ lanes : Lanes 16, (loadu 16 table 0 : Result (Lanes 16)) = .ok lanes ∧ Holds table lanes := by
  refine ⟨_, loadu_of (by omega), fun i => ?_⟩
  rw [Nat.zero_add, Nat.mod_eq_of_lt i.isLt]

theorem Holds.broadcast {table : Bytes} {half : Lanes 16} (holds : Holds table half) : Holds table (broadcast half) := by
  intro i
  rw [Lanes.broadcast, holds, Nat.mod_mod]

theorem Holds.shuffle {table : Bytes} {lanes : Lanes n} (holds : Holds table lanes) (aligned : n % 16 = 0) {indices : Lanes n}
    {i : Fin n} {nibble : UInt8} (index : indices i = nibble) (small : nibble.toNat < 16) :
    shuffleEpi8 lanes indices i = table.getD nibble.toNat 0 := by
  subst index
  have inside := i.isLt
  have half : (16 * (i.val / 16) + (indices i).toNat) % 16 = (indices i).toNat := by omega
  rw [shuffleEpi8_nibble lanes indices i small (by omega), holds]
  exact congrArg (table.getD · 0) half

theorem Holds.tbl {table : Bytes} {lanes : Lanes 16} (holds : Holds table lanes) {indices : Lanes 16} {i : Fin 16}
    {nibble : UInt8} (index : indices i = nibble) (small : nibble.toNat < 16) :
    Lanes.tbl lanes indices i = table.getD nibble.toNat 0 := by
  subst index
  rw [Lanes.tbl, dif_pos small, holds, Nat.mod_eq_of_lt small]

theorem x86Product_computes (aligned : n % 16 = 0) {loTbl hiTbl : Lanes n} (low : Holds t.lo loTbl) (high : Holds t.hi hiTbl) :
    Computes t (x86Product loTbl hiTbl) := by
  intro inp i
  have masked : Lanes.and (srliEpi16 inp 4) (set1 0x0F) i = inp i >>> 4 := and_srliEpi16 (by omega) inp i
  rw [x86Product, Lanes.xor, low.shuffle aligned rfl (low_nibble_lt (inp i)), high.shuffle aligned masked (high_nibble_lt (inp i))]
  rfl

theorem neonProduct_computes {loTbl hiTbl : Lanes 16} (low : Holds t.lo loTbl) (high : Holds t.hi hiTbl) :
    Computes t (neonProduct loTbl hiTbl) := by
  intro inp i
  rw [neonProduct, Lanes.xor, low.tbl rfl (low_nibble_lt (inp i)), high.tbl rfl (high_nibble_lt (inp i))]
  rfl

end Registers

section Turns
variable {n : ℕ} {t : NibbleTables} {product : Lanes n → Lanes n} {dst src : Bytes} {off : ℕ}

theorem length_scalarMulAcc (same : dst.length = src.length) : (scalarMulAcc dst src t).length = dst.length := by
  rw [scalarMulAcc, ← same, List.drop_length, List.append_nil, List.length_zipWith, same, Nat.min_self]

theorem length_scalarMulScale : (scalarMulScale dst t).length = dst.length := List.length_map _

theorem getD_scalarMulAcc (same : dst.length = src.length) {i : ℕ} (inside : i < dst.length) :
    (scalarMulAcc dst src t).getD i 0 = dst.getD i 0 ^^^ t.product (src.getD i 0) := by
  have other : i < src.length := same ▸ inside
  have kept := length_scalarMulAcc (t := t) same ▸ inside
  rw [List.getD_eq_getElem _ _ inside, List.getD_eq_getElem _ _ other, List.getD_eq_getElem _ _ kept]
  simp only [scalarMulAcc, ← same, List.drop_length, List.append_nil, List.getElem_zipWith]

theorem getD_scalarMulScale {i : ℕ} (inside : i < dst.length) :
    (scalarMulScale dst t).getD i 0 = t.product (dst.getD i 0) := by
  rw [scalarMulScale, List.getD_eq_getElem _ _ inside, List.getD_eq_getElem _ _ (by rwa [List.length_map]), List.getElem_map]

theorem drop_scalarMulAcc (same : dst.length = src.length) (base : ℕ) :
    (scalarMulAcc dst src t).drop base = scalarMulAcc (dst.drop base) (src.drop base) t := by
  rw [scalarMulAcc, scalarMulAcc, ← same, List.length_drop, ← same, ← List.length_drop, List.drop_length, List.drop_length,
    List.append_nil, List.append_nil, List.drop_zipWith]

theorem accumulateAt_finishes (computes : Computes t product) (same : dst.length = src.length) (inside : off + n ≤ dst.length) :
    accumulateAt product src (upTo (scalarMulAcc dst src t) dst off) off =
      .ok (upTo (scalarMulAcc dst src t) dst (off + n)) := by
  have length := length_scalarMulAcc (t := t) same
  rw [accumulateAt, loadu_of (by omega), Outcome.ok_bind, loadu_upTo length (Nat.le_refl off) inside, Outcome.ok_bind]
  apply storeu_upTo length inside
  intro i
  rw [getD_scalarMulAcc same (by omega), Lanes.xor, computes]

theorem scaleAt_finishes (computes : Computes t product) (inside : off + n ≤ dst.length) :
    scaleAt product (upTo (scalarMulScale dst t) dst off) off = .ok (upTo (scalarMulScale dst t) dst (off + n)) := by
  have length : (scalarMulScale dst t).length = dst.length := length_scalarMulScale
  rw [scaleAt, loadu_upTo length (Nat.le_refl off) inside, Outcome.ok_bind]
  apply storeu_upTo length inside
  intro i
  rw [getD_scalarMulScale (by omega), computes]

/-- The second chain has loaded bytes that the first one does not store to. -/
theorem avx2AccumulatePair_finishes {loTbl hiTbl : Lanes 32} (computes : Computes t (x86Product loTbl hiTbl))
    (same : dst.length = src.length) (inside : off + 64 ≤ dst.length) :
    avx2AccumulatePair loTbl hiTbl src (upTo (scalarMulAcc dst src t) dst off) off =
      .ok (upTo (scalarMulAcc dst src t) dst (off + 64)) := by
  have length := length_scalarMulAcc (t := t) same
  rw [avx2AccumulatePair, loadu_of (by omega), Outcome.ok_bind, loadu_upTo length (Nat.le_refl off) (by omega), Outcome.ok_bind,
    loadu_of (by omega), Outcome.ok_bind, loadu_upTo length (Nat.le_add_right off 32) (by omega), Outcome.ok_bind,
    storeu_upTo length (by omega), Outcome.ok_bind]
  · apply storeu_upTo length (by omega)
    intro i
    rw [getD_scalarMulAcc same (by omega), Lanes.xor, computes]
  · intro i
    rw [getD_scalarMulAcc same (by omega), Lanes.xor, computes]

theorem avx2ScalePair_finishes {loTbl hiTbl : Lanes 32} (computes : Computes t (x86Product loTbl hiTbl))
    (inside : off + 64 ≤ dst.length) :
    avx2ScalePair loTbl hiTbl (upTo (scalarMulScale dst t) dst off) off = .ok (upTo (scalarMulScale dst t) dst (off + 64)) := by
  have length : (scalarMulScale dst t).length = dst.length := length_scalarMulScale
  rw [avx2ScalePair, loadu_upTo length (Nat.le_refl off) (by omega), Outcome.ok_bind,
    loadu_upTo length (Nat.le_add_right off 32) (by omega), Outcome.ok_bind, storeu_upTo length (by omega), Outcome.ok_bind]
  · apply storeu_upTo length (by omega)
    intro i
    rw [getD_scalarMulScale (by omega), computes]
  · intro i
    rw [getD_scalarMulScale (by omega), computes]

end Turns

section Kernels
variable {t : NibbleTables} {dst src : Bytes}

def NibbleTables.Full (t : NibbleTables) : Prop := t.lo.length = 16 ∧ t.hi.length = 16

theorem NibbleTables.full_forGf2_8 (coef : UInt8) : (NibbleTables.forGf2_8 coef).Full := by
  simp [Full, forGf2_8]

theorem NibbleTables.full_forGf2_4 (coef : UInt8) : (NibbleTables.forGf2_4 coef).Full := by
  simp [Full, forGf2_4]

theorem scalarAccumulate_of (same : dst.length = src.length) :
    scalarAccumulate (.of dst) src t = .done (scalarMulAcc dst src t) := by
  rw [scalarAccumulate, Buffer.done, length_scalarMulAcc same, Buffer.of, List.nil_append, same, Nat.min_self]

theorem scalarScale_of : scalarScale (.of dst) t = .done (scalarMulScale dst t) := by
  rw [scalarScale, Buffer.done, length_scalarMulScale, Buffer.of, List.nil_append]

theorem rest_of (same : dst.length = src.length) (narrow : Buffer → Bytes → Result Buffer)
    (ends : ∀ {dst src : Bytes}, dst.length = src.length → narrow (.of dst) src = .ok (.done (scalarMulAcc dst src t)))
    (width : ℕ) :
    (do
      let rest ← slice src (dst.length / width * width) (dst.length / width * width + dst.length % width)
      narrow (.of (dst.drop (dst.length / width * width))) rest) =
      .ok (.done ((scalarMulAcc dst src t).drop (dst.length / width * width))) := by
  have inside : dst.length / width * width ≤ dst.length := Nat.div_mul_le_self dst.length width
  have part : (src.drop (dst.length / width * width)).take (dst.length - dst.length / width * width) =
      src.drop (dst.length / width * width) := List.take_of_length_le (by rw [List.length_drop]; omega)
  rw [Nat.div_add_mod', slice_of inside (by omega), Outcome.ok_bind, part,
    ends (by rw [List.length_drop, List.length_drop, same]), drop_scalarMulAcc same]

theorem ssse3MulAcc_of (full : t.Full) (same : dst.length = src.length) :
    ssse3MulAcc (.of dst) src t = .ok (.done (scalarMulAcc dst src t)) := by
  obtain ⟨loTbl, loaded, low⟩ := loadu_table full.1
  obtain ⟨hiTbl, loaded', high⟩ := loadu_table full.2
  rw [ssse3MulAcc, loaded, Outcome.ok_bind, loaded', Outcome.ok_bind]
  apply chunked_of (length_scalarMulAcc same)
  · intro off inside
    exact accumulateAt_finishes (x86Product_computes (by decide) low high) same inside
  · exact rest_of same (fun part rest => pure (scalarAccumulate part rest t)) (fun same => congrArg _ (scalarAccumulate_of same)) 16

theorem ssse3MulScale_of (full : t.Full) : ssse3MulScale (.of dst) t = .ok (.done (scalarMulScale dst t)) := by
  obtain ⟨loTbl, loaded, low⟩ := loadu_table full.1
  obtain ⟨hiTbl, loaded', high⟩ := loadu_table full.2
  rw [ssse3MulScale, loaded, Outcome.ok_bind, loaded', Outcome.ok_bind]
  apply chunked_of length_scalarMulScale
  · intro off inside
    exact scaleAt_finishes (x86Product_computes (by decide) low high) inside
  · rw [scalarScale_of, scalarMulScale, scalarMulScale, List.map_drop]
    rfl

theorem avx2MulAcc_of (full : t.Full) (same : dst.length = src.length) :
    avx2MulAcc (.of dst) src t = .ok (.done (scalarMulAcc dst src t)) := by
  obtain ⟨lo128, loaded, low⟩ := loadu_table full.1
  obtain ⟨hi128, loaded', high⟩ := loadu_table full.2
  rw [avx2MulAcc, loaded, Outcome.ok_bind, loaded', Outcome.ok_bind]
  apply chunked_of (length_scalarMulAcc same)
  · intro off inside
    exact avx2AccumulatePair_finishes (x86Product_computes (by decide) low.broadcast high.broadcast) same inside
  · exact rest_of same (ssse3MulAcc · · t) (ssse3MulAcc_of full) 64

theorem avx2MulScale_of (full : t.Full) : avx2MulScale (.of dst) t = .ok (.done (scalarMulScale dst t)) := by
  obtain ⟨lo128, loaded, low⟩ := loadu_table full.1
  obtain ⟨hi128, loaded', high⟩ := loadu_table full.2
  rw [avx2MulScale, loaded, Outcome.ok_bind, loaded', Outcome.ok_bind]
  apply chunked_of length_scalarMulScale
  · intro off inside
    exact avx2ScalePair_finishes (x86Product_computes (by decide) low.broadcast high.broadcast) inside
  · rw [ssse3MulScale_of full, scalarMulScale, scalarMulScale, List.map_drop]

theorem neonMulAcc_of (full : t.Full) (same : dst.length = src.length) :
    neonMulAcc (.of dst) src t = .ok (.done (scalarMulAcc dst src t)) := by
  obtain ⟨loTbl, loaded, low⟩ := loadu_table full.1
  obtain ⟨hiTbl, loaded', high⟩ := loadu_table full.2
  rw [neonMulAcc, loaded, Outcome.ok_bind, loaded', Outcome.ok_bind]
  apply chunked_unless (length_scalarMulAcc same)
  · intro off inside
    exact accumulateAt_finishes (neonProduct_computes low high) same inside
  · exact rest_of same (fun part rest => pure (scalarAccumulate part rest t)) (fun same => congrArg _ (scalarAccumulate_of same)) 16

theorem neonMulScale_of (full : t.Full) : neonMulScale (.of dst) t = .ok (.done (scalarMulScale dst t)) := by
  obtain ⟨loTbl, loaded, low⟩ := loadu_table full.1
  obtain ⟨hiTbl, loaded', high⟩ := loadu_table full.2
  rw [neonMulScale, loaded, Outcome.ok_bind, loaded', Outcome.ok_bind]
  apply chunked_unless length_scalarMulScale
  · intro off inside
    exact scaleAt_finishes (neonProduct_computes low high) inside
  · rw [scalarScale_of, scalarMulScale, scalarMulScale, List.map_drop]
    rfl

end Kernels

/-- The tables' nibbles and the reference's are packed alike. -/
theorem mulNibbles_eq (s coef : UInt8) : mulNibbles s coef = mulByte .gf2_4 coef s := by
  have packed : ∀ m < 16, ∀ n < 16, (UInt8.ofNat n <<< 4) ||| UInt8.ofNat m = UInt8.ofNat m ^^^ (UInt8.ofNat n <<< 4) := by
    decide +kernel
  have entry := packed _ (UInt8.lt_iff_toNat_lt.mp (Gf2_4.mulRaw_lt (s &&& 0x0F) (coef &&& 0x0F))) _
    (UInt8.lt_iff_toNat_lt.mp (Gf2_4.mulRaw_lt (s >>> 4) (coef &&& 0x0F)))
  rw [UInt8.ofNat_toNat, UInt8.ofNat_toNat] at entry
  rw [mulNibbles, and_of_lt (shiftRight_lt s)]
  exact entry

namespace Dispatch
variable (self : Dispatch) {t : NibbleTables} {dst src : Bytes}

/-- Whatever the host selects, the bytes are those of the portable kernel and every position is stored to once. -/
theorem mulAccRaw_of (full : t.Full) (same : dst.length = src.length) :
    self.mulAccRaw (.of dst) src t = .ok (.done (scalarMulAcc dst src t)) := by
  cases self with
  | avx2 => exact avx2MulAcc_of full same
  | ssse3 => exact ssse3MulAcc_of full same
  | neon => exact neonMulAcc_of full same
  | scalar => exact congrArg _ (scalarAccumulate_of same)

theorem mulScaleRaw_of (full : t.Full) : self.mulScaleRaw (.of dst) t = .ok (.done (scalarMulScale dst t)) := by
  cases self with
  | avx2 => exact avx2MulScale_of full
  | ssse3 => exact ssse3MulScale_of full
  | neon => exact neonMulScale_of full
  | scalar => exact congrArg _ scalarScale_of

theorem mulAccRaw_products {field : Config.Field} {coef : UInt8} (full : t.Full)
    (products : ∀ s, t.product s = mulByte field coef s) (same : dst.length = src.length) :
    self.mulAccRaw (.of dst) src t =
      .ok ⟨dst.zipWith (· ^^^ ·) (src.map (mulByte field coef)), List.range dst.length⟩ := by
  rw [self.mulAccRaw_of full same, Buffer.done, length_scalarMulAcc same, scalarMulAcc_eq same products]

theorem mulAccGf2_8_of (same : dst.length = src.length) (coef : UInt8) :
    self.mulAccGf2_8 (.of dst) src coef =
      .ok ⟨dst.zipWith (· ^^^ ·) (src.map (mulByte .gf2_8 coef)), if coef = 0 then [] else List.range dst.length⟩ := by
  have entered : (Buffer.of dst).bytes.length = src.length := same
  rw [mulAccGf2_8, Outcome.require_of entered, Outcome.ok_bind]
  split
  next zero =>
    subst zero
    rw [zipWith_zero same mulByte_of_zero]
    rfl
  next => exact self.mulAccRaw_products (NibbleTables.full_forGf2_8 coef) (product_gf2_8 coef) same

theorem mulAccGf2_4_of (same : dst.length = src.length) (coef : UInt8) :
    self.mulAccGf2_4 (.of dst) src coef =
      .ok ⟨dst.zipWith (· ^^^ ·) (src.map (mulByte .gf2_4 coef)), if coef &&& 0x0F = 0 then [] else List.range dst.length⟩ := by
  have entered : (Buffer.of dst).bytes.length = src.length := same
  rw [mulAccGf2_4, Outcome.require_of entered, Outcome.ok_bind]
  dsimp only
  split
  next zero =>
    rw [zipWith_zero same fun s => by simp [mulByte, zero, Gf2_4.mulRaw]]
    rfl
  next => exact self.mulAccRaw_products (NibbleTables.full_forGf2_4 _) (product_gf2_4 coef) same

theorem mulScaleGf2_8_of (buf : Bytes) (coef : UInt8) :
    self.mulScaleGf2_8 (.of buf) coef =
      .ok ⟨buf.map (mulByte .gf2_8 coef), if coef = 1 then [] else List.range buf.length⟩ := by
  rw [← mulScale_eq buf coef, Gf.mulScale, Gf.mulScaleGf2_8, mulScaleGf2_8]
  split
  next zero =>
    subst zero
    rfl
  split
  next => rfl
  next => rw [self.mulScaleRaw_of (NibbleTables.full_forGf2_8 coef), Buffer.done, length_scalarMulScale]

theorem mulScaleGf2_4_of (buf : Bytes) (coef : UInt8) :
    self.mulScaleGf2_4 (.of buf) coef = .ok ⟨buf.map (mulByte .gf2_4 coef), List.range buf.length⟩ := by
  rw [← mulScale_eq buf coef, Gf.mulScale, Gf.mulScaleGf2_4, mulScaleGf2_4]
  split
  next => rfl
  next => rw [self.mulScaleRaw_of (NibbleTables.full_forGf2_4 _), Buffer.done, length_scalarMulScale]

theorem mulAcc_portable (field : Config.Field) (dst src : Bytes) (coef : UInt8) :
    (self.mulAcc field (.of dst) src coef >>= fun final => pure final.bytes) = Gf.mulAcc field dst src coef := by
  by_cases same : dst.length = src.length
  · rw [mulAcc_eq same]
    cases field with
    | gf2_8 => rw [mulAcc, mulAccGf2_8_of self same]; rfl
    | gf2_4 => rw [mulAcc, mulAccGf2_4_of self same]; rfl
  · cases field with
    | gf2_8 => simp [mulAcc, mulAccGf2_8, Gf.mulAcc, Gf.mulAccGf2_8, Outcome.require, same, Buffer.of]
    | gf2_4 => simp [mulAcc, mulAccGf2_4, Gf.mulAcc, Gf.mulAccGf2_4, Outcome.require, same, Buffer.of]

theorem mulScale_portable (field : Config.Field) (buf : Bytes) (coef : UInt8) :
    (self.mulScale field (.of buf) coef >>= fun final => pure final.bytes) = .ok (Gf.mulScale field buf coef) := by
  rw [mulScale_eq]
  cases field with
  | gf2_8 => rw [mulScale, mulScaleGf2_8_of]; rfl
  | gf2_4 => rw [mulScale, mulScaleGf2_4_of]; rfl

/-- On every path and for every length, coefficient and content, the bulk operations leave the log/exp
products byte by byte. Every position is stored to once, or none is where the coefficient changes no byte. -/
theorem kernels_agree (self : Dispatch) (dst src : Bytes) (same : dst.length = src.length) (buf : Bytes) (coef : UInt8) :
    (self.mulAccGf2_8 (.of dst) src coef =
        .ok ⟨mulAccGf2_8Reference dst src coef, if coef = 0 then [] else List.range dst.length⟩ ∧
      self.mulAccGf2_4 (.of dst) src coef =
        .ok ⟨mulAccGf2_4Reference dst src coef, if coef &&& 0x0F = 0 then [] else List.range dst.length⟩ ∧
      self.mulScaleGf2_8 (.of buf) coef =
        .ok ⟨mulScaleGf2_8Reference buf coef, if coef = 1 then [] else List.range buf.length⟩ ∧
      self.mulScaleGf2_4 (.of buf) coef = .ok ⟨buf.map (mulNibbles · coef), List.range buf.length⟩) ∧
    (mulAccGf2_8Reference dst src coef).length = dst.length ∧ (mulAccGf2_4Reference dst src coef).length = dst.length ∧
    (∀ i < dst.length,
      (mulAccGf2_8Reference dst src coef)[i]? = some (dst.getD i 0 ^^^ Gf2_8.mulRaw (src.getD i 0) coef) ∧
      (mulAccGf2_4Reference dst src coef)[i]? = some (dst.getD i 0 ^^^ mulNibbles (src.getD i 0) coef)) ∧
    ∀ i < buf.length, (mulScaleGf2_8Reference buf coef)[i]? = some (Gf2_8.mulRaw (buf.getD i 0) coef) := by
  have products : mulAccGf2_8Reference dst src coef = dst.zipWith (· ^^^ ·) (src.map (mulByte .gf2_8 coef)) := by
    rw [mulAccGf2_8Reference, ← same, List.drop_length, List.append_nil, List.zipWith_map_right]
    rfl
  have nibbles : mulAccGf2_4Reference dst src coef = dst.zipWith (· ^^^ ·) (src.map (mulByte .gf2_4 coef)) := by
    rw [mulAccGf2_4Reference, ← same, List.drop_length, List.append_nil, List.zipWith_map_right]
    simp only [mulNibbles_eq]
  have scaled : buf.map (mulNibbles · coef) = buf.map (mulByte .gf2_4 coef) :=
    List.map_congr_left fun s _ => mulNibbles_eq s coef
  have entry (f : UInt8 → UInt8) {i : ℕ} (inside : i < dst.length) :
      (dst.zipWith (fun d s => d ^^^ f s) src)[i]? = some (dst.getD i 0 ^^^ f (src.getD i 0)) := by
    have other : i < src.length := same ▸ inside
    simp [inside, other]
  refine ⟨⟨?_, ?_, ?_, ?_⟩, ?_, ?_, ?_, ?_⟩
  · rw [products]
    exact self.mulAccGf2_8_of same coef
  · rw [nibbles]
    exact self.mulAccGf2_4_of same coef
  · exact self.mulScaleGf2_8_of buf coef
  · rw [scaled]
    exact self.mulScaleGf2_4_of buf coef
  · rw [products, List.length_zipWith, List.length_map, same, Nat.min_self]
  · rw [nibbles, List.length_zipWith, List.length_map, same, Nat.min_self]
  · intro i inside
    rw [mulAccGf2_8Reference, mulAccGf2_4Reference, ← same, List.drop_length, List.append_nil, List.append_nil]
    exact ⟨entry (Gf2_8.mulRaw · coef) inside, entry (mulNibbles · coef) inside⟩
  · intro i inside
    simp [mulScaleGf2_8Reference, inside]

/-- One unrolled turn, one 16-byte register and one byte by itself. -/
theorem kernels_agree_avx2 :
    avx2.mulAccGf2_8 (.of (List.replicate 81 1)) (List.replicate 81 2) 3 = .ok ⟨List.replicate 81 7, List.range 81⟩ := by
  have agree := (kernels_agree .avx2 (List.replicate 81 1) (List.replicate 81 2) (by decide) [] 3).1.1
  have reference : mulAccGf2_8Reference (List.replicate 81 1) (List.replicate 81 2) 3 = List.replicate 81 7 := by
    decide +kernel
  rwa [reference] at agree

end Dispatch

end Delp.Gf
