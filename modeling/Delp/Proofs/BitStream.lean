import Delp.Lib.Bits
import Delp.Wire.IdStorage

/-! The bit reader and the bit writer of the compressed id formats, as consumers and
producers of one bit string. -/

namespace Delp
open Machine

namespace BitReader

def position (reader : BitReader) : ℕ := 8 * reader.byteI + reader.bitPos.toNat

/-- What reading some bits yields on top of an accumulator. -/
structure Reads (reader : BitReader) (start : UInt32) (nbits : ℕ) (result : UInt32 × BitReader) : Prop where
  value : result.1.toNat =
    (start.toNat * 2 ^ nbits + Bits.toNat (((Bits.ofBytes reader.buf).drop reader.position).take nbits)) % 2 ^ 32
  buf : result.2.buf = reader.buf
  position : result.2.position = reader.position + nbits
  within : result.2.bitPos.toNat < 8

private theorem bit_toNat (byte : UInt8) {bitPos : UInt8} (within : bitPos.toNat < 8) :
    ((byte >>> (7 - bitPos)) &&& 1).toNat = (byte.toNat.testBit (7 - bitPos.toNat)).toNat := by
  have offset : (7 - bitPos).toNat = 7 - bitPos.toNat :=
    UInt8.toNat_sub_of_le _ _ (by rw [UInt8.le_iff_toNat_le]; change bitPos.toNat ≤ 7; omega)
  rw [UInt8.toNat_and, UInt8.toNat_shiftRight, offset, Nat.mod_eq_of_lt (by omega), UInt8.toNat_one,
    Nat.and_one_is_mod, Nat.toNat_testBit, Nat.shiftRight_eq_div_pow]

private theorem push_toNat (value : UInt32) (bit : UInt8) (small : bit.toNat < 2) :
    ((value <<< 1) ||| bit.toUInt32).toNat = (2 * value.toNat + bit.toNat) % 2 ^ 32 := by
  have even : value.toNat <<< 1 % 2 ^ 32 = (value.toNat % 2 ^ 31) <<< 1 := by
    rw [Nat.shiftLeft_eq, Nat.shiftLeft_eq]
    omega
  rw [UInt32.toNat_or, UInt32.toNat_shiftLeft, UInt8.toNat_toUInt32]
  change (value.toNat <<< 1 % 2 ^ 32) ||| bit.toNat = _
  rw [even, ← Nat.shiftLeft_add_eq_or_of_lt small, Nat.shiftLeft_eq]
  omega

theorem readBitsFrom_reads (reader : BitReader) (start : UInt32) (nbits : ℕ) (within : reader.bitPos.toNat < 8)
    (enough : reader.position + nbits ≤ 8 * reader.buf.length) : Reads reader start nbits (reader.readBitsFrom start nbits) := by
  induction nbits generalizing reader start with
  | zero =>
    exact ⟨by simp [readBitsFrom, Bits.toNat, Nat.mod_eq_of_lt (toNat_lt start)], rfl, rfl, within⟩
  | succ nbits ih =>
    have inside : reader.byteI < reader.buf.length := by
      unfold position at enough
      omega
    have bit := bit_toNat reader.buf[reader.byteI] within
    have small := Bool.toNat_lt (reader.buf[reader.byteI].toNat.testBit (7 - reader.bitPos.toNat))
    have pushed := push_toNat start ((reader.buf[reader.byteI] >>> (7 - reader.bitPos)) &&& 1) (by rw [bit]; exact small)
    -- the bit under the cursor, and the bits after it
    have cursor : (Bits.ofBytes reader.buf)[reader.position]? =
        some (reader.buf[reader.byteI].toNat.testBit (7 - reader.bitPos.toNat)) := by
      rw [position, Bits.getElem?_ofBytes _ _ within, List.getElem?_eq_getElem inside]
      rfl
    have next (reader' : BitReader) (buf : reader'.buf = reader.buf) (moved : reader'.position = reader.position + 1)
        (within' : reader'.bitPos.toNat < 8) : Reads reader start (nbits + 1) (reader'.readBitsFrom
          ((start <<< 1) ||| ((reader.buf[reader.byteI] >>> (7 - reader.bitPos)) &&& 1).toUInt32) nbits) := by
      have rest := ih reader' ((start <<< 1) ||| ((reader.buf[reader.byteI] >>> (7 - reader.bitPos)) &&& 1).toUInt32)
        within' (by rw [buf, moved]; omega)
      refine ⟨?_, rest.buf.trans buf, by rw [rest.position, moved]; omega, rest.within⟩
      have tail : ((Bits.ofBytes reader.buf).drop (reader.position + 1)).take nbits =
          ((Bits.ofBytes reader'.buf).drop reader'.position).take nbits := by rw [buf, moved]
      have length : (((Bits.ofBytes reader'.buf).drop reader'.position).take nbits).length = nbits := by
        rw [List.length_take, List.length_drop, Bits.length_ofBytes, buf, moved]
        omega
      have split : ((Bits.ofBytes reader.buf).drop reader.position).take (nbits + 1) =
          [reader.buf[reader.byteI].toNat.testBit (7 - reader.bitPos.toNat)] ++
            ((Bits.ofBytes reader'.buf).drop reader'.position).take nbits := by
        obtain ⟨short, same⟩ := List.getElem?_eq_some_iff.mp cursor
        rw [List.drop_eq_getElem_cons short, List.take_succ_cons, same, tail]
        rfl
      rw [rest.value, split, Bits.toNat_append, length, pushed, bit, pow_succ]
      simp only [Bits.toNat, List.foldl_cons, List.foldl_nil]
      rw [Nat.add_mod, Nat.mul_mod, Nat.mod_mod, ← Nat.mul_mod, ← Nat.add_mod]
      congr 1
      ring
    unfold readBitsFrom
    rw [List.getElem?_eq_getElem inside]
    dsimp only
    split
    next last =>
      refine next ⟨reader.buf, reader.byteI + 1, 0⟩ rfl ?_ (show (0 : UInt8).toNat < 8 by decide)
      have full := congrArg UInt8.toNat last
      rw [UInt8.toNat_add, UInt8.toNat_one, Nat.mod_eq_of_lt (by omega)] at full
      simp only [position, UInt8.toNat_zero]
      change reader.bitPos.toNat + 1 = 8 at full
      omega
    next more =>
      have step : (reader.bitPos + 1).toNat = reader.bitPos.toNat + 1 := by
        rw [UInt8.toNat_add, UInt8.toNat_one, Nat.mod_eq_of_lt (by omega)]
      refine next ⟨reader.buf, reader.byteI, reader.bitPos + 1⟩ rfl ?_ ?_
      · simp only [position, step]
        omega
      · have short : (reader.bitPos + 1).toNat ≠ 8 := fun full => more (UInt8.toNat_inj.mp full)
        dsimp only
        omega

theorem readBits_word (buf : Bytes) (k : ℕ) {reader : BitReader} (same : reader.buf = buf)
    (aligned : reader.position = 16 * k) (within : reader.bitPos.toNat < 8) (enough : 2 * (k + 1) ≤ buf.length) :
    (reader.readBits 16).1.toNat = Bits.word buf k ∧ (reader.readBits 16).2.buf = buf ∧
      (reader.readBits 16).2.position = 16 * (k + 1) ∧ (reader.readBits 16).2.bitPos.toNat < 8 := by
  have reads := readBitsFrom_reads reader 0 16 within (by rw [same, aligned]; omega)
  have bounded : Bits.word buf k < 2 ^ 16 := Bits.word_lt buf k
  refine ⟨?_, reads.buf.trans same, by rw [readBits, reads.position, aligned]; ring, reads.within⟩
  rw [readBits, reads.value, same, aligned, UInt32.toNat_zero, Nat.zero_mul, Nat.zero_add]
  exact Nat.mod_eq_of_lt (Nat.lt_trans bounded (by decide))

end BitReader

namespace BitWriter

def written (writer : BitWriter) : List Bool := Bits.ofBytes writer.buf ++ Bits.ofNat writer.bitPos.toNat writer.curByte.toNat

private theorem pushed_toNat (byte bit : UInt8) (small : bit.toNat < 2) :
    ((byte <<< 1) ||| bit).toNat = (2 * byte.toNat + bit.toNat) % 2 ^ 8 := by
  have even : byte.toNat <<< 1 % 2 ^ 8 = (byte.toNat % 2 ^ 7) <<< 1 := by
    rw [Nat.shiftLeft_eq, Nat.shiftLeft_eq]
    omega
  rw [UInt8.toNat_or, UInt8.toNat_shiftLeft]
  change (byte.toNat <<< 1 % 2 ^ 8) ||| bit.toNat = _
  rw [even, ← Nat.shiftLeft_add_eq_or_of_lt small, Nat.shiftLeft_eq]
  omega

theorem pushBit_written (writer : BitWriter) (bit : UInt8) (small : bit.toNat < 2) (within : writer.bitPos.toNat < 8) :
    (writer.pushBit bit).written = writer.written ++ [bit.toNat.testBit 0] ∧ (writer.pushBit bit).bitPos.toNat < 8 := by
  have step : (writer.bitPos + 1).toNat = writer.bitPos.toNat + 1 := by
    rw [UInt8.toNat_add, UInt8.toNat_one, Nat.mod_eq_of_lt (by omega)]
  have single : bit.toNat = (bit.toNat.testBit 0).toNat := by
    rw [Nat.toNat_testBit, pow_zero, Nat.div_one, Nat.mod_eq_of_lt small]
  have byte : Bits.ofNat (writer.bitPos.toNat + 1) ((writer.curByte <<< 1) ||| bit).toNat =
      Bits.ofNat writer.bitPos.toNat writer.curByte.toNat ++ [bit.toNat.testBit 0] := by
    rw [pushed_toNat _ _ small, Bits.ofNat_mod (by omega), ← Bits.ofNat_snoc, ← single]
  unfold pushBit
  dsimp only
  split
  next last =>
    have full : writer.bitPos.toNat + 1 = 8 := step ▸ congrArg UInt8.toNat last
    refine ⟨?_, show (0 : UInt8).toNat < 8 by decide⟩
    rw [written, written, Bits.ofBytes_append, Bits.ofBytes_singleton, List.append_assoc, List.append_assoc, ← byte, full]
    exact congrArg _ (List.append_nil _)
  next more =>
    refine ⟨?_, ?_⟩
    · rw [written, written, step, byte, List.append_assoc]
    · have short : (writer.bitPos + 1).toNat ≠ 8 := fun full => more (UInt8.toNat_inj.mp full)
      dsimp only
      omega

theorem writeBits_written (writer : BitWriter) (value : UInt32) {nbits : ℕ} (bounded : nbits ≤ 32)
    (within : writer.bitPos.toNat < 8) :
    (writer.writeBits value nbits).written = writer.written ++ Bits.ofNat nbits value.toNat ∧
      (writer.writeBits value nbits).bitPos.toNat < 8 := by
  induction nbits generalizing writer with
  | zero => exact ⟨(List.append_nil _).symm, within⟩
  | succ nbits ih =>
    have offset : (UInt32.ofNat nbits).toNat = nbits := toNat_ofNat (by omega)
    have bit : ((value >>> UInt32.ofNat nbits) &&& 1).toUInt8.toNat = (value.toNat.testBit nbits).toNat := by
      rw [UInt32.toNat_toUInt8, UInt32.toNat_and, UInt32.toNat_shiftRight, offset, show nbits % 32 = nbits by omega,
        UInt32.toNat_one, Nat.and_one_is_mod, Nat.toNat_testBit, Nat.shiftRight_eq_div_pow]
      omega
    obtain ⟨pushed, still⟩ := writer.pushBit_written ((value >>> UInt32.ofNat nbits) &&& 1).toUInt8
      (by rw [bit]; exact Bool.toNat_lt _) within
    obtain ⟨rest, final⟩ := ih (writer.pushBit ((value >>> UInt32.ofNat nbits) &&& 1).toUInt8) (by omega) still
    refine ⟨?_, final⟩
    have low : (value.toNat.testBit nbits).toNat.testBit 0 = value.toNat.testBit nbits := by
      cases value.toNat.testBit nbits <;> rfl
    rw [writeBits, rest, pushed, bit, low, List.append_assoc]
    rfl

theorem finish_bits (writer : BitWriter) (within : writer.bitPos.toNat < 8) :
    ∃ padding, Bits.ofBytes writer.finish = writer.written ++ List.replicate padding false ∧ padding < 8 := by
  unfold finish
  split
  next some =>
    have positive : 0 < writer.bitPos.toNat := by simpa [UInt8.lt_iff_toNat_lt] using some
    have shift : (8 - writer.bitPos).toNat = 8 - writer.bitPos.toNat :=
      UInt8.toNat_sub_of_le _ _ (by rw [UInt8.le_iff_toNat_le]; change writer.bitPos.toNat ≤ 8; omega)
    refine ⟨8 - writer.bitPos.toNat, ?_, by omega⟩
    have byte : (writer.curByte <<< (8 - writer.bitPos)).toNat =
        writer.curByte.toNat <<< (8 - writer.bitPos.toNat) % 2 ^ 8 := by
      rw [UInt8.toNat_shiftLeft, shift, show (8 - writer.bitPos.toNat) % 8 = 8 - writer.bitPos.toNat by omega]
    rw [Bits.ofBytes_append, Bits.ofBytes_singleton, byte, Bits.ofNat_mod (Nat.le_refl 8), written, List.append_assoc]
    congr 1
    have split := Bits.ofNat_add writer.bitPos.toNat (8 - writer.bitPos.toNat)
      (writer.curByte.toNat <<< (8 - writer.bitPos.toNat))
    rw [show writer.bitPos.toNat + (8 - writer.bitPos.toNat) = 8 by omega] at split
    rw [split, Nat.shiftLeft_shiftRight, Bits.ofNat_shiftLeft]
  next none =>
    have zero : writer.bitPos.toNat = 0 := by
      simp only [gt_iff_lt, UInt8.lt_iff_toNat_lt, UInt8.toNat_zero] at none
      omega
    exact ⟨0, by rw [written, zero]; simp [Bits.ofNat], by decide⟩

theorem finish_words {writer : BitWriter} (within : writer.bitPos.toNat < 8) {words : List ℕ}
    (wrote : writer.written = words.flatMap (Bits.ofNat 16)) :
    writer.finish.length = 2 * words.length ∧ Bits.ofBytes writer.finish = words.flatMap (Bits.ofNat 16) := by
  obtain ⟨padding, bits, short⟩ := writer.finish_bits within
  have length := congrArg List.length bits
  have widths : (words.flatMap (Bits.ofNat 16)).length = 16 * words.length := by
    rw [List.length_flatMap]
    simp [mul_comm]
  rw [Bits.length_ofBytes, List.length_append, List.length_replicate, wrote, widths] at length
  have none : padding = 0 := by omega
  rw [none, List.replicate_zero, List.append_nil, wrote] at bits
  exact ⟨by omega, bits⟩

end BitWriter
end Delp
