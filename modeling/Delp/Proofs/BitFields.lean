import Delp.Proofs.BitStream
import Mathlib.Algebra.Ring.Nat

/-! Fields of any widths, written one after the other and read back. -/

namespace Delp
open Machine

/-- Write the low bits of every value, each field as a value and its width. -/
def BitWriter.writeFields (writer : BitWriter) (fields : List (UInt32 × ℕ)) : BitWriter :=
  fields.foldl (fun writer field => writer.writeBits field.1 field.2) writer

/-- Read fields of the given widths, and the reader left behind them. -/
def BitReader.readFields (reader : BitReader) : List ℕ → List UInt32 × BitReader
  | [] => ([], reader)
  | nbits :: widths =>
    let (value, reader) := reader.readBits nbits
    let (values, reader) := reader.readFields widths
    (value :: values, reader)

namespace BitFields

def bits (fields : List (UInt32 × ℕ)) : List Bool := fields.flatMap fun field => Bits.ofNat field.2 field.1.toNat

def width (fields : List (UInt32 × ℕ)) : ℕ := (fields.map Prod.snd).sum

@[simp] theorem length_bits (fields : List (UInt32 × ℕ)) : (bits fields).length = width fields := by
  induction fields with
  | nil => rfl
  | cons field fields ih =>
    rw [bits, List.flatMap_cons, List.length_append, Bits.length_ofNat]
    exact congrArg (field.2 + ·) ih

end BitFields

open BitFields

namespace BitWriter

theorem writeFields_written (writer : BitWriter) (fields : List (UInt32 × ℕ)) (bounded : ∀ field ∈ fields, field.2 ≤ 32)
    (within : writer.bitPos.toNat < 8) :
    (writer.writeFields fields).written = writer.written ++ bits fields ∧
      (writer.writeFields fields).bitPos.toNat < 8 := by
  induction fields generalizing writer with
  | nil => exact ⟨(List.append_nil _).symm, within⟩
  | cons field fields ih =>
    obtain ⟨first, still⟩ := writer.writeBits_written field.1 (bounded field List.mem_cons_self) within
    obtain ⟨rest, final⟩ := ih (writer.writeBits field.1 field.2)
      (fun later member => bounded later (List.mem_cons_of_mem _ member)) still
    refine ⟨?_, final⟩
    rw [first, List.append_assoc] at rest
    exact rest

/-- A finished buffer starts with the fields written, and fewer than eight bits follow them. -/
theorem finish_writeFields (fields : List (UInt32 × ℕ)) (bounded : ∀ field ∈ fields, field.2 ≤ 32) :
    ∃ padding, Bits.ofBytes (new.writeFields fields).finish = bits fields ++ List.replicate padding false ∧ padding < 8 := by
  obtain ⟨wrote, within⟩ := new.writeFields_written fields bounded (by decide)
  obtain ⟨padding, finished, short⟩ := (new.writeFields fields).finish_bits within
  refine ⟨padding, ?_, short⟩
  rw [finished, wrote]
  rfl

end BitWriter

namespace BitReader

structure ReadsFields (reader : BitReader) (fields : List (UInt32 × ℕ)) (result : List UInt32 × BitReader) : Prop where
  values : result.1.map UInt32.toNat = fields.map fun field => field.1.toNat % 2 ^ field.2
  buf : result.2.buf = reader.buf
  position : result.2.position = reader.position + width fields
  within : result.2.bitPos.toNat < 8

theorem readBits_field {reader : BitReader} {value : UInt32} {nbits : ℕ} {rest : List Bool}
    (bounded : nbits ≤ 32) (within : reader.bitPos.toNat < 8) (enough : reader.position + nbits ≤ 8 * reader.buf.length)
    (spelled : (Bits.ofBytes reader.buf).drop reader.position = Bits.ofNat nbits value.toNat ++ rest) :
    Reads reader 0 nbits (reader.readBits nbits) ∧ (reader.readBits nbits).1.toNat = value.toNat % 2 ^ nbits := by
  have reads := readBitsFrom_reads reader 0 nbits within enough
  have field : ((Bits.ofBytes reader.buf).drop reader.position).take nbits = Bits.ofNat nbits value.toNat := by
    rw [spelled, List.take_left' (Bits.length_ofNat nbits value.toNat)]
  have fits : value.toNat % 2 ^ nbits < 2 ^ 32 :=
    Nat.lt_of_lt_of_le (Nat.mod_lt _ (Nat.two_pow_pos nbits)) (Nat.pow_le_pow_right (by decide) bounded)
  refine ⟨reads, ?_⟩
  rw [readBits, reads.value, field, Bits.toNat_ofNat, UInt32.toNat_zero, Nat.zero_mul, Nat.zero_add]
  exact Nat.mod_eq_of_lt fits

theorem readFields_reads (reader : BitReader) (fields : List (UInt32 × ℕ)) (rest : List Bool)
    (bounded : ∀ field ∈ fields, field.2 ≤ 32) (within : reader.bitPos.toNat < 8)
    (enough : reader.position + width fields ≤ 8 * reader.buf.length)
    (spelled : (Bits.ofBytes reader.buf).drop reader.position = bits fields ++ rest) :
    ReadsFields reader fields (reader.readFields (fields.map Prod.snd)) := by
  induction fields generalizing reader with
  | nil => exact ⟨rfl, rfl, rfl, within⟩
  | cons field fields ih =>
    rw [bits, List.flatMap_cons, List.append_assoc] at spelled
    have total : width (field :: fields) = field.2 + width fields := rfl
    obtain ⟨first, value⟩ :=
      readBits_field (bounded field List.mem_cons_self) within (by omega) spelled
    have buf : (reader.readBits field.2).2.buf = reader.buf := first.buf
    have position : (reader.readBits field.2).2.position = reader.position + field.2 := first.position
    have behind : (Bits.ofBytes (reader.readBits field.2).2.buf).drop (reader.readBits field.2).2.position =
        bits fields ++ rest := by
      rw [buf, position, ← List.drop_drop, spelled, List.drop_left' (Bits.length_ofNat _ _)]
      rfl
    have later := ih (reader.readBits field.2).2 (fun later member => bounded later (List.mem_cons_of_mem _ member))
      first.within (by rw [buf, position]; omega) behind
    refine ⟨congrArg₂ List.cons value later.values, later.buf.trans buf, ?_, later.within⟩
    refine later.position.trans ?_
    rw [position, total, Nat.add_assoc]

theorem bytesConsumed_eq {reader : BitReader} (within : reader.bitPos.toNat < 8) :
    reader.bytesConsumed = (reader.position + 7) / 8 := by
  unfold bytesConsumed position
  split
  next some =>
    simp only [gt_iff_lt, UInt8.lt_iff_toNat_lt, UInt8.toNat_zero] at some
    omega
  next none =>
    simp only [gt_iff_lt, UInt8.lt_iff_toNat_lt, UInt8.toNat_zero] at none
    omega

/-- Within its buffer a reader knows how many bits remain; the subtraction cannot underflow. -/
theorem remainingBits_eq {reader : BitReader} (within : reader.bitPos.toNat < 8)
    (inside : reader.position ≤ 8 * reader.buf.length) :
    reader.remainingBits = .ok (8 * reader.buf.length - reader.position) := by
  unfold position at inside
  have fits : reader.bitPos.toNat ≤ (reader.buf.length - reader.byteI) * 8 := by omega
  rw [remainingBits, subUsize, if_pos fits, position]
  exact congrArg Outcome.ok (by omega)

end BitReader

/-- Fields of up to 32 bits are read back as written, whatever follows the finished buffer. The bytes
consumed are the bits read over 8, rounded up, and after each of the reads the remaining bits are known. -/
theorem BitReader.readFields_writeFields (fields : List (UInt32 × ℕ)) (padding : Bytes)
    (bounded : ∀ field ∈ fields, field.2 ≤ 32) :
    let buf := (BitWriter.new.writeFields fields).finish ++ padding
    let result := (BitReader.new buf).readFields (fields.map Prod.snd)
    result.1.map UInt32.toNat = (fields.map fun field => field.1.toNat % 2 ^ field.2) ∧
      result.2.bytesConsumed = ((fields.map Prod.snd).sum + 7) / 8 ∧
      ∀ count, ((BitReader.new buf).readFields ((fields.map Prod.snd).take count)).2.remainingBits =
        .ok (8 * buf.length - ((fields.map Prod.snd).take count).sum) := by
  intro buf
  obtain ⟨zeros, finished, _⟩ := BitWriter.finish_writeFields fields bounded
  have spelled : Bits.ofBytes buf = bits fields ++ (List.replicate zeros false ++ Bits.ofBytes padding) := by
    rw [Bits.ofBytes_append, finished, List.append_assoc]
  have length : 8 * buf.length = width fields + (zeros + 8 * padding.length) := by
    have both := congrArg List.length spelled
    rwa [List.length_append, List.length_append, List.length_replicate, Bits.length_ofBytes, Bits.length_ofBytes,
      length_bits] at both
  have start : (BitReader.new buf).position = 0 := rfl
  have byteStart : (BitReader.new buf).bitPos.toNat < 8 := by
    change (0 : UInt8).toNat < 8
    decide
  have whole := readFields_reads (.new buf) fields _ bounded byteStart (by rw [start]; change _ ≤ 8 * buf.length; omega) spelled
  refine ⟨whole.values, ?_, ?_⟩
  · rw [bytesConsumed_eq whole.within, whole.position, start, Nat.zero_add]
    rfl
  · intro count
    -- the fields read so far, and the ones behind them
    have parts : bits fields = bits (fields.take count) ++ bits (fields.drop count) := by
      rw [bits, bits, bits, ← List.flatMap_append, List.take_append_drop]
    have some : width (fields.take count) ≤ width fields := by
      have both := congrArg List.length parts
      rw [List.length_append, length_bits, length_bits] at both
      omega
    have part := readFields_reads (.new buf) (fields.take count)
      (bits (fields.drop count) ++ (List.replicate zeros false ++ Bits.ofBytes padding))
      (fun field member => bounded field (List.mem_of_mem_take member)) byteStart
      (by rw [start]; change _ ≤ 8 * buf.length; omega)
      (by rw [← List.append_assoc, ← parts]; exact spelled)
    rw [← List.map_take]
    have position := part.position
    rw [start, Nat.zero_add] at position
    refine (remainingBits_eq part.within ?_).trans ?_
    · rw [part.buf, position]
      change _ ≤ 8 * buf.length
      omega
    · rw [part.buf, position]
      rfl

theorem BitReader.readFields_writeFields_mixed :
    let buf := (BitWriter.new.writeFields [(5, 3), (1000, 7), (9, 0), (0x12345678, 32)]).finish ++ [0xAB]
    let result := (BitReader.new buf).readFields [3, 7, 0, 32]
    result.1.map UInt32.toNat = [5, 104, 0, 0x12345678] ∧ result.2.bytesConsumed = 6 := by
  have fields := readFields_writeFields [(5, 3), (1000, 7), (9, 0), (0x12345678, 32)] [0xAB] (by decide)
  exact ⟨fields.1, fields.2.1⟩

end Delp
