import Delp.Lib.Runs
import Delp.Proofs.BitStream
import Mathlib.Algebra.BigOperators.Group.Finset.Basic

/-! When the four id formats can be read: exactly when no id, and no block end, passes
`u32::MAX`, and a compressed list has an id at all. Blocks are read as the runs that they hold. -/

namespace Delp.IdStorage
open Machine

/-- The blocks that an uncompressed edge field holds, as offsets from the first id. -/
def edgeBlocks (buf : Bytes) : List (ℕ × ℕ) :=
  (List.range (buf.length / 8)).map fun k =>
    ((fromBeBytes (buf.drop (8 * k))).toNat, (fromBeBytes (buf.drop (8 * k + 4))).toNat)

def runBlocks (buf : Bytes) : List (ℕ × ℕ) :=
  (List.range (buf.length / 4)).map fun k => (Bits.word buf (2 * k), Bits.word buf (2 * k + 1))

/-- The blocks read until enough ids are there lie below 2³². -/
def EdgesFit (first nbIds : ℕ) : ℕ → List (ℕ × ℕ) → Prop
  | _, [] => True
  | count, (start, last) :: blocks => count < nbIds →
    first + start < 4294967296 ∧ first + last < 4294967296 ∧ EdgesFit first nbIds (count + (last - start)) blocks

def RunsFit (first nbIds : ℕ) : ℕ → ℕ → List (ℕ × ℕ) → Prop
  | _, _, [] => True
  | count, reached, (gap, length) :: blocks => count < nbIds →
    first + (reached + gap + length) < 4294967296 ∧
      RunsFit first nbIds (count + length) (reached + gap + length) blocks

def Fits (buf : Bytes) (nbIds : ℕ) (first : UInt32) : IdStorageFormat → Prop
  | .none => nbIds = 0 ∨ first.toNat + (nbIds - 1) < 4294967296
  | .compressedList => nbIds ≠ 0 ∧ (2 * (nbIds - 1) ≤ buf.length →
    first.toNat + ∑ k ∈ Finset.range (nbIds - 1), Bits.word buf k < 4294967296)
  | .uncompressedEdges => EdgesFit first.toNat nbIds 0 (edgeBlocks buf)
  | .compressedEdges => RunsFit first.toNat nbIds 0 0 (runBlocks buf)

theorem decodeNone_returns {nbIds : ℕ} (byte : nbIds < 256) (first : UInt32) :
    (decodeNone nbIds first).Returns ↔ nbIds = 0 ∨ first.toNat + (nbIds - 1) < 4294967296 := by
  have bounded := toNat_lt first
  rw [decodeNone, toNat_ofNat (by omega), Outcome.returns_mapM fun i _ => noError_addU32]
  simp only [List.mem_range, returns_addU32]
  constructor
  · intro each
    rcases Nat.eq_zero_or_pos nbIds with none | some
    · exact .inl none
    · have last := each (nbIds - 1) (by omega)
      rw [toNat_ofNat (by omega)] at last
      exact .inr last
  · intro fits i inside
    rw [toNat_ofNat (by omega)]
    omega

/-- Reading deltas fails exactly where their sum passes `u32::MAX`. -/
theorem decodeDeltas_returns (buf : Bytes) (count k : ℕ) (reader : BitReader) (prev : UInt32) (same : reader.buf = buf)
    (aligned : reader.position = 16 * k) (within : reader.bitPos.toNat < 8) (enough : 2 * (k + count) ≤ buf.length) :
    (decodeDeltas reader prev count).Returns ↔
      prev.toNat + ∑ j ∈ Finset.range count, Bits.word buf (k + j) < 4294967296 := by
  induction count generalizing reader prev k with
  | zero =>
    have bounded := toNat_lt prev
    simp only [decodeDeltas, Outcome.pure_def, Outcome.returns_ok, Finset.range_zero, Finset.sum_empty, Nat.add_zero,
      bounded]
  | succ count ih =>
    obtain ⟨value, same', moved, within'⟩ := BitReader.readBits_word buf k same aligned within (by omega)
    rw [decodeDeltas, Finset.sum_range_succ']
    simp only [Outcome.returns_bind, returns_addU32, value, Nat.add_zero, Outcome.pure_def, Outcome.returns_ok,
      implies_true, and_true]
    constructor
    · rintro ⟨fits, later⟩
      have sum := later _ (addU32_eq_ok.mpr ⟨by rw [value]; exact fits, rfl⟩)
      rw [ih (k + 1) _ _ same' moved within' (by omega), toNat_add (by rw [value]; exact fits), value] at sum
      simp only [show ∀ j, k + 1 + j = k + (j + 1) by omega] at sum
      omega
    · intro sum
      refine ⟨by omega, fun id added => ?_⟩
      obtain ⟨fits, rfl⟩ := addU32_eq_ok.mp added
      rw [ih (k + 1) _ _ same' moved within' (by omega), toNat_add fits, value]
      simp only [show ∀ j, k + 1 + j = k + (j + 1) by omega]
      omega

theorem decodeCompressedList_returns (buf : Bytes) (nbIds : ℕ) (first : UInt32) :
    (decodeCompressedList buf nbIds first).Returns ↔ nbIds ≠ 0 ∧ (2 * (nbIds - 1) ≤ buf.length →
      first.toNat + ∑ k ∈ Finset.range (nbIds - 1), Bits.word buf k < 4294967296) := by
  have bounded := toNat_lt first
  unfold decodeCompressedList
  split
  next one =>
    subst one
    simpa using bounded
  next =>
    unfold subUsize
    by_cases none : nbIds = 0
    · subst none
      simp
    · rw [if_pos (show 1 ≤ nbIds by omega), Outcome.ok_bind]
      split
      next short =>
        simp only [Outcome.returns_err, true_iff]
        exact ⟨none, fun enough => by omega⟩
      next enough =>
        have deltas := decodeDeltas_returns buf (nbIds - 1) 0 (.new buf) first rfl rfl
          (show (0 : UInt8).toNat < 8 by decide) (by omega)
        simp only [Nat.zero_add] at deltas
        simp only [Outcome.returns_bind, deltas, Outcome.pure_def, Outcome.returns_ok, implies_true, and_true]
        exact ⟨fun sum => ⟨none, fun _ => sum⟩, fun fits => fits.2 (by omega)⟩

theorem idRange_toNat (start last : UInt32) :
    (idRange start last).map UInt32.toNat = List.range' start.toNat (last.toNat - start.toNat) := by
  rw [idRange, List.map_map, List.range'_eq_map_range]
  apply List.map_congr_left
  intro i inside
  have below := List.mem_range.mp inside
  have bounded := toNat_lt last
  rw [Function.comp_apply, toNat_add (by rw [toNat_ofNat (by omega)]; omega), toNat_ofNat (by omega)]

/-- How the loop over blocks ends: at a block past `u32::MAX`, at the end of the buffer, or with
the ids that are wanted. -/
inductive Reads (fits : Prop) (gathered : Option (List ℕ × ℕ)) (size done : ℕ) : Result (List UInt32 × ℕ) → Prop
  | overflow {reason : Panic} (unfit : ¬ fits) : Reads fits gathered size done (.panic reason)
  | truncated {error : DelpError} (fit : fits) (few : gathered = none) : Reads fits gathered size done (.err error)
  | complete {ids : List UInt32} {used : ℕ} (fit : fits) (enough : gathered = some (ids.map UInt32.toNat, used)) :
    Reads fits gathered size done (.ok (ids, size * (done + used)))

section Reads
variable {fits rest : Prop} {gathered : Option (List ℕ × ℕ)} {size done : ℕ} {outcome : Result (List UInt32 × ℕ)}

theorem Reads.returns_iff (reads : Reads fits gathered size done outcome) : outcome.Returns ↔ fits := by
  cases reads with
  | overflow unfit => exact iff_of_false (Outcome.not_returns_panic _) unfit
  | truncated fit => exact iff_of_true (Outcome.returns_err _) fit
  | complete fit => exact iff_of_true (Outcome.returns_ok _) fit

theorem Reads.of_ok (reads : Reads fits gathered size done outcome) {ids : List UInt32} {consumed : ℕ}
    (ended : outcome = .ok (ids, consumed)) :
    ∃ used, gathered = some (ids.map UInt32.toNat, used) ∧ consumed = size * (done + used) := by
  cases reads with
  | overflow => cases ended
  | truncated => cases ended
  | complete _ enough =>
    cases ended
    exact ⟨_, enough, rfl⟩

theorem Reads.ok_of (reads : Reads fits gathered size done outcome) (fit : fits) {ids : List UInt32} {used : ℕ}
    (enough : gathered = some (ids.map UInt32.toNat, used)) : outcome = .ok (ids, size * (done + used)) := by
  cases reads with
  | overflow unfit => exact absurd fit unfit
  | truncated _ few => cases enough.symm.trans few
  | complete _ same =>
    obtain ⟨listed, rfl⟩ := Prod.mk.inj (Option.some.inj (same.symm.trans enough))
    rw [List.map_injective_iff.mpr (fun _ _ => UInt32.toNat_inj.mp) listed]

theorem Reads.behind (reads : Reads rest gathered size (done + 1) outcome) (same : fits ↔ rest) :
    Reads fits (gathered.map fun result => (result.1, result.2 + 1)) size done outcome := by
  cases reads with
  | overflow unfit => exact .overflow (mt same.mp unfit)
  | truncated fit few => exact .truncated (same.mpr fit) (by rw [few]; rfl)
  | complete fit enough =>
    rw [Nat.add_right_comm, Nat.add_assoc]
    exact .complete (same.mpr fit) (by rw [enough]; rfl)

end Reads

def edgeRuns (first : ℕ) (blocks : List (ℕ × ℕ)) : List (ℕ × ℕ) := blocks.map fun block => (first + block.1, first + block.2)

theorem decodeUncompressedFrom_reads (buf : Bytes) (nbIds : ℕ) (first : UInt32) (fuel k : ℕ) (ids : List UInt32)
    (enough : buf.length / 8 < k + fuel) (inside : k ≤ buf.length / 8) :
    Reads (EdgesFit first.toNat nbIds ids.length ((edgeBlocks buf).drop k))
      (Runs.gather nbIds (ids.map UInt32.toNat) (edgeRuns first.toNat ((edgeBlocks buf).drop k))) 8 k
      (decodeUncompressedFrom buf nbIds first fuel ids (8 * k)) := by
  induction fuel generalizing k ids with
  | zero => omega
  | succ fuel ih =>
    unfold decodeUncompressedFrom
    split
    next missing =>
      split
      next short =>
        have past : (edgeBlocks buf).length ≤ k := by
          rw [edgeBlocks, List.length_map, List.length_range]
          omega
        rw [List.drop_eq_nil_of_le past]
        refine .truncated trivial ?_
        rw [edgeRuns, List.map_nil, Runs.gather, List.length_map, if_pos missing]
      next long =>
        have within : k < (edgeBlocks buf).length := by
          rw [edgeBlocks, List.length_map, List.length_range]
          omega
        have block : (edgeBlocks buf)[k] =
            ((fromBeBytes (buf.drop (8 * k))).toNat, (fromBeBytes (buf.drop (8 * k + 4))).toNat) := by
          simp [edgeBlocks]
        rw [List.drop_eq_getElem_cons within, block, readU32_of (by omega), Outcome.ok_bind, readU32_of (by omega),
          Outcome.ok_bind]
        by_cases startFits : first.toNat + (fromBeBytes (buf.drop (8 * k))).toNat < 4294967296
        swap
        · rw [addU32_overflow startFits]
          exact .overflow fun fit => startFits (fit missing).1
        rw [addU32_eq_ok.mpr ⟨startFits, rfl⟩, Outcome.ok_bind]
        by_cases lastFits : first.toNat + (fromBeBytes (buf.drop (8 * k + 4))).toNat < 4294967296
        swap
        · rw [addU32_overflow lastFits]
          exact .overflow fun fit => lastFits (fit missing).2.1
        rw [addU32_eq_ok.mpr ⟨lastFits, rfl⟩, Outcome.ok_bind]
        have rest := ih (k + 1) (ids ++ idRange (first + fromBeBytes (buf.drop (8 * k))) (first + fromBeBytes (buf.drop (8 * k + 4))))
          (by omega) (by omega)
        have length := congrArg List.length (idRange_toNat (first + fromBeBytes (buf.drop (8 * k))) (first + fromBeBytes (buf.drop (8 * k + 4))))
        rw [List.length_map, List.length_range'] at length
        rw [List.map_append, idRange_toNat, List.length_append, length, toNat_add startFits, toNat_add lastFits,
          Nat.add_sub_add_left] at rest
        rw [edgeRuns, List.map_cons, Runs.gather, List.length_map, if_pos missing, Nat.add_sub_add_left]
        exact rest.behind ⟨fun fit => (fit missing).2.2, fun fit _ => ⟨startFits, lastFits, fit⟩⟩
    next done =>
      have enough : Runs.gather nbIds (ids.map UInt32.toNat) (edgeRuns first.toNat ((edgeBlocks buf).drop k)) =
          some ((ids.take nbIds).map UInt32.toNat, 0) := by
        rw [Runs.gather_enough (by rwa [List.length_map]), List.map_take]
      have stops : EdgesFit first.toNat nbIds ids.length ((edgeBlocks buf).drop k) := by
        cases (edgeBlocks buf).drop k with
        | nil => trivial
        | cons block blocks => exact fun missing => absurd missing done
      exact .complete stops enough

section Blocks
variable {β : Type}

private def blockEnds (first reached gap length : UInt32) (next : UInt32 → UInt32 → UInt32 → Result β) : Result β := do
  let base ← addU32 first reached
  let start ← addU32 base gap
  let offset ← subU32 start first
  let reached ← addU32 offset length
  let last ← addU32 start length
  next start reached last

private theorem blockEnds_eq {first reached gap length : UInt32} (next : UInt32 → UInt32 → UInt32 → Result β)
    (fits : first.toNat + (reached.toNat + gap.toNat + length.toNat) < 4294967296) :
    ∃ start reached' last, blockEnds first reached gap length next = next start reached' last ∧
      reached'.toNat = reached.toNat + gap.toNat + length.toNat ∧ start.toNat = first.toNat + reached.toNat + gap.toNat ∧
      last.toNat = start.toNat + length.toNat := by
  have base : (first + reached).toNat = first.toNat + reached.toNat := toNat_add (by omega)
  have start : (first + reached + gap).toNat = first.toNat + reached.toNat + gap.toNat := by
    rw [toNat_add (by omega), base]
  have above : first ≤ first + reached + gap := by
    rw [le_iff, start]
    omega
  have offset : (first + reached + gap - first).toNat = reached.toNat + gap.toNat := by
    rw [toNat_sub above, start]
    omega
  refine ⟨first + reached + gap, first + reached + gap - first + length, first + reached + gap + length, ?_, ?_, start, ?_⟩
  · rw [blockEnds, addU32_eq_ok.mpr ⟨by omega, rfl⟩, Outcome.ok_bind, addU32_eq_ok.mpr ⟨by omega, rfl⟩, Outcome.ok_bind,
      subU32_eq_ok.mpr ⟨above, rfl⟩, Outcome.ok_bind, addU32_eq_ok.mpr ⟨by omega, rfl⟩, Outcome.ok_bind,
      addU32_eq_ok.mpr ⟨by omega, rfl⟩, Outcome.ok_bind]
  · rw [toNat_add (by omega), offset]
  · rw [toNat_add (by omega)]

private theorem blockEnds_fits {first reached gap length : UInt32} {next : UInt32 → UInt32 → UInt32 → Result β}
    (returns : (blockEnds first reached gap length next).Returns) :
    first.toNat + (reached.toNat + gap.toNat + length.toNat) < 4294967296 := by
  obtain ⟨baseFits, returns⟩ := Outcome.returns_bind.mp returns
  rw [returns_addU32] at baseFits
  obtain ⟨startFits, returns⟩ := Outcome.returns_bind.mp (returns _ (addU32_eq_ok.mpr ⟨baseFits, rfl⟩))
  rw [returns_addU32, toNat_add baseFits] at startFits
  have start : (first + reached + gap).toNat = first.toNat + reached.toNat + gap.toNat := by
    rw [toNat_add (by rw [toNat_add baseFits]; exact startFits), toNat_add baseFits]
  have above : first ≤ first + reached + gap := by
    rw [le_iff, start]
    omega
  have returns := (Outcome.returns_bind.mp (returns _ (addU32_eq_ok.mpr ⟨by rw [toNat_add baseFits]; exact startFits, rfl⟩))).2
    _ (subU32_eq_ok.mpr ⟨above, rfl⟩)
  obtain ⟨reachedFits, returns⟩ := Outcome.returns_bind.mp returns
  rw [returns_addU32] at reachedFits
  have lastFits := (Outcome.returns_bind.mp (returns _ (addU32_eq_ok.mpr ⟨reachedFits, rfl⟩))).1
  rw [returns_addU32, start] at lastFits
  omega

end Blocks

theorem decodeCompressedFrom_reads (buf : Bytes) (nbIds : ℕ) (first : UInt32) (fuel k : ℕ) (ids : List UInt32)
    (reader : BitReader) (reached : UInt32) (same : reader.buf = buf) (aligned : reader.position = 16 * (2 * k))
    (within : reader.bitPos.toNat < 8) (enough : buf.length / 4 < k + fuel) (inside : k ≤ buf.length / 4) :
    Reads (RunsFit first.toNat nbIds ids.length reached.toNat ((runBlocks buf).drop k))
      (Runs.gather nbIds (ids.map UInt32.toNat) (Runs.walk (first.toNat + reached.toNat) ((runBlocks buf).drop k))) 4 k
      (decodeCompressedFrom nbIds first fuel ids reader reached) := by
  induction fuel generalizing k ids reader reached with
  | zero => omega
  | succ fuel ih =>
    have cursor : reader.bitPos.toNat = 0 ∧ reader.byteI = 4 * k := by
      unfold BitReader.position at aligned
      omega
    unfold decodeCompressedFrom
    split
    next missing =>
      have remaining : reader.remainingBits = .ok ((buf.length - 4 * k) * 8) := by
        rw [BitReader.remainingBits, same, cursor.1, cursor.2]
        exact if_pos (Nat.zero_le _)
      rw [remaining, Outcome.ok_bind]
      split
      next short =>
        have past : (runBlocks buf).length ≤ k := by
          rw [runBlocks, List.length_map, List.length_range]
          omega
        rw [List.drop_eq_nil_of_le past]
        refine .truncated trivial ?_
        rw [Runs.walk, Runs.gather, List.length_map, if_pos missing]
      next long =>
        have inBlocks : k < (runBlocks buf).length := by
          rw [runBlocks, List.length_map, List.length_range]
          omega
        have block : (runBlocks buf)[k] = (Bits.word buf (2 * k), Bits.word buf (2 * k + 1)) := by
          simp [runBlocks]
        obtain ⟨gap, gapBuf, gapEnd, gapWithin⟩ := BitReader.readBits_word buf (2 * k) same aligned within (by omega)
        obtain ⟨length, lengthBuf, lengthEnd, lengthWithin⟩ :=
          BitReader.readBits_word buf (2 * k + 1) gapBuf gapEnd gapWithin (by omega)
        rw [List.drop_eq_getElem_cons inBlocks, block, ← gap, ← length]
        change Reads _ _ 4 k (blockEnds first reached (reader.readBits 16).1 ((reader.readBits 16).2.readBits 16).1
          fun start reached' last => decodeCompressedFrom nbIds first fuel (ids ++ idRange start last)
            ((reader.readBits 16).2.readBits 16).2 reached')
        by_cases fits : first.toNat + (reached.toNat + (reader.readBits 16).1.toNat + ((reader.readBits 16).2.readBits 16).1.toNat) < 4294967296
        swap
        · obtain ⟨reason, ended⟩ := Outcome.not_returns.mp (mt blockEnds_fits fits)
          rw [ended]
          exact .overflow fun fit => fits (fit missing).1
        obtain ⟨start, reached', last, continues, ends, starts, lasts⟩ := blockEnds_eq _ fits
        have rest := ih (k + 1) (ids ++ idRange start last) ((reader.readBits 16).2.readBits 16).2 reached' lengthBuf
          (by rw [lengthEnd]; ring) lengthWithin (by omega) (by omega)
        rw [continues]
        have counted := congrArg List.length (idRange_toNat start last)
        rw [List.length_map, List.length_range', lasts, Nat.add_sub_cancel_left] at counted
        rw [List.map_append, idRange_toNat, List.length_append, counted, lasts, Nat.add_sub_cancel_left, ends, starts] at rest
        have reaches : first.toNat + (reached.toNat + (reader.readBits 16).1.toNat + ((reader.readBits 16).2.readBits 16).1.toNat) =
            first.toNat + reached.toNat + (reader.readBits 16).1.toNat + ((reader.readBits 16).2.readBits 16).1.toNat := by omega
        rw [Runs.walk, Runs.gather, List.length_map, if_pos missing, Nat.add_sub_cancel_left, ← reaches]
        exact rest.behind ⟨fun fit => (fit missing).2, fun fit _ => ⟨fits, fit⟩⟩
    next done =>
      have enough : Runs.gather nbIds (ids.map UInt32.toNat) (Runs.walk (first.toNat + reached.toNat) ((runBlocks buf).drop k)) =
          some ((ids.take nbIds).map UInt32.toNat, 0) := by
        rw [Runs.gather_enough (by rwa [List.length_map]), List.map_take]
      have consumed : reader.bytesConsumed = 4 * (k + 0) := by
        rw [BitReader.bytesConsumed, if_neg, cursor.2, Nat.add_zero]
        rw [gt_iff_lt, UInt8.lt_iff_toNat_lt, cursor.1]
        exact Nat.lt_irrefl 0
      have stops : RunsFit first.toNat nbIds ids.length reached.toNat ((runBlocks buf).drop k) := by
        cases (runBlocks buf).drop k with
        | nil => trivial
        | cons block blocks => exact fun missing => absurd missing done
      rw [consumed]
      exact .complete stops enough

theorem decodeUncompressedEdges_reads (buf : Bytes) (nbIds : ℕ) (first : UInt32) :
    Reads (EdgesFit first.toNat nbIds 0 (edgeBlocks buf)) (Runs.gather nbIds [] (edgeRuns first.toNat (edgeBlocks buf))) 8 0
      (decodeUncompressedEdges buf nbIds first) :=
  decodeUncompressedFrom_reads buf nbIds first _ 0 [] (by omega) (Nat.zero_le _)

theorem decodeCompressedEdges_reads (buf : Bytes) (nbIds : ℕ) (first : UInt32) :
    Reads (RunsFit first.toNat nbIds 0 0 (runBlocks buf)) (Runs.gather nbIds [] (Runs.walk first.toNat (runBlocks buf))) 4 0
      (decodeCompressedEdges buf nbIds first) :=
  decodeCompressedFrom_reads buf nbIds first _ 0 [] (.new buf) 0 rfl rfl (show (0 : UInt8).toNat < 8 by decide)
    (by omega) (Nat.zero_le _)

theorem decode_returns (buf : Bytes) {nbIds : ℕ} (byte : nbIds < 256) (first : UInt32) (format : IdStorageFormat) :
    (decode buf nbIds first format).Returns ↔ Fits buf nbIds first format := by
  cases format with
  | none =>
    simp only [decode, Outcome.returns_bind, decodeNone_returns byte, Outcome.pure_def, Outcome.returns_ok, implies_true,
      and_true, Fits]
  | compressedList => exact decodeCompressedList_returns buf nbIds first
  | uncompressedEdges => exact (decodeUncompressedEdges_reads buf nbIds first).returns_iff
  | compressedEdges => exact (decodeCompressedEdges_reads buf nbIds first).returns_iff

section Decoded
variable {buf : Bytes} {nbIds : ℕ} {first : UInt32} {ids : List UInt32} {consumed : ℕ}

theorem decodeDeltas_ok (buf : Bytes) (k : ℕ) {count : ℕ} {reader final : BitReader} {prev : UInt32} (same : reader.buf = buf)
    (aligned : reader.position = 16 * k) (within : reader.bitPos.toNat < 8) (enough : 2 * (k + count) ≤ buf.length)
    (decoded : decodeDeltas reader prev count = .ok (ids, final)) :
    ids.length = count ∧ (∀ id ∈ ids, prev ≤ id) ∧ final.bytesConsumed = 2 * (k + count) := by
  induction count generalizing k reader prev ids with
  | zero =>
    cases decoded
    refine ⟨rfl, fun _ member => (nomatch member), ?_⟩
    unfold BitReader.position at aligned
    rw [BitReader.bytesConsumed, if_neg]
    · omega
    · rw [gt_iff_lt, UInt8.lt_iff_toNat_lt, UInt8.toNat_zero]
      omega
  | succ count ih =>
    obtain ⟨_, same', moved, within'⟩ := BitReader.readBits_word buf k same aligned within (by omega)
    obtain ⟨id, added, decoded⟩ := Outcome.bind_eq_ok.mp decoded
    obtain ⟨⟨later, last⟩, rest, decoded⟩ := Outcome.bind_eq_ok.mp decoded
    cases decoded
    obtain ⟨fits, rfl⟩ := addU32_eq_ok.mp added
    obtain ⟨length, above, ended⟩ := ih (k + 1) same' moved within' (by omega) rest
    have up : prev ≤ prev + (reader.readBits 16).1 :=
      (le_iff _ _).mpr ((Nat.le_add_right _ _).trans_eq (toNat_add fits).symm)
    refine ⟨by rw [List.length_cons, length], fun id member => ?_, by rw [ended]; ring⟩
    rcases List.mem_cons.mp member with rfl | member
    · exact up
    · exact UInt32.le_trans up (above id member)

theorem Reads.decoded {fits : Prop} {runs : List (ℕ × ℕ)} {size : ℕ} {outcome : Result (List UInt32 × ℕ)}
    (reads : Reads fits (Runs.gather nbIds [] runs) size 0 outcome) (above : ∀ run ∈ runs, first.toNat ≤ run.1)
    (inside : size * runs.length ≤ buf.length) (ended : outcome = .ok (ids, consumed)) :
    ids.length = nbIds ∧ (∀ id ∈ ids, first ≤ id) ∧ consumed ≤ buf.length := by
  obtain ⟨used, gathered, rfl⟩ := reads.of_ok ended
  obtain ⟨same, enough, few⟩ := Runs.gather_eq_some gathered
  rw [List.nil_append] at same enough
  refine ⟨?_, fun id member => ?_, ?_⟩
  · have length := congrArg List.length same
    rwa [List.length_map, List.length_take, Nat.min_eq_left enough] at length
  · have listed : id.toNat ∈ (Runs.expand runs).take nbIds := same ▸ List.mem_map_of_mem member
    exact (le_iff _ _).mpr (Runs.le_of_mem_expand above (List.mem_of_mem_take listed))
  · rw [Nat.zero_add]
    exact (Nat.mul_le_mul_left size few).trans inside

theorem decode_ok (word : nbIds < 4294967296) {format : IdStorageFormat}
    (decoded : decode buf nbIds first format = .ok (ids, consumed)) :
    ids.length = nbIds ∧ (∀ id ∈ ids, first ≤ id) ∧ consumed ≤ buf.length := by
  cases format with
  | none =>
    obtain ⟨found, all, decoded⟩ := Outcome.bind_eq_ok.mp decoded
    cases decoded
    refine ⟨by rw [Outcome.length_mapM all, List.length_range, toNat_ofNat word], fun id member => ?_, Nat.zero_le _⟩
    obtain ⟨i, _, added⟩ := Outcome.mem_of_mapM all member
    obtain ⟨fits, rfl⟩ := addU32_eq_ok.mp added
    rw [le_iff, toNat_add fits]
    exact Nat.le_add_right _ _
  | compressedList =>
    simp only [decode, decodeCompressedList] at decoded
    split at decoded
    next one =>
      cases decoded
      exact ⟨one.symm, fun id member => by rw [List.mem_singleton.mp member]; exact UInt32.le_refl _, Nat.zero_le _⟩
    next =>
      obtain ⟨deltas, subtracted, decoded⟩ := Outcome.bind_eq_ok.mp decoded
      obtain ⟨some, rfl⟩ := Outcome.guarded_eq_ok.mp subtracted
      split at decoded
      · cases decoded
      next enough =>
        obtain ⟨⟨later, final⟩, rest, decoded⟩ := Outcome.bind_eq_ok.mp decoded
        cases decoded
        obtain ⟨length, above, ended⟩ := decodeDeltas_ok buf 0 rfl rfl (show (0 : UInt8).toNat < 8 by decide)
          (by omega) rest
        refine ⟨by rw [List.length_cons, length]; omega, fun id member => ?_, by rw [ended]; omega⟩
        rcases List.mem_cons.mp member with rfl | member
        · exact UInt32.le_refl _
        · exact above id member
  | uncompressedEdges =>
    refine (decodeUncompressedEdges_reads buf nbIds first).decoded (fun run member => ?_) ?_ decoded
    · obtain ⟨block, _, rfl⟩ := List.mem_map.mp member
      exact Nat.le_add_right _ _
    · rw [edgeRuns, List.length_map, edgeBlocks, List.length_map, List.length_range]
      omega
  | compressedEdges =>
    refine (decodeCompressedEdges_reads buf nbIds first).decoded (fun run member => Runs.le_of_mem_walk member) ?_ decoded
    rw [Runs.length_walk, runBlocks, List.length_map, List.length_range]
    omega

end Decoded

/-- What the count of an id field promises: an error, or that many ids, none below the first, from
bytes of the buffer. -/
inductive Promised (buf : Bytes) (nbIds : ℕ) (first : UInt32) : Result (List UInt32 × ℕ) → Prop
  | refused (error : DelpError) : Promised buf nbIds first (.err error)
  | decoded {ids : List UInt32} {consumed : ℕ} (count : ids.length = nbIds) (above : ∀ id ∈ ids, first ≤ id)
    (inside : consumed ≤ buf.length) : Promised buf nbIds first (.ok (ids, consumed))

/-- An id field keeps its promise exactly when its ids can be told. -/
theorem decode_promised_iff (buf : Bytes) {nbIds : ℕ} (byte : nbIds < 256) (first : UInt32) (format : IdStorageFormat) :
    Promised buf nbIds first (decode buf nbIds first format) ↔ Fits buf nbIds first format := by
  rw [← decode_returns buf byte]
  cases ended : decode buf nbIds first format with
  | ok result =>
    obtain ⟨count, above, inside⟩ := decode_ok (by omega) ended
    exact iff_of_true (.decoded count above inside) (Outcome.returns_ok _)
  | err error => exact iff_of_true (.refused error) (Outcome.returns_err _)
  | panic reason => exact iff_of_false (fun impossible => by cases impossible) (Outcome.not_returns_panic _)

/-- Five ids in two runs, the second cut. -/
theorem decode_promised_iff_runs :
    Promised [0, 0, 0, 3, 0, 1, 0, 9] 5 7 (decode [0, 0, 0, 3, 0, 1, 0, 9] 5 7 .compressedEdges) ∧
      decode [0, 0, 0, 3, 0, 1, 0, 9] 5 7 .compressedEdges = .ok ([7, 8, 9, 11, 12], 8) := by
  refine ⟨(decode_promised_iff _ (by decide) 7 .compressedEdges).mpr ?_, by decide⟩
  rw [Fits, show runBlocks [0, 0, 0, 3, 0, 1, 0, 9] = [(0, 3), (1, 9)] by decide]
  exact fun _ => ⟨by decide, fun _ => ⟨by decide, trivial⟩⟩

/-- No id, and three ids of which the last would lie past `u32::MAX`. -/
theorem decode_promised_fails :
    decode [] 0 7 .compressedList = .panic .overflow ∧ decode [] 3 4294967294 .none = .panic .overflow ∧
      decode [0, 0, 0, 2] 1 4294967294 .compressedEdges = .panic .overflow := by
  decide

end Delp.IdStorage
