import Delp.Proofs.DecodeIds

/-! What the id field of an encoding vector carries across: an ascending list of ids with gaps of
at most 16 bits is decoded to itself, in the format that the encoder chooses for it. -/

namespace Delp

namespace IdStorage
open Machine

def Spaced (ids : List UInt32) : Prop :=
  ids.IsChain fun a b => a.toNat < b.toNat ∧ b.toNat < a.toNat + 65536

instance (ids : List UInt32) : Decidable (Spaced ids) := inferInstanceAs (Decidable (List.IsChain _ ids))

theorem Spaced.ascending {ids : List UInt32} (spaced : Spaced ids) : ids.Pairwise (· < ·) := by
  have chain : (ids.map UInt32.toNat).IsChain (· < ·) :=
    (List.isChain_map _).mpr (List.IsChain.imp (fun _ _ step => step.1) spaced)
  exact (List.pairwise_map.mp (List.isChain_iff_pairwise.mp chain)).imp fun less => (lt_iff _ _).mpr less

theorem Spaced.nodup {ids : List UInt32} (spaced : Spaced ids) : ids.Nodup :=
  spaced.ascending.imp fun less => UInt32.ne_of_lt less

def gaps : UInt32 → List UInt32 → List ℕ
  | _, [] => []
  | prev, id :: ids => (id.toNat - prev.toNat) :: gaps id ids

theorem length_gaps (prev : UInt32) (ids : List UInt32) : (gaps prev ids).length = ids.length := by
  induction ids generalizing prev with
  | nil => rfl
  | cons id ids ih => rw [gaps, List.length_cons, List.length_cons, ih]

theorem isContiguous_of {ids : List UInt32} (spaced : Spaced ids) :
    ∃ contiguous, isContiguous ids = .ok contiguous ∧
      (contiguous = true → ids.IsChain fun a b => b.toNat = a.toNat + 1) := by
  induction ids with
  | nil => exact ⟨true, rfl, fun _ => .nil⟩
  | cons first ids ih =>
    cases ids with
    | nil => exact ⟨true, rfl, fun _ => .singleton first⟩
    | cons second ids =>
      obtain ⟨⟨above, _⟩, rest⟩ := List.isChain_cons_cons.mp spaced
      have bounded := toNat_lt second
      have next : first.toNat + (1 : UInt32).toNat < 4294967296 := by rw [UInt32.toNat_one]; omega
      rw [isContiguous, addU32_eq_ok.mpr ⟨next, rfl⟩, Outcome.ok_bind]
      split
      next same =>
        obtain ⟨contiguous, scanned, chain⟩ := ih rest
        refine ⟨contiguous, scanned, fun yes => List.isChain_cons_cons.mpr ⟨?_, chain yes⟩⟩
        rw [same, toNat_add next, UInt32.toNat_one]
      next => exact ⟨false, rfl, fun no => by cases no⟩

theorem bestFor_of {ids : List UInt32} (spaced : Spaced ids) : ∃ format, bestFor ids = .ok format := by
  obtain ⟨contiguous, scanned, _⟩ := isContiguous_of spaced
  unfold bestFor
  split
  · exact ⟨_, rfl⟩
  · rw [scanned]
    exact ⟨_, rfl⟩

theorem decodeNone_contiguous {first : UInt32} {ids : List UInt32} {count : ℕ}
    (chain : (first :: ids).IsChain fun a b => b.toNat = a.toNat + 1) (length : count = ids.length + 1)
    (word : count < 4294967296) : decodeNone count first = .ok (first :: ids) := by
  have entry (i : ℕ) (inside : i < (first :: ids).length) : (first :: ids)[i].toNat = first.toNat + i := by
    induction i with
    | zero => rfl
    | succ i ih =>
      rw [List.isChain_iff_getElem.mp chain i inside, ih (by omega)]
      rfl
  have each : ∀ i ∈ List.range count, (addU32 first (UInt32.ofNat i) : Result UInt32) = .ok (first + UInt32.ofNat i) := by
    intro i member
    have inside : i < (first :: ids).length := by
      rw [List.length_cons, ← length]
      exact List.mem_range.mp member
    have value := entry i inside
    have bounded := toNat_lt (first :: ids)[i]
    exact addU32_eq_ok.mpr ⟨by rw [toNat_ofNat (by omega)]; omega, rfl⟩
  rw [decodeNone, toNat_ofNat word, Outcome.mapM_of each]
  congr 1
  refine List.ext_getElem (by rw [List.length_map, List.length_range, length, List.length_cons]) fun i _ inside => ?_
  have value := entry i inside
  have bounded := toNat_lt (first :: ids)[i]
  rw [List.getElem_map, List.getElem_range, eq_iff, value, toNat_add (by rw [toNat_ofNat (by omega)]; omega),
    toNat_ofNat (by omega)]

theorem gap_lt {prev : UInt32} {ids : List UInt32} (spaced : Spaced (prev :: ids)) {gap : ℕ} (member : gap ∈ gaps prev ids) :
    gap < 2 ^ 16 := by
  induction ids generalizing prev with
  | nil => cases member
  | cons id ids ih =>
    obtain ⟨⟨_, near⟩, rest⟩ := List.isChain_cons_cons.mp spaced
    rcases List.mem_cons.mp member with rfl | member
    · omega
    · exact ih rest member

theorem gap_toNat {a b : UInt32} (above : a.toNat < b.toNat) : (b - a).toNat = b.toNat - a.toNat :=
  toNat_sub (by rw [le_iff]; omega)

/-- The differences of neighbours as the writer takes them, for ids in any order. -/
def deltas : UInt32 → List UInt32 → List ℕ
  | _, [] => []
  | prev, id :: ids => (id - prev).toNat :: deltas id ids

theorem length_deltas (prev : UInt32) (ids : List UInt32) : (deltas prev ids).length = ids.length := by
  induction ids generalizing prev with
  | nil => rfl
  | cons id ids ih => rw [deltas, List.length_cons, List.length_cons, ih]

theorem deltas_eq {prev : UInt32} {ids : List UInt32} (ascending : (prev :: ids).IsChain fun a b => a.toNat < b.toNat) :
    deltas prev ids = gaps prev ids := by
  induction ids generalizing prev with
  | nil => rfl
  | cons id ids ih =>
    obtain ⟨above, rest⟩ := List.isChain_cons_cons.mp ascending
    rw [deltas, gaps, gap_toNat above, ih rest]

private theorem write_deltas (ids : List UInt32) (prev : UInt32) (writer : BitWriter) (within : writer.bitPos.toNat < 8) :
    (ids.foldl (fun (state : BitWriter × UInt32) id => (state.1.writeBits (id - state.2) 16, id)) (writer, prev)).1.written =
        writer.written ++ (deltas prev ids).flatMap (Bits.ofNat 16) ∧
      (ids.foldl (fun (state : BitWriter × UInt32) id => (state.1.writeBits (id - state.2) 16, id)) (writer, prev)).1.bitPos.toNat <
        8 := by
  induction ids generalizing prev writer with
  | nil => exact ⟨(List.append_nil _).symm, within⟩
  | cons id ids ih =>
    obtain ⟨wrote, still⟩ := writer.writeBits_written (id - prev) (show 16 ≤ 32 by decide) within
    obtain ⟨later, final⟩ := ih id (writer.writeBits (id - prev) 16) still
    rw [List.foldl_cons]
    refine ⟨later.trans ?_, final⟩
    rw [wrote, deltas, List.flatMap_cons, List.append_assoc]

theorem encodeCompressedList_written (first : UInt32) (ids : List UInt32) :
    ∃ bits, encodeCompressedList (first :: ids) = .ok bits ∧ bits.length = 2 * ids.length ∧
      Bits.ofBytes bits = (deltas first ids).flatMap (Bits.ofNat 16) := by
  obtain ⟨wrote, within⟩ := write_deltas ids first .new (show (0 : UInt8).toNat < 8 by decide)
  rw [encodeCompressedList, show (index (first :: ids) 0 : Result UInt32) = .ok first from rfl, Outcome.ok_bind,
    List.drop_one, List.tail_cons]
  dsimp only
  rw [Outcome.pure_def]
  rw [show BitWriter.new.written = [] from rfl, List.nil_append] at wrote
  obtain ⟨length, bits⟩ := BitWriter.finish_words within wrote
  exact ⟨_, rfl, by rw [length, length_deltas], bits⟩

theorem encodeCompressedList_spelled {first : UInt32} {ids : List UInt32}
    (ascending : (first :: ids).IsChain fun a b => a.toNat < b.toNat) :
    ∃ bits, encodeCompressedList (first :: ids) = .ok bits ∧ bits.length = 2 * ids.length ∧
      Bits.ofBytes bits = (gaps first ids).flatMap (Bits.ofNat 16) := by
  rw [← deltas_eq ascending]
  exact encodeCompressedList_written first ids

theorem decodeDeltas_gaps (buf : Bytes) (ids : List UInt32) (k : ℕ) (reader : BitReader) (prev : UInt32)
    (same : reader.buf = buf) (aligned : reader.position = 16 * k) (within : reader.bitPos.toNat < 8)
    (enough : 2 * (k + ids.length) ≤ buf.length) (spaced : Spaced (prev :: ids))
    (words : ∀ j < ids.length, Bits.word buf (k + j) = (gaps prev ids).getD j 0) :
    ∃ final, decodeDeltas reader prev ids.length = .ok (ids, final) ∧ final.position = 16 * (k + ids.length) ∧
      final.bitPos.toNat < 8 := by
  induction ids generalizing k reader prev with
  | nil => exact ⟨reader, rfl, aligned, within⟩
  | cons id ids ih =>
    rw [List.length_cons] at enough
    obtain ⟨⟨above, near⟩, rest⟩ := List.isChain_cons_cons.mp spaced
    obtain ⟨value, same', moved, within'⟩ := BitReader.readBits_word buf k same aligned within (by omega)
    have gap : (reader.readBits 16).1.toNat = id.toNat - prev.toNat := by
      rw [value, ← Nat.add_zero k, words 0 (by simp)]
      rfl
    have bounded := toNat_lt id
    have next : prev + (reader.readBits 16).1 = id := by
      rw [eq_iff, toNat_add (by omega), gap]
      omega
    obtain ⟨final, read, ended, last⟩ := ih (k + 1) (reader.readBits 16).2 id same' moved within' (by omega) rest (by
      intro j inside
      rw [show k + 1 + j = k + (j + 1) by omega, words (j + 1) (by simpa using inside)]
      rfl)
    refine ⟨final, ?_, by rw [ended, List.length_cons]; ring, last⟩
    rw [List.length_cons, decodeDeltas]
    dsimp only
    rw [addU32_eq_ok.mpr ⟨by omega, next.symm⟩, Outcome.ok_bind, read]
    rfl

theorem decodeCompressedList_spelled {first : UInt32} {ids : List UInt32} (spaced : Spaced (first :: ids)) (some : ids ≠ [])
    {bits : Bytes} (length : bits.length = 2 * ids.length) (spelled : Bits.ofBytes bits = (gaps first ids).flatMap (Bits.ofNat 16))
    (rest : Bytes) : decodeCompressedList (bits ++ rest) (ids.length + 1) first = .ok (first :: ids, bits.length) := by
  have positive : ids.length ≠ 0 := fun none => some (List.length_eq_zero_iff.mp none)
  obtain ⟨final, read, ended, within⟩ := decodeDeltas_gaps (bits ++ rest) ids 0 (.new (bits ++ rest)) first rfl rfl
    (show (0 : UInt8).toNat < 8 by decide) (by rw [List.length_append]; omega) spaced (by
      intro j inside
      have bound : j < (gaps first ids).length := by rwa [length_gaps]
      rw [Nat.zero_add, Bits.word_spelled (by rw [Bits.ofBytes_append, spelled]) bound, Nat.mod_eq_of_lt (gap_lt spaced (List.getElem_mem bound)),
        List.getD_eq_getElem _ _ bound])
  have consumed : final.bytesConsumed = bits.length := by
    rw [BitReader.position] at ended
    rw [BitReader.bytesConsumed, if_neg, length]
    · omega
    · rw [gt_iff_lt, UInt8.lt_iff_toNat_lt, UInt8.toNat_zero]
      omega
  rw [decodeCompressedList, if_neg (by omega), subUsize, if_pos (by omega), Outcome.ok_bind, Nat.add_sub_cancel,
    if_neg (by rw [List.length_append]; omega), read, Outcome.ok_bind]
  dsimp only
  rw [consumed, Outcome.pure_def]

/-- The id field that an encoder writes for ascending ids is decoded to them. -/
theorem decode_encode {first : UInt32} {ids : List UInt32} (spaced : Spaced (first :: ids)) (word : ids.length + 1 < 4294967296) :
    ∃ format bits, bestFor (first :: ids) = .ok format ∧ encode (first :: ids) format = .ok bits ∧
      bits.length ≤ 2 * ids.length ∧
      ∀ rest, decode (bits ++ rest) (ids.length + 1) first format = .ok (first :: ids, bits.length) := by
  obtain ⟨contiguous, scanned, chain⟩ := isContiguous_of spaced
  cases contiguous with
  | true =>
    refine ⟨.none, [], by rw [bestFor, if_neg (by simp), scanned]; rfl, rfl, Nat.zero_le _, fun rest => ?_⟩
    rw [decode, decodeNone_contiguous (chain rfl) rfl word]
    rfl
  | false =>
    have some : ids ≠ [] := by
      rintro rfl
      cases scanned
    obtain ⟨bits, encoded, length, spelled⟩ := encodeCompressedList_spelled (List.IsChain.imp (fun _ _ step => step.1) spaced)
    exact ⟨.compressedList, bits, by rw [bestFor, if_neg (by simp), scanned]; rfl, encoded, by omega,
      decodeCompressedList_spelled spaced some length spelled⟩

end IdStorage
end Delp
