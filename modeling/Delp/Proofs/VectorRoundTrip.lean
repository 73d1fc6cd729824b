import Delp.Proofs.IdRoundTrip
import Delp.Gf.Symbols
import Delp.Wire.EncodingVector

/-! What an encoding vector carries across: one of at most 255 ascending ids with small gaps is
parsed to itself, whatever follows it. -/

namespace Delp
open Machine Gf

theorem length_resize (bytes : Bytes) {len : ℕ} (longer : bytes.length ≤ len) : (resize bytes len).length = len := by
  rw [resize, List.length_append, List.length_replicate]
  omega

theorem pad32_le (len : ℕ) : len ≤ pad32 len ∧ pad32 len ≤ len + 3 ∧ pad32 len % 4 = 0 := by
  unfold pad32
  omega

theorem length_packNibbles (coefs : Bytes) : (packNibbles coefs).length = (coefs.length + 1) / 2 := by
  induction coefs using packNibbles.induct with
  | case1 hi lo rest ih =>
    rw [packNibbles, List.length_cons, ih, List.length_cons, List.length_cons]
    omega
  | case2 hi => rw [packNibbles, List.length_singleton, List.length_singleton]
  | case3 => rw [packNibbles, List.length_nil]

private theorem nibbles {hi lo : UInt8} (high : hi < 16) (low : lo < 16) :
    ((((hi &&& 0x0F) <<< 4) ||| (lo &&& 0x0F)) >>> 4) &&& 0x0F = hi ∧ (((hi &&& 0x0F) <<< 4) ||| (lo &&& 0x0F)) &&& 0x0F = lo := by
  have entries : ∀ m < 16, ∀ n < 16,
      ((((UInt8.ofNat m &&& 0x0F) <<< 4) ||| (UInt8.ofNat n &&& 0x0F)) >>> 4) &&& (0x0F : UInt8) = UInt8.ofNat m ∧
      (((UInt8.ofNat m &&& 0x0F) <<< 4) ||| (UInt8.ofNat n &&& 0x0F)) &&& (0x0F : UInt8) = UInt8.ofNat n := by decide +kernel
  have entry := entries hi.toNat (UInt8.lt_iff_toNat_lt.mp high) lo.toNat (UInt8.lt_iff_toNat_lt.mp low)
  simpa only [UInt8.ofNat_toNat] using entry

theorem unpack_packNibbles (out : Bytes) {coefs : Bytes} (small : ∀ c ∈ coefs, c < 16) :
    unpackNibblesFrom (out.length + coefs.length) out (packNibbles coefs) = out ++ coefs := by
  induction coefs using packNibbles.induct generalizing out with
  | case1 hi lo rest ih =>
    obtain ⟨first, second⟩ := nibbles (small hi (by simp)) (small lo (by simp))
    rw [packNibbles, unpackNibblesFrom, first, second, if_pos (by simp), List.append_assoc,
      show out.length + (hi :: lo :: rest).length = (out ++ ([hi] ++ [lo])).length + rest.length by simp; ring,
      ih _ fun c member => small c (by simp [member])]
    simp
  | case2 hi =>
    obtain ⟨first, _⟩ := nibbles (small hi (by simp)) (show (0 : UInt8) < 16 by decide)
    rw [packNibbles, unpackNibblesFrom, first, if_neg (by simp), unpackNibblesFrom, List.take_of_length_le (by simp)]
  | case3 => simp [packNibbles, unpackNibblesFrom]

theorem slice_middle (front bits more : Bytes) :
    (slice (front ++ (bits ++ more)) front.length (front.length + bits.length) : Result Bytes) = .ok bits := by
  rw [slice_of (Nat.le_add_right _ _) (by simp only [List.length_append]; omega), List.drop_left, Nat.add_sub_cancel_left,
    List.take_left]

namespace EncodingVector

theorem flagByte_spells (ev : EncodingVector) :
    fieldOfCcgi ((ev.flagByte >>> 4) &&& 0xF) = .ok ev.field ∧
      IdStorageFormat.fromWire ((ev.flagByte >>> 2) &&& 0x3) = ev.idFormat ∧
      (ev.flagByte >>> 1) &&& 0x1 = ev.hasExplicitCoefs.toUInt8 ∧ ev.flagByte &&& 0x1 = ev.hasGeneration.toUInt8 := by
  unfold flagByte
  generalize ev.hasExplicitCoefs = explicit
  generalize ev.hasGeneration = generation
  cases ev.field <;> cases ev.idFormat <;> cases explicit <;> cases generation <;> decide

theorem length_genBlock (ev : EncodingVector) : ev.genBlock.length = if ev.hasGeneration then 4 else 0 := by
  unfold genBlock
  split <;> rfl

private theorem parseGeneration_spelled (ev : EncodingVector) {front tail : Bytes} (fixed : front.length = 8) :
    parseGeneration (front ++ (ev.genBlock ++ tail)) ev.hasGeneration.toUInt8 = .ok (ev.generation, 8 + ev.genBlock.length) := by
  unfold parseGeneration genBlock
  cases set : ev.hasGeneration with
  | true =>
    rw [if_pos (by decide), if_neg (by simp [fixed]; omega)]
    have read : (front ++ ((if true = true then [ev.generation, 0, 0, 0] else []) ++ tail))[8]? = some ev.generation := by
      rw [List.getElem?_append_right (by omega), fixed]
      rfl
    rw [index, read]
    rfl
  | false =>
    have zero : ev.generation = 0 := by simpa [hasGeneration] using set
    rw [if_neg (by decide), zero]
    rfl

private theorem parseCoefs_spelled {ev : EncodingVector} (explicit : ev.hasExplicitCoefs = true)
    (inField : ∀ c ∈ ev.coefficients, InField ev.field c) (front rest : Bytes) :
    parseCoefs (front ++ (ev.coefBytes ++ rest)) ev.field ev.coefficients.length front.length = .ok ev.coefficients := by
  unfold parseCoefs coefBytes
  rw [if_pos explicit, resize, List.append_assoc]
  cases field : ev.field with
  | gf2_8 =>
    dsimp only
    rw [if_neg (by simp only [List.length_append]; omega), slice_middle]
    rfl
  | gf2_4 =>
    rw [field] at inField
    dsimp only
    rw [← length_packNibbles, if_neg (by simp only [List.length_append]; omega), slice_middle, Outcome.ok_bind, Outcome.pure_def,
      unpackNibbles]
    have unpacked := unpack_packNibbles [] inField
    rw [List.length_nil, Nat.zero_add, List.nil_append] at unpacked
    rw [unpacked]

theorem length_coefBytes {ev : EncodingVector} (short : ev.coefficients.length ≤ 255) :
    ev.coefBytes.length % 4 = 0 ∧ ev.coefBytes.length ≤ 256 := by
  have padded (bits : Bytes) (fits : bits.length ≤ 255) :
      (resize bits (pad32 bits.length)).length % 4 = 0 ∧ (resize bits (pad32 bits.length)).length ≤ 256 := by
    rw [length_resize _ (pad32_le _).1]
    unfold pad32
    omega
  unfold coefBytes
  split
  · cases ev.field with
    | gf2_8 => exact padded _ short
    | gf2_4 => exact padded _ (by rw [length_packNibbles]; omega)
  · exact ⟨rfl, Nat.zero_le _⟩

private theorem counts_agree (ev : EncodingVector)
    (coefs : ev.coefficients = [] ∨ ev.coefficients.length = ev.sourceIds.length) :
    ¬ (ev.hasExplicitCoefs.toUInt8 = 0 ∧ ev.nbCoefs ≠ 0) ∧ ¬ (ev.hasExplicitCoefs.toUInt8 = 1 ∧ ev.nbCoefs ≠ ev.nbIds) := by
  unfold nbCoefs nbIds
  cases set : ev.hasExplicitCoefs with
  | true =>
    refine ⟨fun clear => absurd clear.1 (by decide), fun differ => differ.2 ?_⟩
    rcases coefs with none | all
    · simp [hasExplicitCoefs, none] at set
    · rw [all]
  | false =>
    have empty : ev.coefficients = [] := by simpa [hasExplicitCoefs] using set
    exact ⟨fun clear => clear.2 (by rw [empty]; rfl), fun differ => absurd differ.1 (by decide)⟩

/-- A vector of ascending ids is parsed to itself, and its length is the one that it announces. -/
theorem parse_serialise (ev : EncodingVector) {first : UInt32} {ids : List UInt32} (listed : ev.sourceIds = first :: ids)
    (spaced : IdStorage.Spaced (first :: ids)) (short : ids.length < 255)
    (format : IdStorage.bestFor (first :: ids) = .ok ev.idFormat)
    (coefs : ev.coefficients = [] ∨ ev.coefficients.length = ids.length + 1)
    (inField : ∀ c ∈ ev.coefficients, InField ev.field c) :
    ∃ bytes, ev.serialise = .ok bytes ∧ bytes.length % 4 = 0 ∧ 8 ≤ bytes.length ∧ bytes.length ≤ 776 ∧
      ∀ rest, parse (bytes ++ rest) ev.codedId = .ok (ev, bytes.length) := by
  obtain ⟨best, bits, chosen, encoded, small, decodes⟩ := IdStorage.decode_encode spaced (by omega)
  obtain rfl : best = ev.idFormat := Outcome.ok.inj (chosen.symm.trans format)
  have coefsShort : ev.coefficients.length ≤ 255 := by
    rcases coefs with none | all
    · rw [none]
      exact Nat.zero_le _
    · omega
  obtain ⟨coefWords, coefLength⟩ := length_coefBytes coefsShort
  have idLength : (resize bits (pad32 bits.length)).length = pad32 bits.length := length_resize _ (pad32_le _).1
  obtain ⟨_, idShort, idWords⟩ := pad32_le bits.length
  have genLength := length_genBlock ev
  have genWords : ev.genBlock.length % 4 = 0 ∧ ev.genBlock.length ≤ 4 := by
    rw [genLength]
    split <;> omega
  have nbIds : ev.nbIds.toNat = ids.length + 1 := by
    rw [EncodingVector.nbIds, listed, UInt8.toNat_ofNat', List.length_cons]
    omega
  have nbCoefs : ev.nbCoefs.toNat = ev.coefficients.length := by
    rw [EncodingVector.nbCoefs, UInt8.toNat_ofNat']
    omega
  obtain ⟨ccgi, stored, explicit, generation⟩ := flagByte_spells ev
  let total := 8 + ev.genBlock.length + (resize bits (pad32 bits.length)).length + ev.coefBytes.length
  let front := [UInt8.ofNat ((total + 3) / 4), ev.flagByte, ev.nbIds, ev.nbCoefs] ++ toBeBytes first
  have evLength : (UInt8.ofNat ((total + 3) / 4)).toNat * 4 = total := by
    rw [UInt8.toNat_ofNat']
    omega
  have frontLength : front.length = 8 := rfl
  have whole : (front ++ ev.genBlock ++ resize bits (pad32 bits.length) ++ ev.coefBytes).length = total := by
    simp only [List.length_append, frontLength, total]
  refine ⟨front ++ ev.genBlock ++ resize bits (pad32 bits.length) ++ ev.coefBytes, ?_, by omega, by omega, by omega, fun rest => ?_⟩
  · rw [serialise, listed, encoded]
    rfl
  have shape : front ++ ev.genBlock ++ resize bits (pad32 bits.length) ++ ev.coefBytes ++ rest =
      front ++ (ev.genBlock ++ (resize bits (pad32 bits.length) ++ (ev.coefBytes ++ rest))) := by
    simp only [List.append_assoc]
  have long : (front ++ (ev.genBlock ++ (resize bits (pad32 bits.length) ++ (ev.coefBytes ++ rest)))).length =
      total + rest.length := by
    simp only [List.length_append, frontLength, total]
    omega
  have idField : (slice (front ++ (ev.genBlock ++ (resize bits (pad32 bits.length) ++ (ev.coefBytes ++ rest))))
      (8 + ev.genBlock.length) total : Result Bytes) = .ok (resize bits (pad32 bits.length) ++ ev.coefBytes) := by
    have cut := slice_middle (front ++ ev.genBlock) (resize bits (pad32 bits.length) ++ ev.coefBytes) rest
    have start : (front ++ ev.genBlock).length = 8 + ev.genBlock.length := by rw [List.length_append, frontLength]
    have stop : 8 + ev.genBlock.length + (resize bits (pad32 bits.length) ++ ev.coefBytes).length = total := by
      rw [List.length_append, ← Nat.add_assoc]
    rw [start, stop] at cut
    simpa only [List.append_assoc] using cut
  rw [shape, whole, parse, if_neg (by omega)]
  generalize buffer : front ++ (ev.genBlock ++ (resize bits (pad32 bits.length) ++ (ev.coefBytes ++ rest))) = buf at *
  have byte0 : (index buf 0 : Result UInt8) = .ok (UInt8.ofNat ((total + 3) / 4)) := by rw [← buffer]; rfl
  have byte1 : (index buf 1 : Result UInt8) = .ok ev.flagByte := by rw [← buffer]; rfl
  have byte2 : (index buf 2 : Result UInt8) = .ok ev.nbIds := by rw [← buffer]; rfl
  have byte3 : (index buf 3 : Result UInt8) = .ok ev.nbCoefs := by rw [← buffer]; rfl
  have word : (readU32 buf 4 : Result UInt32) = .ok first := by
    rw [readU32_of (by omega), ← buffer]
    exact congrArg _ (fromBeBytes_toBeBytes first _)
  have generated : parseGeneration buf ev.hasGeneration.toUInt8 = .ok (ev.generation, 8 + ev.genBlock.length) := by
    rw [← buffer]
    exact parseGeneration_spelled ev frontLength
  rw [byte0, Outcome.ok_bind]
  dsimp only
  rw [evLength, if_neg (by omega), byte1, Outcome.ok_bind, ccgi, Outcome.ok_bind, byte2, Outcome.ok_bind, byte3, Outcome.ok_bind]
  simp only [explicit, generation, stored]
  rw [word, Outcome.ok_bind, generated, Outcome.ok_bind]
  dsimp only
  have consistent := counts_agree ev (by rwa [listed, List.length_cons])
  rw [if_neg consistent.1, if_neg consistent.2]
  rw [idField, Outcome.ok_bind, nbIds, resize, List.append_assoc, decodes, Outcome.ok_bind]
  dsimp only
  cases set : ev.hasExplicitCoefs with
  | true =>
    have read := parseCoefs_spelled set inField (front ++ ev.genBlock ++ resize bits (pad32 bits.length)) rest
    rw [List.length_append, List.length_append, frontLength, idLength, ← nbCoefs, List.append_assoc, List.append_assoc,
      buffer] at read
    rw [if_pos (by decide), read, Outcome.ok_bind, ← listed]
    rfl
  | false =>
    have empty : ev.coefficients = [] := by simpa [hasExplicitCoefs] using set
    rw [if_neg (by decide), ← listed, ← empty]
    rfl

end EncodingVector
end Delp
