import Delp.Proofs.VectorRoundTrip
import Delp.Proofs.ParseTotality

/-! What the source and coded formats carry across: parsing undoes serialising, for every size
and alignment that the formats admit. -/

namespace Delp
open Machine Gf

namespace CommonHeader

private theorem few_words {cci : Bytes} (fits : CciFits cci) :
    ∃ words, (words = 0 ∨ words = 1 ∨ words = 2 ∨ words = 3) ∧ cci.length = words * 4 := by
  obtain ⟨aligned, small⟩ := fits
  exact ⟨cci.length / 4, by omega, by omega⟩

theorem new_spells (pktType : PacketType) {cci : Bytes} (fits : CciFits cci) (hasTsi : Bool) (words : UInt8) :
    let header := new pktType (.fromWords (UInt8.ofNat (cci.length / 4))) hasTsi words
    header.version = currentVersion ∧ header.cciWords.toNat * 4 = cci.length ∧ header.hasTsi = hasTsi ∧
      header.packetType = .ok pktType := by
  obtain ⟨count, few, length⟩ := few_words fits
  rw [length, Nat.mul_div_cancel _ (by decide)]
  refine ⟨?_, ?_, ?_, by cases pktType <;> rfl⟩
  all_goals
    simp only [version, CommonHeader.cciWords, CommonHeader.hasTsi, new]
    rcases few with rfl | rfl | rfl | rfl <;> cases hasTsi <;> decide

theorem words_fit (α : Type) {cci : Bytes} (fits : CciFits cci) (hasTsi : Bool) :
    ∃ words : UInt8, words.toNat * 4 = 8 + cci.length + (if hasTsi then 4 else 0) ∧ ∀ next : UInt8 → Result α,
      (do
        let words ← addU8 1 (UInt8.ofNat (cci.length / 4))
        let words ← addU8 words hasTsi.toUInt8
        let words ← addU8 words 1
        next words) = next words := by
  obtain ⟨count, few, length⟩ := few_words fits
  rw [length, Nat.mul_div_cancel _ (by decide)]
  refine ⟨UInt8.ofNat (count + hasTsi.toNat + 2), ?_, fun next => ?_⟩
  all_goals
    rcases few with rfl | rfl | rfl | rfl <;> cases hasTsi <;> rfl

theorem bodyOffset_eq {header : CommonHeader} {cci : Bytes} {tsi : Option UInt32}
    (words : header.cciWords.toNat * 4 = cci.length) (set : header.hasTsi = tsi.isSome) :
    header.bodyOffset = 4 + cci.length + (tsiBytes tsi).length := by
  rw [bodyOffset, words, set]
  cases tsi <;> rfl

end CommonHeader

/-- The bytes of a packet, up to the id that every body starts with. -/
def frontOf (header : CommonHeader) (cci : Bytes) (tsi : Option UInt32) (id : UInt32) : Bytes :=
  header.toBytes ++ cci ++ tsiBytes tsi ++ toBeBytes id

structure Fronts (buf : Bytes) (header : CommonHeader) (cci : Bytes) (tsi : Option UInt32) (body : Bytes) : Prop where
  offset : header.bodyOffset = 4 + cci.length + (tsiBytes tsi).length
  length : buf.length = header.bodyOffset + body.length
  opened : CommonHeader.ofBytes buf = header
  cciAt : header.cciOf buf = cci
  tsiAt : header.sessionId buf = tsi
  bodyAt : buf.drop header.bodyOffset = body

theorem fronts {header : CommonHeader} {cci : Bytes} {tsi : Option UInt32} (words : header.cciWords.toNat * 4 = cci.length)
    (set : header.hasTsi = tsi.isSome) (body : Bytes) :
    Fronts (header.toBytes ++ cci ++ tsiBytes tsi ++ body) header cci tsi body := by
  have four : header.toBytes.length = CommonHeader.size := rfl
  have offset := CommonHeader.bodyOffset_eq words set
  have front : (header.toBytes ++ cci ++ tsiBytes tsi).length = header.bodyOffset := by
    rw [offset, List.length_append, List.length_append]
    rfl
  refine ⟨offset, by rw [List.length_append, front], rfl, ?_, ?_, by rw [← front, List.drop_left]⟩
  · rw [CommonHeader.cciOf, words, List.append_assoc, List.append_assoc, ← four, List.drop_left, List.take_left]
  · rw [CommonHeader.sessionId, set, words, ← four, ← List.length_append, List.append_assoc, List.drop_left]
    cases tsi with
    | none => rfl
    | some value => exact congrArg some (fromBeBytes_toBeBytes value body)

theorem frontOf_fronts {header : CommonHeader} {cci : Bytes} {tsi : Option UInt32}
    (words : header.cciWords.toNat * 4 = cci.length) (set : header.hasTsi = tsi.isSome) (id : UInt32) (body : Bytes) :
    Fronts (frontOf header cci tsi id ++ body) header cci tsi (toBeBytes id ++ body) := by
  rw [frontOf, List.append_assoc _ (toBeBytes id)]
  exact fronts words set _

theorem Fronts.opens {buf cci body : Bytes} {header : CommonHeader} {tsi : Option UInt32} (fronts : Fronts buf header cci tsi body)
    (version : header.version = CommonHeader.currentVersion)
    (long : header.hdrLenWords.toNat * 4 ≤ header.bodyOffset + body.length) : CommonHeader.Opens buf := by
  unfold CommonHeader.Opens
  rw [fronts.opened, fronts.length]
  have four : CommonHeader.size ≤ header.bodyOffset := by
    rw [fronts.offset]
    exact Nat.le_add_right_of_le (Nat.le_add_right _ _)
  exact ⟨Nat.le_add_right_of_le four, version, long⟩

theorem SourcePacket.parse_serialise {cci : Bytes} (fits : CciFits cci) (tsi : Option UInt32) (id : UInt32)
    (payload : Bytes) :
    ∃ header, serialise id payload cci tsi = .ok (frontOf header cci tsi id ++ payload) ∧
      parse (frontOf header cci tsi id ++ payload) = .ok ⟨header, cci, tsi, id, payload⟩ := by
  obtain ⟨words, length, counted⟩ := CommonHeader.words_fit Bytes fits tsi.isSome
  obtain ⟨version, cciWords, hasTsi, typed⟩ := CommonHeader.new_spells .source fits tsi.isSome words
  generalize made : CommonHeader.new .source (.fromWords (UInt8.ofNat (cci.length / 4))) tsi.isSome words = header at *
  have announced : header.hdrLenWords = words := by rw [← made]; rfl
  have optional : (tsiBytes tsi).length = if tsi.isSome then 4 else 0 := by cases tsi <;> rfl
  have wrote := frontOf_fronts cciWords hasTsi id payload
  have offset := wrote.offset
  have opens := wrote.opens version (by
    simp only [announced, length, offset, List.length_append, length_toBeBytes, optional]
    omega)
  refine ⟨header, ?_, parse_eq_ok.mpr ⟨⟨opens, ?_, ?_⟩, ?_⟩⟩
  · rw [serialise, Outcome.require_of fits, Outcome.ok_bind]
    dsimp only
    rw [counted, made]
    rfl
  · rw [wrote.opened]
    exact PacketType.fromU8_eq_ok.mp typed
  · rw [wrote.opened, wrote.length, List.length_append, length_toBeBytes]
    omega
  · rw [ofBytes, wrote.opened, wrote.cciAt, wrote.tsiAt, ← List.drop_drop, wrote.bodyAt, fromBeBytes_toBeBytes]
    rfl

theorem SourcePacket.parse_of_serialise {cci payload bytes : Bytes} {tsi : Option UInt32} {id : UInt32}
    (serialised : serialise id payload cci tsi = .ok bytes) : ∃ header, parse bytes = .ok ⟨header, cci, tsi, id, payload⟩ := by
  have fits : CciFits cci := by
    obtain ⟨_, fits, _⟩ := Outcome.bind_eq_ok.mp serialised
    exact Outcome.require_eq_ok.mp fits
  obtain ⟨header, wrote, read⟩ := parse_serialise fits tsi id payload
  cases serialised.symm.trans wrote
  exact ⟨header, read⟩

/-- A coded packet is parsed to the fields it was made of, when its encoding vector is parsed
to itself. -/
theorem CodedPacket.parse_serialise {cci : Bytes} (fits : CciFits cci) (tsi : Option UInt32) (codedId : UInt32)
    {ev : EncodingVector} {vector : Bytes} (payload : Bytes) (serialised : ev.serialise = .ok vector)
    (aligned : vector.length % 4 = 0) (nonempty : 0 < vector.length) (short : vector.length ≤ 776)
    (spelled : EncodingVector.parse (vector ++ payload) codedId = .ok ({ ev with codedId := codedId }, vector.length)) :
    ∃ header, serialise codedId ev payload cci tsi = .ok (frontOf header cci tsi codedId ++ vector ++ payload) ∧
      (frontOf header cci tsi codedId).length = header.bodyOffset + 4 ∧
      parse (frontOf header cci tsi codedId ++ vector ++ payload) =
        .ok ⟨header, cci, tsi, codedId, { ev with codedId := codedId }, payload⟩ := by
  obtain ⟨words, length, counted⟩ := CommonHeader.words_fit Bytes fits tsi.isSome
  have optional : (tsiBytes tsi).length = if tsi.isSome then 4 else 0 := by cases tsi <;> rfl
  have room := fits.2
  have atMost : (tsiBytes tsi).length ≤ 4 := by
    rw [optional]
    split <;> omega
  have evWords : (UInt8.ofNat ((vector.length + 3) / 4)).toNat * 4 = vector.length := by
    rw [UInt8.toNat_ofNat']
    omega
  have total : words.toNat + (UInt8.ofNat ((vector.length + 3) / 4)).toNat < 256 := by omega
  obtain ⟨version, cciWords, hasTsi, typed⟩ :=
    CommonHeader.new_spells .coded fits tsi.isSome (words + UInt8.ofNat ((vector.length + 3) / 4))
  generalize made : CommonHeader.new .coded (.fromWords (UInt8.ofNat (cci.length / 4))) tsi.isSome
    (words + UInt8.ofNat ((vector.length + 3) / 4)) = header at *
  have announced : header.hdrLenWords.toNat * 4 = words.toNat * 4 + vector.length := by
    have field : header.hdrLenWords = words + UInt8.ofNat ((vector.length + 3) / 4) := by rw [← made]; rfl
    rw [field, UInt8.toNat_add, Nat.mod_eq_of_lt total, Nat.add_mul, evWords]
  have wrote := frontOf_fronts cciWords hasTsi codedId (vector ++ payload)
  have offset := wrote.offset
  have opens := wrote.opens version (by
    simp only [announced, length, offset, List.length_append, length_toBeBytes, optional]
    omega)
  have front : (frontOf header cci tsi codedId).length = header.bodyOffset + 4 := by
    simp only [frontOf, List.length_append, length_toBeBytes, offset]
    rfl
  refine ⟨header, ?_, front, ?_⟩
  · rw [serialise, Outcome.require_of fits, Outcome.ok_bind, serialised, Outcome.ok_bind]
    dsimp only
    rw [counted, addU8_eq_ok.mpr ⟨total, rfl⟩, Outcome.ok_bind, made, show (4 - vector.length % 4) % 4 = 0 by omega]
    simp only [List.replicate_zero, List.append_nil, frontOf, List.append_assoc, Outcome.pure_def]
  have body : (frontOf header cci tsi codedId ++ (vector ++ payload)).drop (header.bodyOffset + 4) = vector ++ payload := by
    rw [← front, List.drop_left]
  have whole : (frontOf header cci tsi codedId ++ (vector ++ payload)).length =
      header.bodyOffset + 4 + (vector.length + payload.length) := by
    rw [List.length_append, List.length_append, front]
  rw [List.append_assoc]
  refine parse_eq_ok.mpr ⟨vector.length, ⟨opens, ?_⟩, ?_, ?_, ?_, ?_, ?_, ?_, ?_, ?_⟩
  · rw [wrote.opened]
    exact PacketType.fromU8_eq_ok.mp typed
  all_goals rw [wrote.opened]
  · omega
  · rw [body]
    exact spelled
  · omega
  · exact wrote.cciAt.symm
  · exact wrote.tsiAt.symm
  · rw [wrote.bodyAt, fromBeBytes_toBeBytes]
  · rw [← List.drop_drop, body, List.drop_left]

inductive EncodingVector.Built (field : Config.Field) (ids : List UInt32) : Bytes → EncodingVector → Prop
  | vandermonde {codedId : UInt32} {ev : EncodingVector} (built : EncodingVector.vandermonde field codedId ids = .ok ev) :
      Built field ids [] ev
  | explicit {codedId : UInt32} {coefs : Bytes} {ev : EncodingVector}
      (built : EncodingVector.explicit field codedId ids coefs = .ok ev) : Built field ids coefs ev
  | withGeneration {coefs : Bytes} {ev : EncodingVector} (generation : UInt8) (base : Built field ids coefs ev) :
      Built field ids coefs (ev.withGeneration generation)

theorem EncodingVector.Built.shape {field : Config.Field} {ids : List UInt32} {coefs : Bytes} {ev : EncodingVector}
    (built : Built field ids coefs ev) :
    ev.field = field ∧ ev.sourceIds = ids ∧ ev.coefficients = coefs ∧ (coefs = [] ∨ coefs.length = ids.length) ∧
      IdStorage.bestFor ids = .ok ev.idFormat := by
  induction built with
  | vandermonde built =>
    obtain ⟨format, chosen, same⟩ := Outcome.bind_eq_ok.mp built
    cases same
    exact ⟨rfl, rfl, rfl, .inl rfl, chosen⟩
  | explicit built =>
    obtain ⟨_, counted, built⟩ := Outcome.bind_eq_ok.mp built
    obtain ⟨format, chosen, same⟩ := Outcome.bind_eq_ok.mp built
    cases same
    exact ⟨rfl, rfl, rfl, .inr (Outcome.require_eq_ok.mp counted).symm, chosen⟩
  | withGeneration generation _ ih => exact ih

theorem EncodingVector.Built.spelled {field : Config.Field} {ids : List UInt32} {coefs : Bytes} {ev : EncodingVector}
    (built : Built field ids coefs ev) (count : 1 ≤ ids.length ∧ ids.length ≤ 255) (spaced : IdStorage.Spaced ids)
    (inField : ∀ c ∈ coefs, InField field c) (codedId : UInt32) :
    ∃ bytes, ev.serialise = .ok bytes ∧ bytes.length % 4 = 0 ∧ 8 ≤ bytes.length ∧ bytes.length ≤ 776 ∧
      ∀ rest, EncodingVector.parse (bytes ++ rest) codedId = .ok ({ ev with codedId := codedId }, bytes.length) := by
  obtain ⟨rfl, rfl, rfl, sized, format⟩ := built.shape
  obtain ⟨first, ids, listed⟩ := List.exists_cons_of_length_pos count.1
  rw [listed] at spaced format sized
  refine EncodingVector.parse_serialise { ev with codedId := codedId } listed spaced ?_ format sized inField
  rw [listed, List.length_cons] at count
  omega

/-- Parsing undoes serialising over both data formats. -/
theorem packets_round_trip {cci : Bytes} (fits : CciFits cci) (tsi : Option UInt32) :
    (∀ id payload, ∃ header bytes, SourcePacket.serialise id payload cci tsi = .ok bytes ∧
      SourcePacket.parse bytes = .ok ⟨header, cci, tsi, id, payload⟩) ∧
    ∀ field ids, 1 ≤ ids.length ∧ ids.length ≤ 255 → IdStorage.Spaced ids →
      (∀ codedId, ∃ ev, EncodingVector.vandermonde field codedId ids = .ok ev) ∧
      (∀ codedId coefs, coefs.length = ids.length → ∃ ev, EncodingVector.explicit field codedId ids coefs = .ok ev) ∧
      ∀ coefs ev, EncodingVector.Built field ids coefs ev → (∀ c ∈ coefs, InField field c) → ∀ codedId payload,
        ∃ header front vector, ev.serialise = .ok vector ∧ front.length = header.bodyOffset + 4 ∧
          CodedPacket.serialise codedId ev payload cci tsi = .ok (front ++ vector ++ payload) ∧
          CodedPacket.parse (front ++ vector ++ payload) = .ok ⟨header, cci, tsi, codedId,
            { ev with codedId := codedId, field := field, sourceIds := ids, coefficients := coefs }, payload⟩ := by
  refine ⟨fun id payload => ?_, fun field ids count spaced => ⟨fun codedId => ?_, fun codedId coefs sized => ?_, ?_⟩⟩
  · obtain ⟨header, serialised, parsed⟩ := SourcePacket.parse_serialise fits tsi id payload
    exact ⟨header, _, serialised, parsed⟩
  · obtain ⟨format, chosen⟩ := IdStorage.bestFor_of spaced
    rw [EncodingVector.vandermonde, chosen]
    exact ⟨_, rfl⟩
  · obtain ⟨format, chosen⟩ := IdStorage.bestFor_of spaced
    rw [EncodingVector.explicit, Outcome.require_of sized.symm, Outcome.ok_bind, chosen]
    exact ⟨_, rfl⟩
  · intro coefs ev built inField codedId payload
    obtain ⟨vector, serialised, aligned, nonempty, short, spelled⟩ := built.spelled count spaced inField codedId
    obtain ⟨rfl, rfl, rfl, _⟩ := built.shape
    obtain ⟨header, written, front, parsed⟩ :=
      CodedPacket.parse_serialise fits tsi codedId payload serialised aligned (by omega) short (spelled payload)
    exact ⟨header, _, vector, serialised, front, written, parsed⟩

theorem packets_round_trip_gap :
    ∃ ev header front vector, EncodingVector.explicit .gf2_4 6 [3, 4, 9] [1, 2, 15] = .ok ev ∧
      (ev.withGeneration 2).serialise = .ok vector ∧ front.length = header.bodyOffset + 4 ∧
      CodedPacket.serialise 6 (ev.withGeneration 2) [42] [1, 2, 3, 4] (some 7) = .ok (front ++ vector ++ [42]) ∧
      CodedPacket.parse (front ++ vector ++ [42]) = .ok ⟨header, [1, 2, 3, 4], some 7, 6,
        { ev with codedId := 6, generation := 2, field := .gf2_4, sourceIds := [3, 4, 9], coefficients := [1, 2, 15] }, [42]⟩ := by
  obtain ⟨_, explicits, spelled⟩ := (packets_round_trip (show CciFits [1, 2, 3, 4] by decide) (some 7)).2 .gf2_4 [3, 4, 9]
    (by decide) (by decide)
  obtain ⟨ev, built⟩ := explicits 6 [1, 2, 15] rfl
  obtain ⟨header, front, vector, packet⟩ := spelled [1, 2, 15] (ev.withGeneration 2) (.withGeneration 2 (.explicit built))
    (fun c member => of_decide_eq_true (List.all_eq_true.mp (show [1, 2, 15].all (InField .gf2_4 ·) = true by decide) c member)) 6 [42]
  exact ⟨ev, header, front, vector, built, packet⟩

end Delp
