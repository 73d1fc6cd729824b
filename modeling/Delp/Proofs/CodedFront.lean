import Delp.Proofs.PacketRoundTrip

/-! What a coded packet carries across whatever its size: with more than 255 ids or too wide a gap
the rest may be misread, but a list that is not empty starts with the right id. -/

namespace Delp
open Machine

theorem IdStorage.decode_head {buf : Bytes} {nbIds : ℕ} {firstSrcId : UInt32} {format : IdStorageFormat}
    (chosen : format = .none ∨ format = .compressedList) {ids : List UInt32} {consumed : ℕ}
    (decoded : decode buf nbIds firstSrcId format = .ok (ids, consumed)) : ∀ id ∈ ids.head?, id = firstSrcId := by
  intro id head
  rcases chosen with rfl | rfl
  · obtain ⟨listed, counted, same⟩ := Outcome.bind_eq_ok.mp decoded
    cases same
    unfold decodeNone at counted
    generalize (UInt32.ofNat nbIds).toNat = number at counted
    cases number with
    | zero =>
      cases counted
      cases head
    | succ count =>
      rw [List.range_succ_eq_map, List.mapM_cons] at counted
      obtain ⟨first, added, counted⟩ := Outcome.bind_eq_ok.mp counted
      obtain ⟨rest, _, counted⟩ := Outcome.bind_eq_ok.mp counted
      cases counted
      cases head
      exact (addU32_eq_ok.mp added).2.trans (UInt32.add_zero firstSrcId)
  · unfold decode decodeCompressedList at decoded
    dsimp only at decoded
    split at decoded
    · cases decoded
      exact (Option.some.inj head).symm
    · obtain ⟨deltas, _, decoded⟩ := Outcome.bind_eq_ok.mp decoded
      split at decoded
      · cases decoded
      · obtain ⟨⟨rest, reader⟩, _, decoded⟩ := Outcome.bind_eq_ok.mp decoded
        cases decoded
        exact (Option.some.inj head).symm

theorem IdStorage.bestFor_cases {ids : List UInt32} {format : IdStorageFormat} (chosen : bestFor ids = .ok format) :
    format = .none ∨ format = .compressedList := by
  unfold bestFor at chosen
  split at chosen
  · cases chosen
    exact .inl rfl
  · obtain ⟨contiguous, _, chosen⟩ := Outcome.bind_eq_ok.mp chosen
    cases chosen
    cases contiguous with
    | true => exact .inl rfl
    | false => exact .inr rfl

theorem EncodingVector.serialise_front {ev : EncodingVector} {vector : Bytes} (serialised : ev.serialise = .ok vector) :
    ∃ size tail, vector = size :: ev.flagByte :: ev.nbIds :: ev.nbCoefs :: (toBeBytes (ev.sourceIds.head?.getD 0) ++ tail) := by
  obtain ⟨bits, _, serialised⟩ := Outcome.bind_eq_ok.mp serialised
  cases serialised
  simp only [List.cons_append, List.nil_append, List.append_assoc]
  exact ⟨_, _, rfl⟩

theorem CodedPacket.serialise_front {codedId : UInt32} {ev : EncodingVector} {payload cci bytes : Bytes} {tsi : Option UInt32}
    (serialised : serialise codedId ev payload cci tsi = .ok bytes) :
    ∃ header vector rest, ev.serialise = .ok vector ∧ bytes = frontOf header cci tsi codedId ++ (vector ++ rest) ∧
      (frontOf header cci tsi codedId).length = header.bodyOffset + 4 := by
  obtain ⟨_, fits, serialised⟩ := Outcome.bind_eq_ok.mp serialised
  obtain ⟨vector, written, serialised⟩ := Outcome.bind_eq_ok.mp serialised
  obtain ⟨_, _, serialised⟩ := Outcome.bind_eq_ok.mp serialised
  obtain ⟨_, _, serialised⟩ := Outcome.bind_eq_ok.mp serialised
  obtain ⟨_, _, serialised⟩ := Outcome.bind_eq_ok.mp serialised
  obtain ⟨words, _, serialised⟩ := Outcome.bind_eq_ok.mp serialised
  obtain ⟨_, cciWords, hasTsi, _⟩ := CommonHeader.new_spells .coded (Outcome.require_eq_ok.mp fits) tsi.isSome words
  generalize CommonHeader.new .coded (.fromWords (UInt8.ofNat (cci.length / 4))) tsi.isSome words = header at *
  have whole := (frontOf_fronts cciWords hasTsi codedId []).length
  rw [List.append_nil, List.append_nil, length_toBeBytes] at whole
  refine ⟨header, vector, List.replicate ((4 - vector.length % 4) % 4) 0 ++ payload, written, ?_, whole⟩
  cases serialised
  simp only [frontOf, List.append_assoc]

/-- Whatever else becomes of it on the way, a coded packet that is parsed and lists ids starts
with the first id that was serialised. -/
theorem CodedPacket.first_of_serialise {codedId : UInt32} {ev : EncodingVector} {payload cci bytes : Bytes} {tsi : Option UInt32}
    (serialised : serialise codedId ev payload cci tsi = .ok bytes) (format : ev.idFormat = .none ∨ ev.idFormat = .compressedList)
    {packet : CodedPacket} (parsed : parse bytes = .ok packet) :
    ∀ id ∈ packet.ev.sourceIds.head?, id = ev.sourceIds.head?.getD 0 := by
  obtain ⟨header, vector, rest, written, rfl, front⟩ := serialise_front serialised
  obtain ⟨size, tail, rfl⟩ := EncodingVector.serialise_front written
  obtain ⟨consumed, _, parses, _⟩ := parse_ok parsed
  obtain ⟨_, decoded, _⟩ := parses.ids
  have opened : CommonHeader.ofBytes (frontOf header cci tsi codedId ++ ((size :: ev.flagByte :: ev.nbIds :: ev.nbCoefs ::
      (toBeBytes (ev.sourceIds.head?.getD 0) ++ tail)) ++ rest)) = header := rfl
  rw [opened, ← front, List.drop_left] at decoded
  simp only [List.cons_append, List.getD_cons_succ, List.getD_cons_zero, List.drop_succ_cons, List.drop_zero, List.append_assoc,
    fromBeBytes_toBeBytes, (EncodingVector.flagByte_spells ev).2.1] at decoded
  exact IdStorage.decode_head format decoded

end Delp
