import Delp.Wire.Packet

/-! Where the parsers of the three packet kinds look: each field of an accepted packet as a function
of the buffer. -/

namespace Delp
open Machine

namespace CommonHeader

def ofBytes (buf : Bytes) : CommonHeader := ⟨buf.getD 0 0, buf.getD 1 0, buf.getD 2 0, buf.getD 3 0⟩

/-- A buffer that starts with a header of the current version, and is as long as it says. -/
def Opens (buf : Bytes) : Prop :=
  size ≤ buf.length ∧ (ofBytes buf).version = currentVersion ∧ (ofBytes buf).hdrLenWords.toNat * 4 ≤ buf.length

theorem parse_eq (buf : Bytes) :
    Opens buf ∧ parse buf = .ok (ofBytes buf) ∨ ¬ Opens buf ∧ ∃ error, parse buf = .err error := by
  unfold parse Opens
  split
  next short => exact .inr ⟨fun opens => by omega, _, rfl⟩
  next long =>
    have long : 4 ≤ buf.length := Nat.le_of_not_gt long
    rw [index_of (show 0 < buf.length by omega), Outcome.ok_bind, index_of (show 1 < buf.length by omega), Outcome.ok_bind,
      index_of (show 2 < buf.length by omega), Outcome.ok_bind, index_of (show 3 < buf.length by omega), Outcome.ok_bind]
    dsimp only
    split
    next other => exact .inr ⟨fun opens => other opens.2.1, _, rfl⟩
    next version =>
      split
      next large => exact .inr ⟨fun opens => absurd opens.2.2 (Nat.not_le_of_gt large), _, rfl⟩
      next fits => exact .inl ⟨⟨long, not_not.mp version, Nat.le_of_not_gt fits⟩, rfl⟩

theorem parse_of {buf : Bytes} (opens : Opens buf) : parse buf = .ok (ofBytes buf) := by
  rcases parse_eq buf with ⟨_, parsed⟩ | ⟨closed, _⟩
  · exact parsed
  · exact absurd opens closed

theorem parse_ok {buf : Bytes} {header : CommonHeader} (parsed : parse buf = .ok header) :
    Opens buf ∧ header = ofBytes buf := by
  rcases parse_eq buf with ⟨opens, same⟩ | ⟨_, _, refused⟩
  · exact ⟨opens, Outcome.ok.inj (parsed.symm.trans same)⟩
  · rw [refused] at parsed
    cases parsed

theorem parse_returns (buf : Bytes) : (parse buf).Returns := by
  rcases parse_eq buf with ⟨_, parsed⟩ | ⟨_, _, refused⟩
  · simp [parsed]
  · simp [refused]

def cciOf (header : CommonHeader) (buf : Bytes) : Bytes := (buf.drop size).take (header.cciWords.toNat * 4)

/-- The word behind the congestion control words, when the flags announce a session id. -/
def sessionId (header : CommonHeader) (buf : Bytes) : Option UInt32 :=
  if header.hasTsi then some (fromBeBytes (buf.drop (size + header.cciWords.toNat * 4))) else none

theorem readTsi_of (α : Type) {header : CommonHeader} {buf : Bytes} (room : header.bodyOffset ≤ buf.length)
    (next : Option UInt32 × ℕ → Result α) :
    (if header.hasTsi = true then do
        let v ← readU32 buf (size + header.cciWords.toNat * 4)
        let read ← pure (some v, size + header.cciWords.toNat * 4 + 4)
        next read
      else do
        let read ← pure (none, size + header.cciWords.toNat * 4)
        next read) = next (header.sessionId buf, header.bodyOffset) := by
  unfold bodyOffset at room
  unfold sessionId bodyOffset
  split
  next set =>
    rw [if_pos set] at room
    rw [readU32_of room]
    rfl
  next => rfl

theorem bodyOffset_le (header : CommonHeader) : size + header.cciWords.toNat * 4 ≤ header.bodyOffset := Nat.le_add_right _ _

end CommonHeader

namespace PacketType

theorem fromU8_eq_ok {byte : UInt8} {kind : PacketType} : (fromU8 byte = .ok kind) ↔ byte = kind.toU8 := by
  unfold fromU8
  split
  next zero => subst zero; cases kind <;> decide
  split
  next one => subst one; cases kind <;> decide
  split
  next two => subst two; cases kind <;> decide
  next zero one two => exact ⟨(fun impossible => nomatch impossible), fun same => by cases kind <;> exact absurd same ‹_›⟩

theorem toU8_inj {kind other : PacketType} (same : kind.toU8 = other.toU8) : kind = other := by
  cases kind <;> cases other <;> first | rfl | exact absurd same (by decide)

theorem fromU8_returns (byte : UInt8) : (fromU8 byte).Returns := by
  unfold fromU8
  split
  · exact Outcome.returns_ok _
  split
  · exact Outcome.returns_ok _
  split
  · exact Outcome.returns_ok _
  · exact Outcome.returns_err _

end PacketType

theorem parseTyped_eq (α : Type) (kind : PacketType) (buf : Bytes) (next : CommonHeader → Result α) :
    let outcome : Result α := do
      let header ← CommonHeader.parse buf
      let pktType ← header.packetType
      if pktType ≠ kind then do
        let byte ← index buf 3
        .err (.unknownPacketType byte)
      else next header
    (CommonHeader.Opens buf ∧ (CommonHeader.ofBytes buf).pktType = kind.toU8) ∧ outcome = next (.ofBytes buf) ∨
      ¬ (CommonHeader.Opens buf ∧ (CommonHeader.ofBytes buf).pktType = kind.toU8) ∧ ∃ error, outcome = .err error := by
  dsimp only
  rcases CommonHeader.parse_eq buf with ⟨opens, parsed⟩ | ⟨closed, error, refused⟩
  swap
  · rw [refused]
    exact .inr ⟨fun both => closed both.1, error, rfl⟩
  rw [parsed, Outcome.ok_bind]
  cases typed : (CommonHeader.ofBytes buf).packetType with
  | ok pktType =>
    have byte := PacketType.fromU8_eq_ok.mp typed
    rw [Outcome.ok_bind]
    split
    next other =>
      rw [index_of (show 3 < buf.length from opens.1), Outcome.ok_bind]
      exact .inr ⟨fun both => other (PacketType.toU8_inj (byte.symm.trans both.2)), _, rfl⟩
    next same =>
      obtain rfl := not_not.mp same
      exact .inl ⟨⟨opens, byte⟩, rfl⟩
  | err error =>
    refine .inr ⟨fun both => ?_, error, rfl⟩
    cases typed.symm.trans (PacketType.fromU8_eq_ok.mpr both.2)
  | panic reason => exact absurd typed (PacketType.fromU8_returns _ reason)

namespace SourcePacket

def ofBytes (buf : Bytes) : SourcePacket where
  header := .ofBytes buf
  cci := (CommonHeader.ofBytes buf).cciOf buf
  tsi := (CommonHeader.ofBytes buf).sessionId buf
  sourceSymbolId := fromBeBytes (buf.drop (CommonHeader.ofBytes buf).bodyOffset)
  payload := buf.drop ((CommonHeader.ofBytes buf).bodyOffset + 4)

structure Holds (buf : Bytes) : Prop where
  opens : CommonHeader.Opens buf
  typed : (CommonHeader.ofBytes buf).pktType = PacketType.source.toU8
  long : (CommonHeader.ofBytes buf).bodyOffset + 4 ≤ buf.length

theorem parse_cases (buf : Bytes) :
    Holds buf ∧ parse buf = .ok (ofBytes buf) ∨ ¬ Holds buf ∧ ∃ error, parse buf = .err error := by
  unfold parse
  rcases parseTyped_eq _ .source buf _ with ⟨⟨opens, typed⟩, goes⟩ | ⟨other, error, refused⟩
  swap
  · exact .inr ⟨fun holds => other ⟨holds.opens, holds.typed⟩, error, refused⟩
  rw [goes]
  dsimp only
  split
  next short => exact .inr ⟨fun holds => absurd holds.long (Nat.not_le.mpr short), _, rfl⟩
  next long =>
    have long : (CommonHeader.ofBytes buf).bodyOffset + 4 ≤ buf.length := Nat.le_of_not_gt long
    have before := (CommonHeader.ofBytes buf).bodyOffset_le
    rw [slice_of (Nat.le_add_right _ _) (by omega), Outcome.ok_bind, CommonHeader.readTsi_of _ (by omega)]
    dsimp only
    rw [readU32_of long, Outcome.ok_bind, sliceFrom_of long, Outcome.ok_bind, Nat.add_sub_cancel_left]
    exact .inl ⟨⟨opens, typed, long⟩, rfl⟩

theorem parse_eq_ok {buf : Bytes} {packet : SourcePacket} : parse buf = .ok packet ↔ Holds buf ∧ packet = ofBytes buf := by
  rcases parse_cases buf with ⟨holds, parsed⟩ | ⟨other, error, refused⟩
  · rw [parsed, Outcome.ok.injEq, and_iff_right holds, eq_comm]
  · rw [refused]
    exact iff_of_false (fun impossible => by cases impossible) fun both => other both.1

theorem parse_returns (buf : Bytes) : (parse buf).Returns := by
  rcases parse_cases buf with ⟨_, parsed⟩ | ⟨_, error, refused⟩
  · rw [parsed]
    exact Outcome.returns_ok _
  · rw [refused]
    exact Outcome.returns_err _

end SourcePacket

namespace FeedbackPacket

def ofBytes (buf : Bytes) : FeedbackPacket :=
  let header := CommonHeader.ofBytes buf
  let off := header.bodyOffset
  { tsi := if header.hasTsi then some (fromBeBytes (buf.drop CommonHeader.size)) else none
    nbMissingSrc := fromBeBytes (buf.drop off)
    nbNotUsedCoded := fromBeBytes (buf.drop (off + 4))
    firstSrcId := fromBeBytes (buf.drop (off + 8))
    plrRaw := buf.getD (off + 12) 0
    sack := (buf.drop (off + 16)).take (buf.getD (off + 13) 0).toNat }

/-- Long enough for a feedback body and for the SACK that it announces. -/
def Holds (buf : Bytes) : Prop :=
  let off := (CommonHeader.ofBytes buf).bodyOffset
  CommonHeader.Opens buf ∧ off + 16 ≤ buf.length ∧ off + 16 + (buf.getD (off + 13) 0).toNat ≤ buf.length

theorem parse_cases (buf : Bytes) :
    Holds buf ∧ parse buf = .ok (ofBytes buf) ∨ ¬ Holds buf ∧ ∃ error, parse buf = .err error := by
  unfold parse
  rcases CommonHeader.parse_eq buf with ⟨opens, parsed⟩ | ⟨closed, error, refused⟩
  swap
  · rw [refused]
    exact .inr ⟨fun holds => closed holds.1, error, rfl⟩
  rw [parsed, Outcome.ok_bind]
  dsimp only
  split
  next short => exact .inr ⟨fun holds => absurd holds.2.1 (Nat.not_le.mpr short), _, rfl⟩
  next long =>
    have long : (CommonHeader.ofBytes buf).bodyOffset + 16 ≤ buf.length := Nat.le_of_not_gt long
    have tsi (next : Option UInt32 → Result FeedbackPacket) : (if (CommonHeader.ofBytes buf).hasTsi = true then do
          let t ← readU32 buf CommonHeader.size
          let read ← pure (some t)
          next read
        else do
          let read ← pure none
          next read) = next (ofBytes buf).tsi := by
      unfold ofBytes
      dsimp only
      split
      next set =>
        have offset : CommonHeader.size + 4 ≤ (CommonHeader.ofBytes buf).bodyOffset := by
          rw [CommonHeader.bodyOffset, if_pos set]
          omega
        rw [readU32_of (by omega)]
        rfl
      next => rfl
    rw [tsi, readU32_of (by omega), Outcome.ok_bind, readU32_of (by omega), Outcome.ok_bind,
      readU32_of (by omega), Outcome.ok_bind, index_of (by omega), Outcome.ok_bind, index_of (by omega), Outcome.ok_bind]
    split
    next cut => exact .inr ⟨fun holds => absurd holds.2.2 (Nat.not_le.mpr cut), _, rfl⟩
    next whole =>
      have whole := Nat.le_of_not_gt whole
      rw [slice_of (Nat.le_add_right _ _) whole, Outcome.ok_bind, Nat.add_sub_cancel_left]
      exact .inl ⟨⟨opens, long, whole⟩, rfl⟩

theorem parse_eq_ok {buf : Bytes} {packet : FeedbackPacket} : parse buf = .ok packet ↔ Holds buf ∧ packet = ofBytes buf := by
  rcases parse_cases buf with ⟨holds, parsed⟩ | ⟨other, error, refused⟩
  · rw [parsed, Outcome.ok.injEq, and_iff_right holds, eq_comm]
  · rw [refused]
    exact iff_of_false (fun impossible => by cases impossible) fun both => other both.1

theorem parse_ok_iff (buf : Bytes) : (∃ packet, parse buf = .ok packet) ↔ Holds buf := by
  simp only [parse_eq_ok, exists_and_left, exists_eq, and_true]

theorem parse_returns (buf : Bytes) : (parse buf).Returns := by
  rcases parse_cases buf with ⟨_, parsed⟩ | ⟨_, error, refused⟩
  · rw [parsed]
    exact Outcome.returns_ok _
  · rw [refused]
    exact Outcome.returns_err _

end FeedbackPacket

namespace CodedPacket

/-- What follows the header of a coded packet: its id, its encoding vector and the rest as payload. -/
def parseBody (buf : Bytes) : Result CodedPacket := do
  let header := CommonHeader.ofBytes buf
  let off := header.bodyOffset
  if buf.length < off + codedIdSize then .err (.bufferTooShort (off + codedIdSize) buf.length)
  else if buf.length ≤ off + 4 then .err (.bufferTooShort (off + 4 + 1) buf.length)
  else do
    let codedSymbolId := fromBeBytes (buf.drop off)
    let vector ← EncodingVector.parse (buf.drop (off + 4)) codedSymbolId
    let payload ← sliceFrom buf (off + 4 + vector.2)
    pure { header, cci := header.cciOf buf, tsi := header.sessionId buf, codedSymbolId, ev := vector.1, payload }

def Opens (buf : Bytes) : Prop :=
  CommonHeader.Opens buf ∧ (CommonHeader.ofBytes buf).pktType = PacketType.coded.toU8

theorem parse_refused {buf : Bytes} (other : ¬ Opens buf) : ∃ error, parse buf = .err error := by
  unfold parse
  rcases parseTyped_eq _ .coded buf _ with ⟨opens, _⟩ | ⟨_, refused⟩
  · exact absurd opens other
  · exact refused

theorem parse_of {buf : Bytes} (opens : Opens buf) (room : (CommonHeader.ofBytes buf).bodyOffset ≤ buf.length) :
    parse buf = parseBody buf := by
  unfold parse
  rcases parseTyped_eq _ .coded buf _ with ⟨_, goes⟩ | ⟨other, _⟩
  swap
  · exact absurd opens other
  rw [goes]
  dsimp only
  have before := (CommonHeader.ofBytes buf).bodyOffset_le
  rw [slice_of (Nat.le_add_right _ _) (by omega), Outcome.ok_bind, CommonHeader.readTsi_of _ room, Nat.add_sub_cancel_left]
  unfold parseBody
  dsimp only
  refine if_ctx_congr Iff.rfl (fun _ => rfl) fun long => ?_
  rw [readU32_of (Nat.le_of_not_gt long), Outcome.ok_bind]
  refine if_ctx_congr Iff.rfl (fun _ => rfl) fun some => ?_
  rw [sliceFrom_of (Nat.le_of_not_ge some), Outcome.ok_bind]
  rfl

/-- The announced words are sliced before the length of the buffer is checked. -/
theorem parse_stuck {buf : Bytes} (opens : Opens buf) (cut : ¬ (CommonHeader.ofBytes buf).bodyOffset ≤ buf.length) :
    ¬ (parse buf).Returns := by
  unfold parse
  rcases parseTyped_eq _ .coded buf _ with ⟨_, goes⟩ | ⟨other, _⟩
  swap
  · exact absurd opens other
  rw [goes]
  dsimp only
  intro returns
  obtain ⟨sliced, returns⟩ := Outcome.returns_bind.mp returns
  rw [returns_slice] at sliced
  have returns := returns _ (slice_of sliced.1 sliced.2)
  unfold CommonHeader.bodyOffset at cut
  split at returns
  next set =>
    rw [if_pos set] at cut
    exact cut (returns_readU32.mp (Outcome.returns_bind.mp returns).1)
  next unset =>
    rw [if_neg unset] at cut
    exact cut sliced.2

structure Spells (buf : Bytes) (packet : CodedPacket) (consumed : ℕ) : Prop where
  opens : Opens buf
  long : (CommonHeader.ofBytes buf).bodyOffset + 4 < buf.length
  vector : EncodingVector.parse (buf.drop ((CommonHeader.ofBytes buf).bodyOffset + 4)) packet.codedSymbolId = .ok (packet.ev, consumed)
  inside : (CommonHeader.ofBytes buf).bodyOffset + 4 + consumed ≤ buf.length
  header : packet.header = .ofBytes buf
  cci : packet.cci = (CommonHeader.ofBytes buf).cciOf buf
  tsi : packet.tsi = (CommonHeader.ofBytes buf).sessionId buf
  id : packet.codedSymbolId = fromBeBytes (buf.drop (CommonHeader.ofBytes buf).bodyOffset)
  payload : packet.payload = buf.drop ((CommonHeader.ofBytes buf).bodyOffset + 4 + consumed)

theorem parse_eq_ok {buf : Bytes} {packet : CodedPacket} : parse buf = .ok packet ↔ ∃ consumed, Spells buf packet consumed := by
  constructor
  · intro parsed
    have opens : Opens buf := by
      by_contra other
      obtain ⟨_, refused⟩ := parse_refused other
      cases parsed.symm.trans refused
    have room : (CommonHeader.ofBytes buf).bodyOffset ≤ buf.length := by
      by_contra cut
      refine parse_stuck opens cut ?_
      rw [parsed]
      exact Outcome.returns_ok _
    rw [parse_of opens room] at parsed
    unfold parseBody at parsed
    dsimp only at parsed
    split at parsed
    · cases parsed
    split at parsed
    · cases parsed
    next long =>
      obtain ⟨vector, read, parsed⟩ := Outcome.bind_eq_ok.mp parsed
      obtain ⟨payload, cut, parsed⟩ := Outcome.bind_eq_ok.mp parsed
      obtain ⟨inside, rfl⟩ := sliceFrom_eq_ok.mp cut
      cases parsed
      exact ⟨vector.2, opens, Nat.lt_of_not_le long, read, inside, rfl, rfl, rfl, rfl, rfl⟩
  · rintro ⟨consumed, spells⟩
    have long := spells.long
    rw [parse_of spells.opens (by omega)]
    unfold parseBody codedIdSize
    dsimp only
    rw [if_neg (by omega), if_neg (by omega), ← spells.id, spells.vector, Outcome.ok_bind, sliceFrom_of spells.inside,
      Outcome.ok_bind, ← spells.cci, ← spells.tsi, ← spells.payload, ← spells.header]
    rfl

end CodedPacket
end Delp
