import Delp.Proofs.DecodeIds
import Delp.Proofs.PacketFields

/-! Which byte buffers the parsers survive: every source and feedback packet, and a coded packet
whose announced lengths agree with one another. -/

namespace Delp
open Machine

namespace EncodingVector

def bodyStart (flags : UInt8) : ℕ := if flags &&& 0x1 = 1 then 12 else 8

/-- What has to hold of an encoding vector that passes the checks made first: its length
covers the part that is always there, and its ids can be told. -/
def Readable (buf : Bytes) : Prop :=
  let evBytes := (buf.getD 0 0).toNat * 4
  let flags := buf.getD 1 0
  let nbIds := buf.getD 2 0
  let nbCoefs := buf.getD 3 0
  8 ≤ buf.length → evBytes ≤ buf.length → (flags >>> 4) &&& 0xF = 0 ∨ (flags >>> 4) &&& 0xF = 1 →
    ((flags >>> 1) &&& 0x1 = 0 → nbCoefs = 0) → ((flags >>> 1) &&& 0x1 = 1 → nbCoefs = nbIds) →
    bodyStart flags ≤ buf.length →
    bodyStart flags ≤ evBytes ∧
      IdStorage.Fits ((buf.drop (bodyStart flags)).take (evBytes - bodyStart flags)) nbIds.toNat
        (fromBeBytes (buf.drop 4)) (.fromWire ((flags >>> 2) &&& 0x3))

theorem fieldOfCcgi_cases (ccgi : UInt8) :
    (∃ field, fieldOfCcgi ccgi = .ok field) ∧ (ccgi = 0 ∨ ccgi = 1) ∨
      (∃ error, fieldOfCcgi ccgi = .err error) ∧ ¬ (ccgi = 0 ∨ ccgi = 1) := by
  unfold fieldOfCcgi
  split
  next zero => exact .inl ⟨⟨_, rfl⟩, .inl zero⟩
  split
  next one => exact .inl ⟨⟨_, rfl⟩, .inr one⟩
  next zero one => exact .inr ⟨⟨_, rfl⟩, by simp [zero, one]⟩

theorem parseGeneration_eq {buf : Bytes} (long : 8 ≤ buf.length) (flags : UInt8) :
    bodyStart flags ≤ buf.length ∧ (∃ generation, parseGeneration buf (flags &&& 0x1) = .ok (generation, bodyStart flags)) ∨
      ¬ bodyStart flags ≤ buf.length ∧ ∃ error, parseGeneration buf (flags &&& 0x1) = .err error := by
  unfold parseGeneration bodyStart
  split
  next set =>
    split
    next short => exact .inr ⟨by omega, _, rfl⟩
    next enough =>
      rw [index_of (show 8 < buf.length by omega), Outcome.ok_bind]
      exact .inl ⟨by omega, _, rfl⟩
  next => exact .inl ⟨long, _, rfl⟩

theorem parseCoefs_returns (buf : Bytes) (field : Config.Field) (nbCoefs coefOffset : ℕ) :
    (parseCoefs buf field nbCoefs coefOffset).Returns := by
  cases field with
  | gf2_8 =>
    simp only [parseCoefs]
    split
    · exact Outcome.returns_err _
    · rw [slice_of (Nat.le_add_right _ _) (by omega)]
      exact Outcome.returns_ok _
  | gf2_4 =>
    simp only [parseCoefs]
    split
    · exact Outcome.returns_err _
    · rw [slice_of (Nat.le_add_right _ _) (by omega)]
      exact Outcome.returns_ok _

structure Parses (buf : Bytes) (codedId : UInt32) (ev : EncodingVector) (consumed : ℕ) : Prop where
  coded : ev.codedId = codedId
  length : consumed = (buf.getD 0 0).toNat * 4
  covers : bodyStart (buf.getD 1 0) ≤ consumed ∧ consumed ≤ buf.length
  field : fieldOfCcgi ((buf.getD 1 0 >>> 4) &&& 0xF) = .ok ev.field
  ids : ∃ idBytes, IdStorage.decode ((buf.drop (bodyStart (buf.getD 1 0))).take (consumed - bodyStart (buf.getD 1 0)))
      (buf.getD 2 0).toNat (fromBeBytes (buf.drop 4)) (.fromWire ((buf.getD 1 0 >>> 2) &&& 0x3)) =
        .ok (ev.sourceIds, idBytes) ∧
    ((buf.getD 1 0 >>> 1) &&& 0x1 ≠ 1 ∧ ev.coefficients = [] ∨
      buf.getD 3 0 = buf.getD 2 0 ∧ parseCoefs buf ev.field (buf.getD 3 0).toNat
        (bodyStart (buf.getD 1 0) + pad32 idBytes) = .ok ev.coefficients)

theorem parse_ok {buf : Bytes} {codedId : UInt32} {ev : EncodingVector} {consumed : ℕ}
    (parsed : parse buf codedId = .ok (ev, consumed)) : Parses buf codedId ev consumed := by
  unfold parse at parsed
  split at parsed
  · cases parsed
  next long =>
    have long : 8 ≤ buf.length := Nat.le_of_not_gt long
    rw [index_of (show 0 < buf.length by omega), Outcome.ok_bind] at parsed
    dsimp only at parsed
    split at parsed
    · cases parsed
    next fits =>
      rw [index_of (show 1 < buf.length by omega), Outcome.ok_bind] at parsed
      obtain ⟨field, known, parsed⟩ := Outcome.bind_eq_ok.mp parsed
      rw [index_of (show 2 < buf.length by omega), Outcome.ok_bind, index_of (show 3 < buf.length by omega),
        Outcome.ok_bind] at parsed
      split at parsed
      · cases parsed
      split at parsed
      · cases parsed
      next all =>
        rw [readU32_of (show 4 + 4 ≤ buf.length by omega), Outcome.ok_bind] at parsed
        rcases parseGeneration_eq long (buf.getD 1 0) with ⟨room, generation, read⟩ | ⟨_, error, refused⟩
        swap
        · rw [refused] at parsed
          cases parsed
        rw [read, Outcome.ok_bind] at parsed
        dsimp only at parsed
        obtain ⟨idField, sliced, parsed⟩ := Outcome.bind_eq_ok.mp parsed
        obtain ⟨covers, rfl⟩ := slice_eq_ok.mp sliced
        obtain ⟨⟨ids, idBytes⟩, decoded, parsed⟩ := Outcome.bind_eq_ok.mp parsed
        split at parsed
        next set =>
          obtain ⟨coefficients, coefs, parsed⟩ := Outcome.bind_eq_ok.mp parsed
          cases parsed
          exact ⟨rfl, rfl, covers, known, idBytes, decoded, .inr ⟨not_not.mp fun few => all ⟨set, few⟩, coefs⟩⟩
        next unset =>
          cases parsed
          exact ⟨rfl, rfl, covers, known, idBytes, decoded, .inl ⟨unset, rfl⟩⟩

private theorem length_unpackNibblesFrom {count : ℕ} {out bytes : Bytes} (enough : count ≤ out.length + 2 * bytes.length) :
    (unpackNibblesFrom count out bytes).length = count := by
  induction bytes generalizing out with
  | nil =>
    rw [unpackNibblesFrom, List.length_take]
    simpa using enough
  | cons byte bytes ih =>
    rw [List.length_cons] at enough
    rw [unpackNibblesFrom]
    refine ih ?_
    split
    · simp only [List.length_append, List.length_singleton]
      omega
    · simp only [List.length_append, List.length_singleton] at *
      omega

private theorem length_parseCoefs {buf coefficients : Bytes} {field : Config.Field} {nbCoefs coefOffset : ℕ}
    (parsed : parseCoefs buf field nbCoefs coefOffset = .ok coefficients) : coefficients.length = nbCoefs := by
  unfold parseCoefs at parsed
  cases field with
  | gf2_8 =>
    dsimp only at parsed
    split at parsed
    · cases parsed
    · obtain ⟨raw, sliced, parsed⟩ := Outcome.bind_eq_ok.mp parsed
      obtain ⟨inside, rfl⟩ := slice_eq_ok.mp sliced
      cases parsed
      rw [List.length_take, List.length_drop]
      omega
  | gf2_4 =>
    dsimp only at parsed
    split at parsed
    · cases parsed
    · obtain ⟨raw, sliced, parsed⟩ := Outcome.bind_eq_ok.mp parsed
      obtain ⟨inside, rfl⟩ := slice_eq_ok.mp sliced
      cases parsed
      refine length_unpackNibblesFrom ?_
      rw [List.length_nil, List.length_take, List.length_drop]
      omega

theorem Parses.length_coefficients {buf : Bytes} {codedId : UInt32} {ev : EncodingVector} {consumed : ℕ}
    (parses : Parses buf codedId ev consumed) : ev.coefficients = [] ∨ ev.coefficients.length = ev.sourceIds.length := by
  obtain ⟨idBytes, decoded, ⟨_, none⟩ | ⟨all, coefs⟩⟩ := parses.ids
  · exact .inl none
  · exact .inr (by rw [length_parseCoefs coefs, (IdStorage.decode_ok (by have := UInt8.toNat_lt (buf.getD 2 0); omega) decoded).1, all])

theorem parse_returns_iff (buf : Bytes) (codedId : UInt32) : (parse buf codedId).Returns ↔ Readable buf := by
  unfold parse Readable
  dsimp only
  split
  next short => simp only [Outcome.returns_err, true_iff]; exact fun long => by omega
  next long =>
    have long : 8 ≤ buf.length := Nat.le_of_not_gt long
    rw [index_of (show 0 < buf.length by omega), Outcome.ok_bind]
    split
    next short => simp only [Outcome.returns_err, true_iff]; exact fun _ fits => by omega
    next fits =>
      rw [index_of (show 1 < buf.length by omega), Outcome.ok_bind]
      rcases fieldOfCcgi_cases ((buf.getD 1 0 >>> 4) &&& 0xF) with ⟨⟨field, known⟩, ccgi⟩ | ⟨⟨error, unknown⟩, ccgi⟩
      swap
      · rw [unknown, Outcome.err_bind]
        simp only [Outcome.returns_err, true_iff]
        exact fun _ _ known => absurd known ccgi
      rw [known, Outcome.ok_bind, index_of (show 2 < buf.length by omega), Outcome.ok_bind,
        index_of (show 3 < buf.length by omega), Outcome.ok_bind]
      split
      next stray => simp only [Outcome.returns_err, true_iff]; exact fun _ _ _ none => absurd (none stray.1) stray.2
      next noStray =>
        split
        next few => simp only [Outcome.returns_err, true_iff]; exact fun _ _ _ _ all => absurd (all few.1) few.2
        next all =>
          rw [readU32_of (show 4 + 4 ≤ buf.length by omega), Outcome.ok_bind]
          rcases parseGeneration_eq long (buf.getD 1 0) with ⟨room, generation, read⟩ | ⟨room, error, refused⟩
          swap
          · rw [refused, Outcome.err_bind]
            simp only [Outcome.returns_err, true_iff]
            exact fun _ _ _ _ _ enough => absurd enough room
          have checked : (buf.getD 0 0).toNat * 4 ≤ buf.length := Nat.le_of_not_gt fits
          have noCoefs : (buf.getD 1 0 >>> 1) &&& 0x1 = 0 → buf.getD 3 0 = 0 :=
            fun unset => not_not.mp fun some => noStray ⟨unset, some⟩
          have allCoefs : (buf.getD 1 0 >>> 1) &&& 0x1 = 1 → buf.getD 3 0 = buf.getD 2 0 :=
            fun set => not_not.mp fun other => all ⟨set, other⟩
          rw [read, Outcome.ok_bind]
          dsimp only
          rw [Outcome.returns_bind, returns_slice]
          constructor
          · rintro ⟨⟨covered, _⟩, later⟩ _ _ _ _ _ _
            have decoded := (Outcome.returns_bind.mp (later _ (slice_of covered checked))).1
            exact ⟨covered, (IdStorage.decode_returns _ (UInt8.toNat_lt _) _ _).mp decoded⟩
          · intro readable
            obtain ⟨covered, ids⟩ := readable long checked ccgi noCoefs allCoefs room
            refine ⟨⟨covered, checked⟩, fun idField sliced => ?_⟩
            obtain ⟨_, rfl⟩ := slice_eq_ok.mp sliced
            refine Outcome.returns_bind.mpr ⟨(IdStorage.decode_returns _ (UInt8.toNat_lt _) _ _).mpr ids, fun ids _ => ?_⟩
            split
            · exact Outcome.returns_bind.mpr ⟨parseCoefs_returns _ _ _ _, fun _ _ => Outcome.returns_ok _⟩
            · exact Outcome.returns_ok _

end EncodingVector

/-- A buffer that opens a coded packet has its CCI and TSI in range, and behind its coded id an
encoding vector that is readable. -/
def CodedPacket.Readable (buf : Bytes) : Prop :=
  CommonHeader.Opens buf → (CommonHeader.ofBytes buf).pktType = 1 →
    (CommonHeader.ofBytes buf).bodyOffset ≤ buf.length ∧
      ((CommonHeader.ofBytes buf).bodyOffset + 4 < buf.length →
        EncodingVector.Readable (buf.drop ((CommonHeader.ofBytes buf).bodyOffset + 4)))

theorem CodedPacket.parse_ok {buf : Bytes} {packet : CodedPacket} (parsed : CodedPacket.parse buf = .ok packet) :
    ∃ consumed, (CommonHeader.ofBytes buf).bodyOffset + 4 < buf.length ∧
      EncodingVector.Parses (buf.drop ((CommonHeader.ofBytes buf).bodyOffset + 4)) packet.codedSymbolId packet.ev consumed ∧
      packet.payload = buf.drop ((CommonHeader.ofBytes buf).bodyOffset + 4 + consumed) := by
  obtain ⟨consumed, spells⟩ := parse_eq_ok.mp parsed
  exact ⟨consumed, spells.long, EncodingVector.parse_ok spells.vector, spells.payload⟩

private theorem parseBody_returns_iff (buf : Bytes) : (CodedPacket.parseBody buf).Returns ↔
    ((CommonHeader.ofBytes buf).bodyOffset + 4 < buf.length →
      EncodingVector.Readable (buf.drop ((CommonHeader.ofBytes buf).bodyOffset + 4))) := by
  unfold CodedPacket.parseBody CodedPacket.codedIdSize
  dsimp only
  split
  next short =>
    simp only [Outcome.returns_err, true_iff]
    intro long
    omega
  split
  next empty =>
    simp only [Outcome.returns_err, true_iff]
    intro long
    omega
  next some =>
    rw [Outcome.returns_bind, EncodingVector.parse_returns_iff]
    constructor
    · exact fun readable _ => readable.1
    · intro readable
      refine ⟨readable (Nat.lt_of_not_le some), fun vector parsed => ?_⟩
      have within := (EncodingVector.parse_ok parsed).covers.2
      rw [List.length_drop] at within
      rw [sliceFrom_of (by omega)]
      exact Outcome.returns_ok _

theorem CodedPacket.parse_returns_iff (buf : Bytes) : (CodedPacket.parse buf).Returns ↔ Readable buf := by
  by_cases opens : Opens buf
  · by_cases room : (CommonHeader.ofBytes buf).bodyOffset ≤ buf.length
    · rw [parse_of opens room, parseBody_returns_iff]
      exact ⟨fun readable _ _ => ⟨room, readable⟩, fun readable => (readable opens.1 opens.2).2⟩
    · exact iff_of_false (parse_stuck opens room) fun readable => room (readable opens.1 opens.2).1
  · obtain ⟨error, refused⟩ := parse_refused opens
    rw [refused]
    exact iff_of_true (Outcome.returns_err _) fun header typed => absurd ⟨header, typed⟩ opens

private theorem readable_of_other {buf : Bytes} (other : (CommonHeader.ofBytes buf).pktType ≠ 1) :
    CodedPacket.Readable buf := fun _ same => absurd same other

theorem DelpPacket.parse_returns_iff (buf : Bytes) : (DelpPacket.parse buf).Returns ↔ CodedPacket.Readable buf := by
  unfold parse
  rcases CommonHeader.parse_eq buf with ⟨opens, parsed⟩ | ⟨shut, _, refused⟩
  swap
  · rw [refused]
    refine iff_of_true ?_ fun opens => absurd opens shut
    split <;> simp
  rw [if_neg (Nat.not_lt.mpr opens.1), parsed, Outcome.ok_bind]
  cases typed : (CommonHeader.ofBytes buf).packetType with
  | ok pktType =>
    have byte := PacketType.fromU8_eq_ok.mp typed
    rw [Outcome.ok_bind]
    cases pktType with
    | source =>
      refine iff_of_true (Outcome.returns_bind.mpr ⟨SourcePacket.parse_returns buf, fun _ _ => Outcome.returns_ok _⟩) ?_
      exact readable_of_other (by rw [byte]; decide)
    | coded =>
      rw [← CodedPacket.parse_returns_iff]
      exact ⟨fun returns => (Outcome.returns_bind.mp returns).1,
        fun returns => Outcome.returns_bind.mpr ⟨returns, fun _ _ => Outcome.returns_ok _⟩⟩
    | feedback =>
      refine iff_of_true (Outcome.returns_bind.mpr ⟨FeedbackPacket.parse_returns buf, fun _ _ => Outcome.returns_ok _⟩) ?_
      exact readable_of_other (by rw [byte]; decide)
  | err error =>
    refine iff_of_true (Outcome.returns_err _) (readable_of_other fun coded => ?_)
    cases typed.symm.trans (PacketType.fromU8_eq_ok.mpr (show _ = PacketType.coded.toU8 from coded))
  | panic reason => exact absurd typed (PacketType.fromU8_returns _ reason)

/-- Parsing is total exactly on the buffers that do not hold an unreadable coded packet. -/
theorem parsing_total_iff (buf : Bytes) :
    (DelpPacket.parse buf).Returns ∧ (SourcePacket.parse buf).Returns ∧ (CodedPacket.parse buf).Returns ∧
      (FeedbackPacket.parse buf).Returns ↔ CodedPacket.Readable buf := by
  rw [DelpPacket.parse_returns_iff, CodedPacket.parse_returns_iff]
  exact ⟨fun returns => returns.1,
    fun readable => ⟨readable, SourcePacket.parse_returns buf, readable, FeedbackPacket.parse_returns buf⟩⟩

/-- A coded packet that announces one CCI word and ends with its header. -/
theorem parsing_fails : ¬ ∀ buf, (DelpPacket.parse buf).Returns := fun total => by
  have shut := total [0x14, 0, 1, 1]
  revert shut
  decide

end Delp
