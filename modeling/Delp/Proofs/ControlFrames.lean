import Delp.Cli.Recv
import Delp.Proofs.ReceiverQueue

/-! The control frames of a file transfer: which buffers are START frames, and that no packet is taken for one. -/

namespace Delp.Recv
open Machine Send

/-- The fields of a buffer that is long enough for a START frame. -/
structure Layout (buf : Bytes) where
  (b0 b1 b2 b3 b4 b5 s0 s1 : UInt8)
  (count size digest rest : Bytes)
  four : count.length = 4
  eight : size.length = 8
  all : digest.length = 32
  spelled : buf = b0 :: b1 :: b2 :: b3 :: b4 :: b5 :: s0 :: s1 :: (count ++ (size ++ (digest ++ rest)))

namespace Layout

theorem exists_of_long {buf : Bytes} (long : 52 ≤ buf.length) : Nonempty (Layout buf) := by
  rcases buf with _ | ⟨b0, _ | ⟨b1, _ | ⟨b2, _ | ⟨b3, _ | ⟨b4, _ | ⟨b5, _ | ⟨s0, _ | ⟨s1, tail⟩⟩⟩⟩⟩⟩⟩⟩
  all_goals simp at long
  refine ⟨⟨b0, b1, b2, b3, b4, b5, s0, s1, tail.take 4, (tail.drop 4).take 8, ((tail.drop 4).drop 8).take 32,
    ((tail.drop 4).drop 8).drop 32, ?_, ?_, ?_, by simp only [List.take_append_drop]⟩⟩
  all_goals
    simp only [List.length_take, List.length_drop]
    omega

variable {buf : Bytes} (layout : Layout buf)

def session : Session where
  symbolSize := fromBe [layout.s0, layout.s1]
  nSymbols := UInt32.ofNat (fromBe layout.count)
  fileSize := UInt64.ofNat (fromBe layout.size)
  sha256 := ⟨layout.digest, layout.all⟩

def Marked : Prop :=
  layout.b0 = 0x44 ∧ layout.b1 = 0x45 ∧ layout.b2 = 0x4C ∧ layout.b3 = ctrlStart ∧ layout.b4 = protoVersion

theorem parseStart_iff (session : Session) : parseStart buf = .ok session ↔ layout.Marked ∧ layout.session = session := by
  obtain ⟨b0, b1, b2, b3, b4, b5, s0, s1, count, size, digest, rest, four, eight, all, rfl⟩ := layout
  have long : ¬ (b0 :: b1 :: b2 :: b3 :: b4 :: b5 :: s0 :: s1 :: (count ++ (size ++ (digest ++ rest)))).length < 4 + 4 + 4 + 8 + 32 := by
    simp only [List.length_cons, List.length_append]
    omega
  have first : (count ++ (size ++ (digest ++ rest))).take 4 = count := List.take_left' four
  have second : ((count ++ (size ++ (digest ++ rest))).drop 4).take 8 = size := by
    rw [List.drop_left' four, List.take_left' eight]
  have third : ((count ++ (size ++ (digest ++ rest))).drop 12).take 32 = digest := by
    rw [← List.drop_drop (i := 8) (j := 4), List.drop_left' four, List.drop_left' eight, List.take_left' all]
  unfold parseStart
  rw [dif_neg long]
  simp only [List.getElem_cons_zero, List.getElem_cons_succ, List.take_succ_cons, List.take_zero, List.drop_succ_cons, List.drop_zero,
    first, second, third, Marked, Layout.session, magic, protoVersion]
  constructor
  · intro parsed
    split at parsed
    · cases parsed
    split at parsed
    · cases parsed
    next marks =>
      split at parsed
      · cases parsed
      next version =>
        simp only [not_or, not_not] at marks version
        exact ⟨⟨marks.1, marks.2.1, marks.2.2.1, marks.2.2.2, version⟩, Outcome.ok.inj parsed⟩
  · intro marked
    obtain ⟨⟨rfl, rfl, rfl, rfl, rfl⟩, rfl⟩ := marked
    simp

end Layout

private def ofSession (symbolSize : UInt16) (session : Session) (reserved : UInt8) (rest : Bytes) :
    Layout ((buildStartFrame symbolSize session.nSymbols session.fileSize session.sha256).set 5 reserved ++ rest) where
  b0 := 0x44
  b1 := 0x45
  b2 := 0x4C
  b3 := ctrlStart
  b4 := protoVersion
  b5 := reserved
  s0 := UInt8.ofNat (symbolSize.toNat / 256)
  s1 := UInt8.ofNat symbolSize.toNat
  count := toBe 4 session.nSymbols.toNat
  size := toBe 8 session.fileSize.toNat
  digest := session.sha256.bytes
  rest := rest
  four := length_toBe _ _
  eight := length_toBe _ _
  all := session.sha256.size
  spelled := by
    simp [buildStartFrame, magic, toBe]

theorem parseStart_frame (symbolSize : UInt16) (session : Session) (reserved : UInt8) (rest : Bytes)
    (same : session.symbolSize = symbolSize.toNat) :
    parseStart ((buildStartFrame symbolSize session.nSymbols session.fileSize session.sha256).set 5 reserved ++ rest) = .ok session := by
  refine ((ofSession symbolSize session reserved rest).parseStart_iff session).mpr ⟨⟨rfl, rfl, rfl, rfl, rfl⟩, ?_⟩
  have words : fromBe (toBe 2 symbolSize.toNat) = symbolSize.toNat := by
    rw [fromBe_toBe]
    exact Nat.mod_eq_of_lt symbolSize.toNat_lt
  have counted : fromBe (toBe 4 session.nSymbols.toNat) = session.nSymbols.toNat := by
    rw [fromBe_toBe]
    exact Nat.mod_eq_of_lt session.nSymbols.toNat_lt
  have sized : fromBe (toBe 8 session.fileSize.toNat) = session.fileSize.toNat := by
    rw [fromBe_toBe]
    exact Nat.mod_eq_of_lt session.fileSize.toNat_lt
  obtain ⟨size, nSymbols, fileSize, sha256⟩ := session
  subst same
  simp only [Layout.session, ofSession, counted, sized, UInt32.ofNat_toNat, UInt64.ofNat_toNat]
  exact congrArg (Session.mk · nSymbols fileSize sha256) words

/-- The receiver takes exactly the frames that the sender builds for a session, whatever their reserved byte is and whatever
comes behind them, and reads the session back. -/
theorem start_frames (buf : Bytes) (session : Session) :
    parseStart buf = .ok session ↔ ∃ (symbolSize : UInt16) (reserved : UInt8) (rest : Bytes), session.symbolSize = symbolSize.toNat ∧
      buf = (buildStartFrame symbolSize session.nSymbols session.fileSize session.sha256).set 5 reserved ++ rest := by
  constructor
  · intro parsed
    have long : 52 ≤ buf.length := by
      by_contra short
      rw [parseStart, dif_pos (by omega)] at parsed
      cases parsed
    obtain ⟨layout⟩ := Layout.exists_of_long long
    obtain ⟨marked, rfl⟩ := (layout.parseStart_iff session).mp parsed
    obtain ⟨b0, b1, b2, b3, b4, b5, s0, s1, count, size, digest, rest, four, eight, all, rfl⟩ := layout
    obtain ⟨rfl, rfl, rfl, rfl, rfl⟩ := marked
    have pair : fromBe [s0, s1] < 2 ^ 16 := Nat.lt_of_lt_of_eq (fromBe_lt [s0, s1]) (by simp)
    have few : fromBe count < 2 ^ 32 := Nat.lt_of_lt_of_eq (fromBe_lt count) (by rw [four]; norm_num)
    have small : fromBe size < 2 ^ 64 := Nat.lt_of_lt_of_eq (fromBe_lt size) (by rw [eight]; norm_num)
    have words : toBe 2 (fromBe [s0, s1]) = [s0, s1] := toBe_fromBe [s0, s1]
    have counted : toBe 4 (fromBe count) = count := four ▸ toBe_fromBe count
    have sized : toBe 8 (fromBe size) = size := eight ▸ toBe_fromBe size
    refine ⟨UInt16.ofNat (fromBe [s0, s1]), b5, rest, (UInt16.toNat_ofNat_of_lt' pair).symm, ?_⟩
    simp only [Layout.session, buildStartFrame, UInt16.toNat_ofNat_of_lt' pair, UInt32.toNat_ofNat_of_lt' few,
      UInt64.toNat_ofNat_of_lt' small, words, counted, sized, magic]
    simp
  · intro spelled
    obtain ⟨symbolSize, reserved, rest, same, rfl⟩ := spelled
    exact parseStart_frame symbolSize session reserved rest same

/-- Every datagram but the END frame goes where the library's own receiver sends it. -/
theorem Progress.dispatch_eq (self : Progress) {raw : Bytes} (more : raw.getD 3 0 ≠ ctrlEnd) : self.dispatch raw = (do
    let self ← self.absorb (self.decoder.processOne raw)
    pure (self, false)) := by
  have dropped : self.absorb (.ok (self.decoder, .ok [])) = .ok self := rfl
  unfold dispatch
  dsimp only
  rw [if_neg more]
  by_cases opens : CommonHeader.Opens raw
  · have byte : (CommonHeader.ofBytes raw).pktType = raw.getD 3 0 := rfl
    rw [Decoder.processOne, CommonHeader.parse_of opens]
    simp only [unlessMalformed, CommonHeader.packetType, byte]
    split
    next source =>
      rw [source, PacketType.fromU8_eq_ok.mpr (show (0x00 : UInt8) = PacketType.source.toU8 from rfl)]
      dsimp only
      cases SourcePacket.parse raw <;> rfl
    next =>
      split
      next coded =>
        rw [coded, PacketType.fromU8_eq_ok.mpr (show (0x01 : UInt8) = PacketType.coded.toU8 from rfl)]
        dsimp only
        cases CodedPacket.parse raw <;> rfl
      next source coded =>
        cases kind : PacketType.fromU8 (raw.getD 3 0) with
        | ok kind' =>
          have same := PacketType.fromU8_eq_ok.mp kind
          cases kind' with
          | source => exact absurd same source
          | coded => exact absurd same coded
          | feedback => rfl
        | err error => rfl
        | panic reason => exact absurd kind (PacketType.fromU8_returns _ reason)
  · have refused : self.decoder.processOne raw = .ok (self.decoder, .ok []) := by
      rcases CommonHeader.parse_eq raw with ⟨open', _⟩ | ⟨_, error, parsed⟩
      · exact absurd open' opens
      · rw [Decoder.processOne, parsed]
        rfl
    obtain ⟨_, source⟩ : ∃ error, SourcePacket.parse raw = .err error := by
      rcases SourcePacket.parse_cases raw with ⟨holds, _⟩ | ⟨_, refused⟩
      · exact absurd holds.opens opens
      · exact refused
    have unopened : ¬ CodedPacket.Opens raw := fun both => opens both.1
    obtain ⟨_, coded⟩ := CodedPacket.parse_refused unopened
    rw [refused, dropped, source, coded]
    simp only [unlessMalformed]
    split
    · rfl
    split <;> rfl

end Delp.Recv
