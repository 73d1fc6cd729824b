import Delp.Proofs.PacketKinds
import Delp.Proofs.VectorBytes

/-! How the three parsers read the prefix that all packets share: the congestion control words, the
session id behind them and the body behind both. -/

namespace Delp
open Machine

def DelpPacket.tsi : DelpPacket → Option UInt32
  | .source packet => packet.tsi
  | .coded packet => packet.tsi
  | .feedback packet => packet.tsi

/-- The fields of a packet's own type are those of the bytes behind the prefix. -/
def DelpPacket.ReadFrom (body : Bytes) : DelpPacket → Prop
  | .source packet => 4 ≤ body.length ∧ packet.sourceSymbolId = fromBeBytes body ∧ packet.payload = body.drop 4
  | .coded packet => 4 ≤ body.length ∧ packet.codedSymbolId = fromBeBytes body ∧
      ∃ consumed, EncodingVector.parse (body.drop 4) packet.codedSymbolId = .ok (packet.ev, consumed) ∧
        packet.payload = body.drop (4 + consumed)
  | .feedback packet => 16 ≤ body.length ∧ packet.nbMissingSrc = fromBeBytes body ∧
      packet.nbNotUsedCoded = fromBeBytes (body.drop 4) ∧ packet.firstSrcId = fromBeBytes (body.drop 8) ∧
      packet.plrRaw = body.getD 12 0 ∧ packet.sack = (body.drop 16).take (body.getD 13 0).toNat

def withCci (buf cci : Bytes) : Bytes := buf.take CommonHeader.size ++ cci ++ buf.drop (CommonHeader.size + cci.length)

structure ReadsPrefix (kind : PacketType) (buf : Bytes) (packet : DelpPacket) : Prop where
  tsi : packet.tsi = (CommonHeader.ofBytes buf).sessionId buf
  body : packet.ReadFrom (buf.drop (CommonHeader.ofBytes buf).bodyOffset)
  /-- The session id does not depend on the congestion control words. -/
  apart : ∀ cci other, cci.length = (CommonHeader.ofBytes buf).cciWords.toNat * 4 →
    parseAs kind (withCci buf cci) = .ok other → other.tsi = packet.tsi

section OtherWords
variable {buf cci : Bytes}

theorem withCci_opened (long : CommonHeader.size ≤ buf.length) : CommonHeader.ofBytes (withCci buf cci) = .ofBytes buf := by
  have front : SameFront CommonHeader.size buf (withCci buf cci) := by
    refine ⟨long, ?_⟩
    rw [withCci, List.append_assoc, List.take_append_of_le_length (by rw [List.length_take, Nat.min_eq_left long]), List.take_take,
      Nat.min_self]
  rw [CommonHeader.ofBytes, front.getD_eq (show 0 < 4 by decide), front.getD_eq (show 1 < 4 by decide),
    front.getD_eq (show 2 < 4 by decide), front.getD_eq (show 3 < 4 by decide)]
  rfl

theorem withCci_drop (long : CommonHeader.size ≤ buf.length) (behind : ℕ) :
    (withCci buf cci).drop (CommonHeader.size + cci.length + behind) = buf.drop (CommonHeader.size + cci.length + behind) := by
  have front : (buf.take CommonHeader.size ++ cci).length = CommonHeader.size + cci.length := by
    rw [List.length_append, List.length_take, Nat.min_eq_left long]
  rw [withCci, ← List.drop_drop, List.drop_left' front, List.drop_drop]

theorem withCci_length (long : CommonHeader.size + cci.length ≤ buf.length) : (withCci buf cci).length = buf.length := by
  rw [withCci, List.length_append, List.length_append, List.length_take, List.length_drop]
  omega

theorem sessionId_withCci (long : CommonHeader.size ≤ buf.length)
    (words : cci.length = (CommonHeader.ofBytes buf).cciWords.toNat * 4) :
    (CommonHeader.ofBytes (withCci buf cci)).sessionId (withCci buf cci) = (CommonHeader.ofBytes buf).sessionId buf := by
  rw [withCci_opened long, CommonHeader.sessionId, CommonHeader.sessionId, ← words]
  have same := @withCci_drop buf cci long 0
  rw [Nat.add_zero] at same
  rw [same]

theorem withCci_holds (holds : FeedbackPacket.Holds buf)
    (words : cci.length = (CommonHeader.ofBytes buf).cciWords.toNat * 4) : FeedbackPacket.Holds (withCci buf cci) := by
  have opened := @withCci_opened buf cci holds.1.1
  obtain ⟨opens, body, sack⟩ := holds
  have before := (CommonHeader.ofBytes buf).bodyOffset_le
  have length : (withCci buf cci).length = buf.length := withCci_length (by omega)
  have size : (withCci buf cci).getD ((CommonHeader.ofBytes buf).bodyOffset + 13) 0 =
      buf.getD ((CommonHeader.ofBytes buf).bodyOffset + 13) 0 := by
    have same := @withCci_drop buf cci opens.1 ((CommonHeader.ofBytes buf).bodyOffset + 13 - (CommonHeader.size + cci.length))
    rw [Nat.add_sub_cancel' (by omega)] at same
    have heads := congrArg (fun bytes : Bytes => bytes[0]?) same
    simp only [List.getElem?_drop, Nat.add_zero] at heads
    rw [List.getD_eq_getElem?_getD, heads, List.getD_eq_getElem?_getD]
  unfold FeedbackPacket.Holds CommonHeader.Opens
  dsimp only
  rw [opened, length, size]
  exact ⟨opens, body, sack⟩

end OtherWords

private theorem next_ne (word : UInt32) : word + 1 ≠ word := by
  intro same
  have values := congrArg UInt32.toNat same
  rw [UInt32.toNat_add, UInt32.toNat_one] at values
  omega

section Parsers
variable {buf : Bytes}

theorem parseAs_readFrom {kind : PacketType} {packet : DelpPacket} (accepted : parseAs kind buf = .ok packet) :
    packet.ReadFrom (buf.drop (CommonHeader.ofBytes buf).bodyOffset) := by
  cases parseAs_eq_ok.mp accepted with
  | source holds =>
    have long := holds.long
    refine ⟨?_, rfl, ?_⟩
    · rw [List.length_drop]
      omega
    · rw [List.drop_drop]
      rfl
  | @coded packet consumed spells =>
    have long := spells.long
    refine ⟨?_, spells.id, consumed, ?_, ?_⟩
    · rw [List.length_drop]
      omega
    · rw [List.drop_drop]
      exact spells.vector
    · rw [List.drop_drop, ← Nat.add_assoc]
      exact spells.payload
  | feedback holds =>
    have long := holds.2.1
    have at_ (i : ℕ) : (buf.drop (CommonHeader.ofBytes buf).bodyOffset).getD i 0 =
        buf.getD ((CommonHeader.ofBytes buf).bodyOffset + i) 0 := by
      rw [List.getD_eq_getElem?_getD, List.getElem?_drop, List.getD_eq_getElem?_getD]
    dsimp only [DelpPacket.ReadFrom]
    rw [List.length_drop, List.drop_drop, List.drop_drop, List.drop_drop, at_, at_]
    exact ⟨by omega, rfl, rfl, rfl, rfl, rfl⟩

theorem parseAs_tsi {kind : PacketType} (data : kind ≠ .feedback) {packet : DelpPacket} (accepted : parseAs kind buf = .ok packet) :
    packet.tsi = (CommonHeader.ofBytes buf).sessionId buf := by
  cases parseAs_eq_ok.mp accepted with
  | source => rfl
  | coded spells => exact spells.tsi
  | feedback => exact absurd rfl data

/-- The feedback parser takes the word behind the header for the session id. -/
theorem feedback_tsi {packet : DelpPacket} (accepted : parseAs .feedback buf = .ok packet) :
    FeedbackPacket.Holds buf ∧ packet.tsi =
      if (CommonHeader.ofBytes buf).hasTsi then some (fromBeBytes (buf.drop CommonHeader.size)) else none := by
  cases parseAs_eq_ok.mp accepted with
  | feedback holds => exact ⟨holds, rfl⟩

/-- A packet is read by the shared layout exactly if it is no feedback packet with both congestion
control words and a session id. -/
theorem reads_prefix_iff {kind : PacketType} {packet : DelpPacket} (accepted : parseAs kind buf = .ok packet) :
    ReadsPrefix kind buf packet ↔
      (kind = .feedback → (CommonHeader.ofBytes buf).hasTsi = true → (CommonHeader.ofBytes buf).cciWords = 0) := by
  have long := (parseAs_ok accepted).1.1
  by_cases data : kind ≠ .feedback
  · refine iff_of_true ⟨parseAs_tsi data accepted, parseAs_readFrom accepted, fun cci other words reads => ?_⟩ fun same => absurd same data
    rw [parseAs_tsi data reads, sessionId_withCci long words, ← parseAs_tsi data accepted]
  obtain rfl := not_not.mp data
  obtain ⟨holds, tsi⟩ := feedback_tsi accepted
  constructor
  · intro reads _ set
    by_contra words
    have positive : 0 < (CommonHeader.ofBytes buf).cciWords.toNat :=
      Nat.pos_of_ne_zero fun zero => words (UInt8.toNat_inj.mp zero)
    -- another word in the first place is another session id
    let cci := toBeBytes (fromBeBytes (buf.drop CommonHeader.size) + 1) ++
      List.replicate ((CommonHeader.ofBytes buf).cciWords.toNat * 4 - 4) 0
    have length : cci.length = (CommonHeader.ofBytes buf).cciWords.toNat * 4 := by
      rw [List.length_append, length_toBeBytes, List.length_replicate]
      omega
    obtain ⟨other, accepts⟩ := (feedback_accepts_iff _).mpr (withCci_holds holds length)
    have moved := reads.apart cci other length accepts
    have front : (buf.take CommonHeader.size).length = CommonHeader.size := by
      rw [List.length_take, Nat.min_eq_left long]
    have first : fromBeBytes ((withCci buf cci).drop CommonHeader.size) = fromBeBytes (buf.drop CommonHeader.size) + 1 := by
      rw [withCci, List.append_assoc, List.drop_left' front, List.append_assoc, fromBeBytes_toBeBytes]
    rw [(feedback_tsi accepts).2, tsi, withCci_opened long, if_pos set, if_pos set, first] at moved
    exact next_ne _ (Option.some.inj moved)
  · intro apart
    by_cases set : (CommonHeader.ofBytes buf).hasTsi = true
    swap
    · refine ⟨?_, parseAs_readFrom accepted, fun cci other _ reads => ?_⟩
      · rw [tsi, CommonHeader.sessionId]
        exact (if_neg set).trans (if_neg set).symm
      · rw [(feedback_tsi reads).2, tsi, withCci_opened long, if_neg set, if_neg set]
    · have none := apart rfl set
      refine ⟨?_, parseAs_readFrom accepted, fun cci other words reads => ?_⟩
      · rw [tsi, CommonHeader.sessionId, none]
        rfl
      · rw [none] at words
        obtain rfl := List.length_eq_zero_iff.mp words
        have same : withCci buf [] = buf := by
          rw [withCci, List.append_nil]
          exact List.take_append_drop _ _
        rw [same] at reads
        rw [Outcome.ok.inj (reads.symm.trans accepted)]

/-- A feedback packet with a session id, and a source packet with a congestion control word as well. -/
theorem reads_prefix_iff_fields :
    ReadsPrefix .feedback ([18, 0, 2, 2] ++ [0, 0, 0, 7] ++ List.replicate 16 0) (.feedback ⟨some 7, 0, 0, 0, 0, []⟩) ∧
      ReadsPrefix .source ([22, 0, 4, 0] ++ [0, 0, 0, 9] ++ [0, 0, 0, 7] ++ [0, 0, 0, 3, 42])
        (.source ⟨⟨22, 0, 4, 0⟩, [0, 0, 0, 9], some 7, 3, [42]⟩) :=
  ⟨(reads_prefix_iff (by decide +kernel)).mpr (by decide), (reads_prefix_iff (by decide +kernel)).mpr (by decide)⟩

/-- With both, the feedback parser takes the congestion control word for the session id. -/
theorem reads_prefix_fails :
    ∃ buf packet, buf = [22, 0, 2, 2] ++ [0, 0, 0, 9] ++ [0, 0, 0, 7] ++ List.replicate 16 0 ∧
      parseAs .feedback buf = .ok packet ∧ packet.tsi = some 9 ∧ (CommonHeader.ofBytes buf).sessionId buf = some 7 ∧
      ¬ ReadsPrefix .feedback buf packet := by
  refine ⟨_, .feedback ⟨some 9, 0, 0, 0, 0, []⟩, rfl, by decide +kernel, rfl, by decide +kernel, fun reads => ?_⟩
  exact absurd reads.tsi (by decide +kernel)

end Parsers
end Delp
