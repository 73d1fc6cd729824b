import Delp.Proofs.PacketRoundTrip

/-! Which packets a buffer is accepted as. The source and coded parsers check the packet type;
the feedback parser takes any buffer that is long enough to hold a feedback body. -/

namespace Delp
open Machine

/-- The three parsers, each returning what `DelpPacket.parse` makes of its packet. -/
def parseAs (kind : PacketType) (buf : Bytes) : Result DelpPacket :=
  match kind with
  | .source => do
    let packet ← SourcePacket.parse buf
    pure (.source packet)
  | .coded => do
    let packet ← CodedPacket.parse buf
    pure (.coded packet)
  | .feedback => do
    let packet ← FeedbackPacket.parse buf
    pure (.feedback packet)

/-- At most one parser takes the buffer: the one that its type byte and the top-level parser name. -/
structure Exclusive (buf : Bytes) : Prop where
  one : ∀ kind other packet same, parseAs kind buf = .ok packet → parseAs other buf = .ok same → kind = other
  typed : ∀ kind packet, parseAs kind buf = .ok packet →
    buf[3]? = some kind.toU8 ∧ DelpPacket.parse buf = .ok packet

/-- A buffer of another type that can be read as a feedback packet. -/
def Masquerades (buf : Bytes) : Prop :=
  (CommonHeader.ofBytes buf).pktType ≠ PacketType.feedback.toU8 ∧ FeedbackPacket.Holds buf

instance (buf : Bytes) : Decidable (Masquerades buf) := inferInstanceAs (Decidable (_ ∧ (_ ∧ _ ∧ _) ∧ _ ∧ _))

inductive Accepted (buf : Bytes) : PacketType → DelpPacket → Prop
  | source (holds : SourcePacket.Holds buf) : Accepted buf .source (.source (.ofBytes buf))
  | coded {packet : CodedPacket} {consumed : ℕ} (spells : CodedPacket.Spells buf packet consumed) :
      Accepted buf .coded (.coded packet)
  | feedback (holds : FeedbackPacket.Holds buf) : Accepted buf .feedback (.feedback (.ofBytes buf))

theorem parseAs_eq_ok {kind : PacketType} {buf : Bytes} {packet : DelpPacket} :
    parseAs kind buf = .ok packet ↔ Accepted buf kind packet := by
  constructor
  · intro accepted
    cases kind with
    | source =>
      obtain ⟨_, parsed, same⟩ := Outcome.bind_eq_ok.mp accepted
      obtain rfl := Outcome.ok.inj same
      obtain ⟨holds, rfl⟩ := SourcePacket.parse_eq_ok.mp parsed
      exact .source holds
    | coded =>
      obtain ⟨_, parsed, same⟩ := Outcome.bind_eq_ok.mp accepted
      obtain rfl := Outcome.ok.inj same
      obtain ⟨_, spells⟩ := CodedPacket.parse_eq_ok.mp parsed
      exact .coded spells
    | feedback =>
      obtain ⟨_, parsed, same⟩ := Outcome.bind_eq_ok.mp accepted
      obtain rfl := Outcome.ok.inj same
      obtain ⟨holds, rfl⟩ := FeedbackPacket.parse_eq_ok.mp parsed
      exact .feedback holds
  · intro accepted
    cases accepted with
    | source holds =>
      rw [parseAs, SourcePacket.parse_eq_ok.mpr ⟨holds, rfl⟩]
      rfl
    | coded spells =>
      rw [parseAs, CodedPacket.parse_eq_ok.mpr ⟨_, spells⟩]
      rfl
    | feedback holds =>
      rw [parseAs, FeedbackPacket.parse_eq_ok.mpr ⟨holds, rfl⟩]
      rfl

theorem parseAs_ok {kind : PacketType} {buf : Bytes} {packet : DelpPacket} (accepted : parseAs kind buf = .ok packet) :
    CommonHeader.Opens buf ∧ (kind ≠ .feedback → (CommonHeader.ofBytes buf).pktType = kind.toU8) := by
  cases parseAs_eq_ok.mp accepted with
  | source holds => exact ⟨holds.opens, fun _ => holds.typed⟩
  | coded spells => exact ⟨spells.opens.1, fun _ => spells.opens.2⟩
  | feedback holds => exact ⟨holds.1, fun data => absurd rfl data⟩

theorem feedback_accepts_iff (buf : Bytes) : (∃ packet, parseAs .feedback buf = .ok packet) ↔ FeedbackPacket.Holds buf := by
  constructor
  · intro accepts
    obtain ⟨_, accepted⟩ := accepts
    cases parseAs_eq_ok.mp accepted with
    | feedback holds => exact holds
  · exact fun holds => ⟨_, parseAs_eq_ok.mpr (.feedback holds)⟩

theorem DelpPacket.parse_typed {kind : PacketType} {buf : Bytes} (opens : CommonHeader.Opens buf)
    (typed : (CommonHeader.ofBytes buf).pktType = kind.toU8) : DelpPacket.parse buf = parseAs kind buf := by
  rw [DelpPacket.parse, if_neg (Nat.not_lt.mpr opens.1), CommonHeader.parse_of opens, Outcome.ok_bind, CommonHeader.packetType,
    PacketType.fromU8_eq_ok.mpr typed, Outcome.ok_bind]
  cases kind <;> rfl

/-- One parser takes a buffer exactly when it is not a data packet that reads as feedback. -/
theorem exclusive_iff (buf : Bytes) : Exclusive buf ↔ ¬ Masquerades buf := by
  constructor
  · rintro exclusive ⟨other, holds⟩
    obtain ⟨packet, accepted⟩ := (feedback_accepts_iff buf).mpr holds
    obtain ⟨byte, _⟩ := exclusive.typed .feedback packet accepted
    apply other
    show buf.getD 3 0 = _
    rw [List.getD_eq_getElem?_getD, byte]
    rfl
  · intro genuine
    -- every parser that accepts the buffer is the one of its type byte
    have typed (kind : PacketType) (packet : DelpPacket) (accepted : parseAs kind buf = .ok packet) :
        CommonHeader.Opens buf ∧ (CommonHeader.ofBytes buf).pktType = kind.toU8 := by
      obtain ⟨opens, data⟩ := parseAs_ok accepted
      refine ⟨opens, ?_⟩
      cases kind with
      | source => exact data (by decide)
      | coded => exact data (by decide)
      | feedback =>
        by_contra other
        exact genuine ⟨other, (feedback_accepts_iff buf).mp ⟨packet, accepted⟩⟩
    refine ⟨fun kind other packet same accepted also => ?_, fun kind packet accepted => ?_⟩
    · exact PacketType.toU8_inj ((typed kind packet accepted).2.symm.trans (typed other same also).2)
    · obtain ⟨opens, byte⟩ := typed kind packet accepted
      have inside : 3 < buf.length := opens.1
      refine ⟨?_, (DelpPacket.parse_typed opens byte).trans accepted⟩
      rw [← byte, CommonHeader.ofBytes, List.getD_eq_getElem _ _ inside, List.getElem?_eq_getElem inside]

theorem serialised_typed {bytes payload cci : Bytes} {tsi : Option UInt32} {id : UInt32} :
    (SourcePacket.serialise id payload cci tsi = .ok bytes → (CommonHeader.ofBytes bytes).pktType = PacketType.source.toU8) ∧
    ∀ ev, CodedPacket.serialise id ev payload cci tsi = .ok bytes →
      (CommonHeader.ofBytes bytes).pktType = PacketType.coded.toU8 := by
  constructor
  · intro serialised
    obtain ⟨_, _, serialised⟩ := Outcome.bind_eq_ok.mp serialised
    obtain ⟨_, _, serialised⟩ := Outcome.bind_eq_ok.mp serialised
    obtain ⟨_, _, serialised⟩ := Outcome.bind_eq_ok.mp serialised
    obtain ⟨_, _, serialised⟩ := Outcome.bind_eq_ok.mp serialised
    cases serialised
    rfl
  · intro ev serialised
    obtain ⟨_, _, serialised⟩ := Outcome.bind_eq_ok.mp serialised
    obtain ⟨_, _, serialised⟩ := Outcome.bind_eq_ok.mp serialised
    obtain ⟨_, _, serialised⟩ := Outcome.bind_eq_ok.mp serialised
    obtain ⟨_, _, serialised⟩ := Outcome.bind_eq_ok.mp serialised
    obtain ⟨_, _, serialised⟩ := Outcome.bind_eq_ok.mp serialised
    obtain ⟨_, _, serialised⟩ := Outcome.bind_eq_ok.mp serialised
    cases serialised
    rfl

/-- The packet languages are disjoint but for the data packets that read as feedback. -/
theorem packet_languages_disjoint_iff (buf : Bytes) :
    (Exclusive buf ↔ ¬ Masquerades buf) ∧
    ∀ id payload cci tsi,
      (SourcePacket.serialise id payload cci tsi = .ok buf ∨ ∃ ev, CodedPacket.serialise id ev payload cci tsi = .ok buf) →
      ((∀ packet, FeedbackPacket.parse buf ≠ .ok packet) ↔ ¬ Masquerades buf) := by
  refine ⟨exclusive_iff buf, fun id payload cci tsi serialised => ?_⟩
  have other : (CommonHeader.ofBytes buf).pktType ≠ PacketType.feedback.toU8 := by
    rcases serialised with source | ⟨ev, coded⟩
    · rw [serialised_typed.1 source]
      decide
    · rw [serialised_typed.2 ev coded]
      decide
  rw [← not_exists, FeedbackPacket.parse_ok_iff, Masquerades, and_iff_right other]

theorem packet_languages_disjoint_iff_short :
    ∃ bytes, SourcePacket.serialise 7 [1, 2, 3] [] none = .ok bytes ∧ Exclusive bytes ∧
      ∀ packet, FeedbackPacket.parse bytes ≠ .ok packet := by
  refine ⟨[16, 0, 2, 0, 0, 0, 0, 7, 1, 2, 3], by decide, ?_, ?_⟩
  · exact (packet_languages_disjoint_iff _).1.mpr (by decide)
  · exact ((packet_languages_disjoint_iff _).2 7 [1, 2, 3] [] none (.inl (by decide))).mpr (by decide)

/-- The payload of source packet 0 is taken for a cumulative acknowledgement below 100. -/
theorem packet_languages_disjoint_fails :
    ∃ bytes, SourcePacket.serialise 0 [0, 0, 0, 0, 0, 0, 0, 100, 0, 0, 0, 0] [] none = .ok bytes ∧
      FeedbackPacket.parse bytes = .ok ⟨none, 0, 0, 100, 0, []⟩ ∧ ¬ Exclusive bytes := by
  refine ⟨[16, 0, 2, 0, 0, 0, 0, 0, 0, 0, 0, 0, 0, 0, 0, 100, 0, 0, 0, 0], by decide, by decide, fun exclusive => ?_⟩
  exact absurd ((exclusive_iff _).mp exclusive) (by decide)

end Delp
