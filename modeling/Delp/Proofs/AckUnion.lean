import Delp.Lib.OrderedKeys
import Delp.Proofs.AckReports
import Delp.Proofs.PacketFields
import Delp.Proofs.SackBits

/-! The acknowledgement state of a receiver is the union of what its feedback packets acknowledge,
in whatever order and how often they come. -/

namespace Delp
open Machine

namespace FeedbackPacket

theorem Agrees.acknowledges_iff {pkt : FeedbackPacket} (agrees : pkt.Agrees) {id : SourceSymbolId} :
    pkt.Acknowledges id ↔ id < pkt.firstSrcId ∨ pkt.isAcked id = true := by
  obtain ⟨ids, listed, _, same⟩ := agrees
  rw [Acknowledges, ← same id, listed]
  simp

end FeedbackPacket

namespace ReceiverAckState

abbrev Reports := List (ReceiverId × FeedbackPacket)

def updateAll (state : ReceiverAckState) (reports : Reports) : Result ReceiverAckState :=
  reports.foldlM (fun state report => state.update report.1 report.2) state

theorem updateAll_isAcked {state final : ReceiverAckState} {reports : Reports} (updated : state.updateAll reports = .ok final)
    {receiver : ReceiverId} {id : SourceSymbolId} :
    final.isAcked receiver id = true ↔ state.isAcked receiver id = true ∨
      ∃ report ∈ reports, report.1 = receiver ∧ report.2.Acknowledges id := by
  induction reports generalizing state with
  | nil =>
    cases updated
    simp
  | cons report rest ih =>
    obtain ⟨middle, first, updated⟩ := Outcome.bind_eq_ok.mp updated
    rw [ih updated, update_isAcked first]
    simp only [List.mem_cons, exists_eq_or_imp, eq_comm (a := receiver), or_assoc]

/-- An id that no packet can acknowledge keeps the updates from running out of ids. -/
private theorem updateAll_returns {state : ReceiverAckState} (unacked : ∀ receiver, ¬ state.isAcked receiver 4294967295 = true)
    {reports : Reports} (bounded : ∀ report ∈ reports, ∀ n, report.2.Names n → n < 4294967295) :
    ∃ final, state.updateAll reports = .ok final := by
  induction reports generalizing state with
  | nil => exact ⟨state, rfl⟩
  | cons report rest ih =>
    have bound := bounded report List.mem_cons_self
    have agrees : report.2.Agrees := FeedbackPacket.agrees_of fun n named => (bound n named).trans (by decide)
    have silent : ¬ report.2.Acknowledges 4294967295 := by
      rw [agrees.acknowledges_iff, not_or, FeedbackPacket.isAcked_iff]
      refine ⟨fun below => ?_, fun named => Nat.lt_irrefl _ (bound _ named)⟩
      have below := (lt_iff _ _).mp below
      have limit := toNat_lt report.2.firstSrcId
      simp only [UInt32.reduceToNat] at below
      omega
    obtain ⟨ids, listed, _, same⟩ := agrees
    have left : ¬ (state.isAcked report.1 4294967295 = true ∨ 4294967295 < report.2.firstSrcId ∨ 4294967295 ∈ ids) := by
      rintro (before | below | member)
      · exact unacked _ before
      · exact silent (.inl below)
      · exact silent (.inr ⟨ids, listed, member⟩)
    obtain ⟨middle, first⟩ := update_returns_iff.mpr ⟨ids, listed, _, left⟩
    have kept (receiver : ReceiverId) : ¬ middle.isAcked receiver 4294967295 = true := by
      rw [update_isAcked first]
      rintro (before | ⟨_, claimed⟩)
      · exact unacked receiver before
      · exact silent claimed
    obtain ⟨final, updated⟩ := ih kept fun other member => bounded other (List.mem_cons_of_mem _ member)
    exact ⟨final, Outcome.bind_eq_ok.mpr ⟨middle, first, updated⟩⟩

private theorem isAcked_empty (receiver : ReceiverId) (id : SourceSymbolId) : isAcked {} receiver id = false := by
  rw [isAcked, Std.TreeMap.getElem?_emptyc]
  rfl

/-- Over feedback that acknowledges ids below the last one, in any order and with any repetitions, a receiver
has acknowledged what one of its packets does; it loses none of it, and other receivers' packets add none. -/
theorem updateAll_union (reports : Reports) (bounded : ∀ report ∈ reports, ∀ n, report.2.Names n → n < 4294967295) :
    ∃ final, updateAll {} reports = .ok final ∧
      (∀ receiver id, final.isAcked receiver id = true ↔
        ∃ report ∈ reports, report.1 = receiver ∧ (id < report.2.firstSrcId ∨ report.2.isAcked id = true)) ∧
      ∀ later last, final.updateAll later = .ok last →
        (∀ receiver id, final.isAcked receiver id = true → last.isAcked receiver id = true) ∧
          ∀ receiver, (∀ report ∈ later, report.1 ≠ receiver) → ∀ id, last.isAcked receiver id = final.isAcked receiver id := by
  have unacked (receiver : ReceiverId) : ¬ isAcked {} receiver 4294967295 = true := by
    rw [isAcked_empty]
    exact Bool.false_ne_true
  obtain ⟨final, updated⟩ := updateAll_returns unacked bounded
  refine ⟨final, updated, ?_, ?_⟩
  · intro receiver id
    rw [updateAll_isAcked updated, isAcked_empty, or_iff_right Bool.false_ne_true]
    refine exists_congr fun report => and_congr_right fun member => and_congr_right fun _ => ?_
    have agrees : report.2.Agrees := FeedbackPacket.agrees_of fun n named => (bounded report member n named).trans (by decide)
    exact agrees.acknowledges_iff
  · intro later last continued
    refine ⟨?_, ?_⟩
    · intro receiver id acked
      exact (updateAll_isAcked continued).mpr (.inl acked)
    · intro receiver others id
      rw [Bool.eq_iff_iff, updateAll_isAcked continued]
      refine or_iff_left ?_
      rintro ⟨report, member, same, _⟩
      exact others report member same

/-- The later report of receiver 7 comes first and again at the end. -/
private def staleReports : Reports :=
  [(7, ⟨none, 0, 0, 5, 0, [0x40]⟩), (7, ⟨none, 0, 0, 2, 0, [0x98]⟩), (8, ⟨none, 0, 0, 9, 0, []⟩), (7, ⟨none, 0, 0, 5, 0, [0x40]⟩)]

theorem updateAll_union_stale :
    ∃ final, updateAll {} staleReports = .ok final ∧ final.isAcked 7 4 = true ∧ final.isAcked 7 6 = true := by
  have bounded : ∀ report ∈ staleReports, ∀ n, report.2.Names n → n < 4294967295 := by
    intro report member n named
    have small := List.all_eq_true.mp (show staleReports.all (fun report =>
      decide (report.2.sack.length ≤ 1 ∧ report.2.firstSrcId.toNat ≤ 9)) = true by decide) report member
    have small := of_decide_eq_true small
    have inside := Bitmap.lt_of_isSet named.2
    have low := named.1
    omega
  obtain ⟨final, updated, union, _⟩ := updateAll_union staleReports bounded
  refine ⟨final, updated, (union 7 4).mpr ?_, (union 7 6).mpr ?_⟩
  · exact ⟨_, List.mem_cons_self, rfl, .inl (by decide)⟩
  · exact ⟨_, List.mem_cons_self, rfl, .inr (by decide)⟩

/-- A parsed packet is read the same way both times, and its update ends, exactly if its SACK names nothing
but ids and some id is left unacknowledged. -/
theorem update_agrees_iff {buf : Bytes} {pkt : FeedbackPacket} (parsed : FeedbackPacket.parse buf = .ok pkt)
    (state : ReceiverAckState) (receiver : ReceiverId) :
    (pkt.Agrees ∧ ∃ after, state.update receiver pkt = .ok after) ↔
      (∀ n, pkt.Names n → n < 4294967296) ∧
        ∃ id, ¬ (state.isAcked receiver id = true ∨ id < pkt.firstSrcId ∨ pkt.isAcked id = true) := by
  have short : pkt.sack.length ≤ 255 := by
    obtain ⟨_, rfl⟩ := FeedbackPacket.parse_eq_ok.mp parsed
    rw [FeedbackPacket.ofBytes, List.length_take]
    exact (Nat.min_le_left _ _).trans (Nat.le_of_lt_succ (UInt8.toNat_lt _))
  rw [update_returns_iff, ← FeedbackPacket.agrees_iff short]
  refine and_congr_right fun agrees => ?_
  obtain ⟨ids, listed, _, same⟩ := agrees
  simp only [listed, Outcome.ok.injEq, exists_eq_left', same]

private def oneByte (firstSrcId : UInt32) (bits : UInt8) : Bytes :=
  [0x10, 0, 4, 2, 0, 0, 0, 1, 0, 0, 0, 0] ++ toBeBytes firstSrcId ++ [0, 1, 0, 0, bits]

/-- The last id is acknowledged while the one before it is missing. -/
theorem update_agrees_iff_last :
    ∃ pkt, FeedbackPacket.parse (oneByte 4294967293 0x20) = .ok pkt ∧ pkt.isAcked 4294967295 = true ∧
      pkt.Agrees ∧ ∃ after, update {} 7 pkt = .ok after := by
  refine ⟨_, rfl, by decide, (update_agrees_iff (show FeedbackPacket.parse (oneByte 4294967293 0x20) = .ok _ from rfl) {} 7).mpr ?_⟩
  refine ⟨fun n named => ?_, 4294967294, by decide +kernel⟩
  have place := Bitmap.mem_positions.mpr named.2
  have low := named.1
  rw [show Bitmap.positions _ = [2] by decide, List.mem_singleton] at place
  rw [show UInt32.toNat _ = 4294967293 from rfl] at low place
  omega

/-- One bit names the number behind the last id, and the last id alone makes the counter run over. -/
theorem update_agrees_fails :
    (∃ pkt, FeedbackPacket.parse (oneByte 4294967295 0x40) = .ok pkt ∧ pkt.ackedIds = .panic .overflow ∧ ¬ pkt.Agrees) ∧
      ∃ pkt, FeedbackPacket.parse (oneByte 4294967295 0x80) = .ok pkt ∧ pkt.isAcked 4294967295 = true ∧
        ¬ ∃ after, update {} 7 pkt = .ok after := by
  constructor
  · refine ⟨_, rfl, rfl, fun agrees => ?_⟩
    obtain ⟨ids, listed, _⟩ := agrees
    cases listed
  · refine ⟨_, rfl, by decide, fun returned => ?_⟩
    obtain ⟨ids, listed, id, left⟩ := update_returns_iff.mp returned
    cases listed
    apply left
    have limit := toNat_lt id
    by_cases last : id = 4294967295
    · exact .inr (.inr (List.mem_singleton.mpr last))
    · have apart := (eq_iff _ _).not.mp last
      exact .inr (.inl ((lt_iff _ _).mpr (Nat.lt_of_le_of_ne (Nat.le_of_lt_succ limit) apart)))

end ReceiverAckState
end Delp
