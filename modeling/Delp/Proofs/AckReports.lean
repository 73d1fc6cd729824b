import Delp.Lib.Machine
import Delp.Policy.AckState

/-! What the acknowledgement state of a receiver may say: no more than its feedback packets did. -/

namespace Delp
open Machine

def FeedbackPacket.Acknowledges (packet : FeedbackPacket) (id : SourceSymbolId) : Prop :=
  id < packet.firstSrcId ∨ ∃ ids, packet.ackedIds = .ok ids ∧ id ∈ ids

namespace ReceiverEntry

theorem isAcked_iff {entry : ReceiverEntry} {id : SourceSymbolId} :
    entry.isAcked id = true ↔ id < entry.cumulativeAck ∨ id ∈ entry.sack := by
  rw [isAcked, Bool.or_eq_true, decide_eq_true_eq, Std.TreeSet.contains_iff_mem]

/-- Promotion moves ids out of the SACK below the cumulative acknowledgement, and acknowledges none. -/
theorem promote_isAcked {fuel : ℕ} {entry after : ReceiverEntry} (promoted : promote fuel entry = .ok after)
    {id : SourceSymbolId} : after.isAcked id = true ↔ entry.isAcked id = true := by
  induction fuel generalizing entry with
  | zero => cases promoted
  | succ fuel ih =>
    rw [promote] at promoted
    split at promoted
    next held =>
      obtain ⟨next, added, promoted⟩ := Outcome.bind_eq_ok.mp promoted
      obtain ⟨fits, rfl⟩ := addU32_eq_ok.mp added
      rw [ih promoted, isAcked_iff, isAcked_iff]
      have sum := toNat_add fits
      have member := Std.TreeSet.contains_iff_mem.mp held
      simp only [Std.TreeSet.mem_erase, ne_eq, Std.LawfulEqCmp.compare_eq_iff_eq, lt_iff, sum, UInt32.toNat_one]
      constructor
      · rintro (below | ⟨_, listed⟩)
        · rcases Nat.lt_succ_iff_lt_or_eq.mp below with below | same
          · exact .inl below
          · exact .inr (UInt32.toNat_inj.mp same ▸ member)
        · exact .inr listed
      · rintro (below | listed)
        · exact .inl (by omega)
        · by_cases same : entry.cumulativeAck = id
          · exact .inl (by rw [same]; omega)
          · exact .inr ⟨same, listed⟩
    next =>
      cases promoted
      rfl

theorem mem_foldl_insert {ids : List SourceSymbolId} {sack : Std.TreeSet SourceSymbolId} {id : SourceSymbolId} :
    id ∈ ids.foldl (fun sack id => sack.insert id) sack ↔ id ∈ sack ∨ id ∈ ids := by
  induction ids generalizing sack with
  | nil => simp
  | cons first rest ih =>
    rw [List.foldl_cons, ih, Std.TreeSet.mem_insert, Std.LawfulEqCmp.compare_eq_iff_eq, List.mem_cons]
    grind

theorem promote_returns {fuel : ℕ} {entry : ReceiverEntry} (enough : entry.sack.size < fuel) {id : SourceSymbolId}
    (open_ : ¬ entry.isAcked id = true) : ∃ after, promote fuel entry = .ok after := by
  induction fuel generalizing entry with
  | zero => cases enough
  | succ fuel ih =>
    rw [promote]
    split
    next held =>
      have member := Std.TreeSet.contains_iff_mem.mp held
      have apart := isAcked_iff.not.mp open_
      rw [not_or, UInt32.not_lt, le_iff] at apart
      have differ : entry.cumulativeAck.toNat ≠ id.toNat := by
        intro same
        rw [UInt32.toNat_inj] at same
        exact apart.2 (same ▸ member)
      have fits : entry.cumulativeAck.toNat + (1 : UInt32).toNat < 4294967296 := by
        have bound := toNat_lt id
        rw [UInt32.toNat_one]
        omega
      rw [addU32_eq_ok.mpr ⟨fits, rfl⟩, Outcome.ok_bind]
      apply ih
      · have filled := Std.TreeSet.isEmpty_eq_false_of_contains held
        rw [Std.TreeSet.isEmpty_eq_size_eq_zero, beq_eq_false_iff_ne] at filled
        dsimp only
        rw [Std.TreeSet.size_erase, if_pos held]
        omega
      · rw [isAcked_iff, not_or, UInt32.not_lt, le_iff, toNat_add fits, UInt32.toNat_one, Std.TreeSet.mem_erase]
        exact ⟨by omega, fun listed => apart.2 listed.2⟩
    next => exact ⟨entry, rfl⟩

theorem promote_open {fuel : ℕ} {entry after : ReceiverEntry} (promoted : promote fuel entry = .ok after) :
    ∃ id, ¬ entry.isAcked id = true := by
  suffices stopped : ¬ after.isAcked after.cumulativeAck = true from
    ⟨_, (promote_isAcked promoted).not.mp stopped⟩
  induction fuel generalizing entry with
  | zero => cases promoted
  | succ fuel ih =>
    rw [promote] at promoted
    split at promoted
    next =>
      obtain ⟨next, _, promoted⟩ := Outcome.bind_eq_ok.mp promoted
      exact ih promoted
    next missing =>
      cases promoted
      rw [isAcked_iff, not_or]
      exact ⟨UInt32.lt_irrefl _, mt Std.TreeSet.contains_iff_mem.mpr missing⟩

/-- An entry with everything that a packet acknowledges, before promotion. -/
def gathered (entry : ReceiverEntry) (packet : FeedbackPacket) (ids : List SourceSymbolId) : ReceiverEntry :=
  let entry := if packet.firstSrcId > entry.cumulativeAck then
      { cumulativeAck := packet.firstSrcId, sack := entry.sack.filter fun id => decide (id ≥ packet.firstSrcId) }
    else entry
  { entry with sack := ids.foldl (fun sack id => sack.insert id) entry.sack }

theorem update_eq (entry : ReceiverEntry) (packet : FeedbackPacket) :
    entry.update packet = packet.ackedIds >>= fun ids => promote ((entry.gathered packet ids).sack.size + 1) (entry.gathered packet ids) :=
  rfl

theorem gathered_isAcked {entry : ReceiverEntry} {packet : FeedbackPacket} {ids : List SourceSymbolId} {id : SourceSymbolId} :
    (entry.gathered packet ids).isAcked id = true ↔ entry.isAcked id = true ∨ id < packet.firstSrcId ∨ id ∈ ids := by
  rw [isAcked_iff, isAcked_iff, gathered]
  dsimp only
  rw [mem_foldl_insert]
  split
  next higher =>
    dsimp only
    have higher := (lt_iff _ _).mp higher
    rw [Std.TreeSet.mem_filter]
    simp only [Std.TreeSet.get_eq, decide_eq_true_eq, exists_prop, ge_iff_le, le_iff, lt_iff]
    constructor
    · rintro (below | ⟨held, _⟩ | listed)
      · exact .inr (.inl below)
      · exact .inl (.inr held)
      · exact .inr (.inr listed)
    · rintro ((below | held) | below | listed)
      · exact .inl (by omega)
      · rcases Nat.lt_or_ge id.toNat packet.firstSrcId.toNat with below | above
        · exact .inl below
        · exact .inr (.inl ⟨held, above⟩)
      · exact .inl below
      · exact .inr (.inr listed)
  next lower =>
    have lower := (le_iff _ _).mp (UInt32.not_lt.mp lower)
    have covered : id < packet.firstSrcId → id < entry.cumulativeAck := by
      rw [lt_iff, lt_iff]
      omega
    tauto

theorem update_isAcked {entry after : ReceiverEntry} {packet : FeedbackPacket} (updated : entry.update packet = .ok after)
    {id : SourceSymbolId} : after.isAcked id = true ↔ entry.isAcked id = true ∨ packet.Acknowledges id := by
  rw [update_eq] at updated
  obtain ⟨ids, listed, promoted⟩ := Outcome.bind_eq_ok.mp updated
  have claimed : packet.Acknowledges id ↔ id < packet.firstSrcId ∨ id ∈ ids := by
    rw [FeedbackPacket.Acknowledges, listed]
    simp
  rw [promote_isAcked promoted, gathered_isAcked, claimed]

/-- An update ends exactly if the ids of the packet can be listed and leave some id unacknowledged. -/
theorem update_returns_iff {entry : ReceiverEntry} {packet : FeedbackPacket} :
    (∃ after, entry.update packet = .ok after) ↔
      ∃ ids, packet.ackedIds = .ok ids ∧ ∃ id, ¬ (entry.isAcked id = true ∨ id < packet.firstSrcId ∨ id ∈ ids) := by
  rw [update_eq]
  constructor
  · rintro ⟨after, updated⟩
    obtain ⟨ids, listed, promoted⟩ := Outcome.bind_eq_ok.mp updated
    obtain ⟨id, unacked⟩ := promote_open promoted
    exact ⟨ids, listed, id, gathered_isAcked.not.mp unacked⟩
  · rintro ⟨ids, listed, id, unacked⟩
    rw [listed, Outcome.ok_bind]
    exact promote_returns (Nat.lt_succ_self _) (gathered_isAcked.not.mpr unacked)

end ReceiverEntry

namespace ReceiverAckState

theorem isAcked_eq (state : ReceiverAckState) (receiver : ReceiverId) (id : SourceSymbolId) :
    state.isAcked receiver id = (state.receivers[receiver]?.getD {}).isAcked id := by
  rw [isAcked]
  cases state.receivers[receiver]? with
  | some entry => rfl
  | none =>
    rw [Option.any_none, Option.getD_none, eq_comm, Bool.eq_false_iff, ne_eq, ReceiverEntry.isAcked_iff, not_or]
    exact ⟨UInt32.not_lt_zero, Std.TreeSet.not_mem_emptyc⟩

theorem update_isAcked {state after : ReceiverAckState} {receiver other : ReceiverId} {packet : FeedbackPacket}
    (updated : state.update receiver packet = .ok after) {id : SourceSymbolId} :
    after.isAcked other id = true ↔ state.isAcked other id = true ∨ other = receiver ∧ packet.Acknowledges id := by
  obtain ⟨entry, advanced, same⟩ := Outcome.bind_eq_ok.mp updated
  cases same
  rw [isAcked, Std.TreeMap.getElem?_insert]
  split
  next here =>
    obtain rfl := Std.LawfulEqCmp.eq_of_compare here
    rw [Option.any_some, ReceiverEntry.update_isAcked advanced, isAcked_eq, eq_self, true_and]
  next apart =>
    have differ : other ≠ receiver := fun same => apart (Std.LawfulEqCmp.compare_eq_iff_eq.mpr same.symm)
    simp only [differ, false_and, or_false, isAcked]

theorem update_returns_iff {state : ReceiverAckState} {receiver : ReceiverId} {packet : FeedbackPacket} :
    (∃ after, state.update receiver packet = .ok after) ↔ ∃ ids, packet.ackedIds = .ok ids ∧
      ∃ id, ¬ (state.isAcked receiver id = true ∨ id < packet.firstSrcId ∨ id ∈ ids) := by
  simp only [isAcked_eq]
  rw [← ReceiverEntry.update_returns_iff, update]
  constructor
  · rintro ⟨after, updated⟩
    obtain ⟨entry, advanced, _⟩ := Outcome.bind_eq_ok.mp updated
    exact ⟨entry, advanced⟩
  · rintro ⟨entry, advanced⟩
    rw [advanced]
    exact ⟨_, rfl⟩

end ReceiverAckState
end Delp
