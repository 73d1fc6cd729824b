import Delp.Lib.OrderedKeys
import Delp.Proofs.Delivery
import Delp.Proofs.PacketRoundTrip
import Delp.Proofs.SackBits

/-! What a decoder's feedback says after a trip over the wire. -/

namespace Delp
open Machine

namespace FeedbackPacket

private theorem parse_layout {header : CommonHeader} {tsi : Option UInt32} (version : header.version = CommonHeader.currentVersion)
    (noCci : header.cciWords.toNat * 4 = 0) (hasTsi : header.hasTsi = tsi.isSome) (words : header.hdrLenWords.toNat * 4 ≤ 20)
    (missing unused first : UInt32) (plr size : UInt8) {tail : Bytes} (fits : size.toNat ≤ tail.length) :
    parse (header.toBytes ++ (tsiBytes tsi ++ (toBeBytes missing ++ (toBeBytes unused ++ (toBeBytes first ++
      plr :: size :: 0 :: 0 :: tail))))) = .ok ⟨tsi, missing, unused, first, plr, tail.take size.toNat⟩ := by
  have wrote := fronts (show _ = ([] : Bytes).length from noCci) hasTsi (toBeBytes missing ++ (toBeBytes unused ++ (toBeBytes first ++
    plr :: size :: 0 :: 0 :: tail)))
  rw [List.append_nil, List.append_assoc] at wrote
  generalize header.toBytes ++ (tsiBytes tsi ++ (toBeBytes missing ++ (toBeBytes unused ++ (toBeBytes first ++
    plr :: size :: 0 :: 0 :: tail)))) = buf at *
  have long : buf.length = header.bodyOffset + (tail.length + 16) := wrote.length
  have opens := wrote.opens version (by
    rw [← wrote.length, long, wrote.offset]
    omega)
  -- the parts of the body stand behind one another
  have byteAt (i : ℕ) : buf.getD (header.bodyOffset + i) 0 = (toBeBytes missing ++ (toBeBytes unused ++ (toBeBytes first ++
      plr :: size :: 0 :: 0 :: tail))).getD i 0 := by
    rw [← wrote.bodyAt, List.getD_eq_getElem?_getD, List.getD_eq_getElem?_getD, List.getElem?_drop]
  have partAt (i : ℕ) : buf.drop (header.bodyOffset + i) = (toBeBytes missing ++ (toBeBytes unused ++ (toBeBytes first ++
      plr :: size :: 0 :: 0 :: tail))).drop i := by
    rw [← List.drop_drop, wrote.bodyAt]
  have sizeAt : buf.getD (header.bodyOffset + 13) 0 = size := byteAt 13
  refine parse_eq_ok.mpr ⟨⟨opens, ?_, ?_⟩, ?_⟩
  · rw [wrote.opened]
    omega
  · rw [wrote.opened, sizeAt]
    omega
  · have session : (if header.hasTsi = true then some (fromBeBytes (buf.drop CommonHeader.size)) else none) = tsi := by
      have read := wrote.tsiAt
      rwa [CommonHeader.sessionId, noCci] at read
    have sack : buf.drop (header.bodyOffset + 16) = tail := partAt 16
    have plrAt : buf.getD (header.bodyOffset + 12) 0 = plr := byteAt 12
    rw [ofBytes, wrote.opened]
    rw [session, wrote.bodyAt, partAt 4, partAt 8, sack, plrAt, sizeAt, List.drop_left' (length_toBeBytes _),
      fromBeBytes_toBeBytes, fromBeBytes_toBeBytes]
    congr 1
    exact (fromBeBytes_toBeBytes first (plr :: size :: 0 :: 0 :: tail)).symm

/-- A feedback packet comes back with the SACK bytes that its length byte counts. -/
theorem parse_serialise (pkt : FeedbackPacket) :
    parse pkt.serialise = .ok { pkt with sack := pkt.sack.take (pkt.sack.length % 256) } := by
  obtain ⟨tsi, missing, unused, first, plr, sack⟩ := pkt
  obtain ⟨enough, _, _⟩ := pad32_le sack.length
  have padded : resize sack (pad32 sack.length) = sack ++ List.replicate (pad32 sack.length - sack.length) 0 := rfl
  have size : (UInt8.ofNat sack.length).toNat = sack.length % 256 := UInt8.toNat_ofNat'
  have small : sack.length % 256 ≤ sack.length := Nat.mod_le _ _
  obtain ⟨version, cciWords, hasTsi, _⟩ := CommonHeader.new_spells .feedback (show CciFits [] by decide) tsi.isSome
    (1 + tsi.isSome.toUInt8 + 2 + 1)
  have parsed := parse_layout version cciWords hasTsi (by cases tsi.isSome <;> decide) missing unused first plr
    (UInt8.ofNat sack.length) (show _ ≤ (resize sack (pad32 sack.length)).length by rw [padded, List.length_append]; omega)
  rw [size, padded, List.take_append_of_le_length small] at parsed
  rw [← parsed]
  simp only [serialise, padded, List.append_assoc, List.cons_append, List.nil_append]
  rfl

theorem setSackBit_eq {first id : UInt32} {sack : Bytes} (above : first ≤ id) (inside : (id - first).toNat < 8 * sack.length) :
    setSackBit first sack id = .ok (Bitmap.set sack (id - first).toNat) := by
  rw [setSackBit, if_neg (UInt32.not_lt.mpr above)]
  dsimp only
  rw [index_of (by omega)]
  rfl

/-- The SACK spans the ids up to the last one, and its set bits are their distances from the first. -/
theorem buildSack_spells {first : UInt32} {ids : List UInt32} (above : ∀ id ∈ ids, first ≤ id) {last : UInt32}
    (member : last ∈ ids) (bound : ∀ id ∈ ids, id ≤ last) :
    ∃ sack, buildSack first ids = .ok sack ∧ sack.length = (last - first).toNat / 8 + 1 ∧
      ∀ p, Bitmap.isSet sack p = true ↔ p ∈ ids.map fun id => (id - first).toNat := by
  obtain ⟨head, rest, rfl⟩ := List.exists_cons_of_ne_nil (List.ne_nil_of_mem member)
  have same : rest.foldl max head = last := by
    obtain ⟨inside, top⟩ := foldl_max head rest
    exact UInt32.le_antisymm (bound _ inside) (top last member)
  have length : ((last - first).toNat + 1 + 7) / 8 = (last - first).toNat / 8 + 1 := by omega
  obtain ⟨sack, marked, sized, bits⟩ := Outcome.foldlM_returns (setSackBit first) (head :: rest)
    (fun visited sack => sack.length = (last - first).toNat / 8 + 1 ∧
      ∀ p, Bitmap.isSet sack p = true ↔ p ∈ visited.map fun id => (id - first).toNat)
    (fun visited id later sack split kept => by
      have listed : id ∈ head :: rest := split ▸ List.mem_append_right visited List.mem_cons_self
      have inside : (id - first).toNat < 8 * sack.length := by
        have small := (le_iff _ _).mp (bound id listed)
        rw [kept.1, toNat_sub (above id listed), toNat_sub (above last member)]
        omega
      refine ⟨_, setSackBit_eq (above id listed) inside, by rw [Bitmap.length_set, kept.1], fun p => ?_⟩
      rw [Bitmap.isSet_set inside, Bool.or_eq_true, decide_eq_true_eq, kept.2, List.map_append, List.mem_append, List.map_singleton,
        List.mem_singleton, or_comm])
    (List.replicate ((last - first).toNat / 8 + 1) 0)
    ⟨List.length_replicate, fun p => by rw [Bitmap.isSet_replicate]; simp⟩
  refine ⟨sack, ?_, sized, bits⟩
  rw [buildSack]
  dsimp only
  rw [same, if_neg (UInt32.not_lt.mpr (above last member)), length]
  exact marked

theorem buildSack_ascending {first : UInt32} {ids : List UInt32} (above : ∀ id ∈ ids, first ≤ id)
    (ascending : ids.Pairwise (· < ·)) {sack : Bytes} (packed : buildSack first ids = .ok sack) :
    (∀ p, Bitmap.isSet sack p = true ↔ p ∈ ids.map fun id => (id - first).toNat) ∧
      ∀ last ∈ ids.getLast?, sack.length = (last - first).toNat / 8 + 1 ∧ ∀ id ∈ ids, id ≤ last := by
  cases found : ids.getLast? with
  | none =>
    rw [List.getLast?_eq_none_iff.mp found] at packed ⊢
    cases packed
    exact ⟨fun p => by simp [Bitmap.isSet], fun _ impossible => (nomatch impossible)⟩
  | some last =>
    have bound (id : SourceSymbolId) (listed : id ∈ ids) : id ≤ last := by
      obtain ⟨front, same⟩ := List.getLast?_eq_some_iff.mp found
      rw [same] at listed ascending
      rcases List.mem_append.mp listed with earlier | here
      · exact UInt32.le_of_lt ((List.pairwise_append.mp ascending).2.2 id earlier last (List.mem_singleton.mpr rfl))
      · rw [List.mem_singleton.mp here]
        exact UInt32.le_refl _
    obtain ⟨other, same, length, spelled⟩ := buildSack_spells above (List.mem_of_getLast? found) bound
    cases packed.symm.trans same
    exact ⟨spelled, fun _ here => Option.mem_some_iff.mp here ▸ ⟨length, bound⟩⟩

end FeedbackPacket

namespace Decoder
variable {P : Type}

/-- The ids that feedback reports: the first 256 that wait for delivery. -/
def reported (self : Decoder P) : List SourceSymbolId := (self.buffer.idsFrom self.buffer.nextDeliveryId).take 256

def Reports (self : Decoder P) (bytes : Bytes) : Prop :=
  ∃ packet missing, FeedbackPacket.parse bytes = .ok packet ∧ packet.firstSrcId = self.buffer.nextDeliveryId ∧
    self.countMissing = .ok missing ∧ packet.nbMissingSrc = missing ∧
    packet.nbNotUsedCoded = UInt32.ofNat self.matrix.rowCount ∧
    packet.plrRaw = FeedbackPacket.encodePlr self.loss.lossRate ∧ packet.ackedIds = .ok self.reported

theorem waiting_ascending (buffer : SymbolBuffer) (count : ℕ) :
    ((buffer.idsFrom buffer.nextDeliveryId).take count).Pairwise (· < ·) ∧
      ∀ id ∈ (buffer.idsFrom buffer.nextDeliveryId).take count, buffer.nextDeliveryId ≤ id := by
  refine ⟨((OrderedKeys.sorted _).filter _).sublist (List.take_sublist _ _), fun id member => ?_⟩
  simpa using (List.mem_filter.mp (List.mem_of_mem_take member)).2

theorem reported_ascending (self : Decoder P) :
    self.reported.Pairwise (· < ·) ∧ ∀ id ∈ self.reported, self.buffer.nextDeliveryId ≤ id :=
  waiting_ascending self.buffer 256

theorem ackedIds_cut {first : UInt32} {ids : List UInt32} (above : ∀ id ∈ ids, first ≤ id) (ascending : ids.Pairwise (· < ·))
    {pkt : FeedbackPacket} {sack : Bytes} {n : ℕ} (start : pkt.firstSrcId = first) (cut : pkt.sack = sack.take n)
    (spelled : ∀ p, Bitmap.isSet sack p = true ↔ p ∈ ids.map fun id => (id - first).toNat) :
    pkt.ackedIds = .ok (ids.filter fun id => decide ((id - first).toNat < 8 * n)) := by
  subst start
  have positions : Bitmap.positions pkt.sack =
      (ids.filter fun id => decide ((id - pkt.firstSrcId).toNat < 8 * n)).map fun id => (id - pkt.firstSrcId).toNat := by
    refine Bitmap.positions_eq ?_ fun p => ?_
    · refine List.pairwise_map.mpr ((ascending.imp_of_mem fun {a b} left right less => ?_).filter _)
      have less := (lt_iff _ _).mp less
      have low := (le_iff _ _).mp (above a left)
      rw [toNat_sub (above a left), toNat_sub (above b right)]
      omega
    · rw [cut, Bitmap.isSet_take, Bool.and_eq_true, decide_eq_true_eq, spelled]
      simp only [List.mem_map, List.mem_filter, decide_eq_true_eq]
      constructor
      · rintro ⟨within, id, member, rfl⟩
        exact ⟨id, ⟨member, within⟩, rfl⟩
      · rintro ⟨id, ⟨member, within⟩, rfl⟩
        exact ⟨within, id, member, rfl⟩
  rw [FeedbackPacket.ackedIds_eq, positions, List.map_map]
  · congr 1
    refine (List.map_congr_left fun id member => ?_).trans (List.map_id _)
    rw [Function.comp_apply, UInt32.ofNat_toNat, UInt32.add_comm, UInt32.sub_add_cancel]
    rfl
  · intro p member
    rw [positions] at member
    obtain ⟨id, kept, rfl⟩ := List.mem_map.mp member
    have low := above id (List.mem_of_mem_filter kept)
    have small := id.toNat_lt
    rw [toNat_sub low]
    have low := (le_iff _ _).mp low
    omega

/-- Whatever is cut off its SACK, feedback acknowledges the ids below the delivery pointer and buffered ones. -/
theorem Feedback.acknowledges {buffer : SymbolBuffer} {feedback : List DecoderEvent} (kind : Feedback buffer feedback) {bytes : Bytes}
    (sent : .sendFeedback bytes ∈ feedback) {packet : FeedbackPacket} (parsed : FeedbackPacket.parse bytes = .ok packet) :
    packet.firstSrcId = buffer.nextDeliveryId ∧ ∀ ids, packet.ackedIds = .ok ids → ∀ id ∈ ids, id ∈ buffer.symbols := by
  rcases kind with rfl | ⟨missing, unused, loss, pkt, built, rfl⟩
  · cases sent
  cases List.mem_singleton.mp sent
  obtain ⟨sack, packed, same⟩ := Outcome.bind_eq_ok.mp built
  cases same
  cases parsed.symm.trans (FeedbackPacket.parse_serialise _)
  refine ⟨rfl, fun ids acked id listed => ?_⟩
  obtain ⟨ascending, above⟩ := waiting_ascending buffer 256
  obtain ⟨spelled, _⟩ := FeedbackPacket.buildSack_ascending above ascending packed
  rw [ackedIds_cut above ascending rfl rfl spelled] at acked
  cases acked
  exact Std.TreeMap.mem_keys.mp (List.mem_of_mem_filter (List.mem_of_mem_take (List.mem_of_mem_filter listed)))

variable [FeedbackPolicy P]

/-- Feedback is parsed to what the decoder knows exactly if the ids that it reports lie close
enough together for the length byte of the SACK. -/
theorem feedback_reports_iff {self after : Decoder P} {bytes : Bytes}
    (sent : self.maybeSendFeedback = .ok (after, [.sendFeedback bytes])) :
    self.Reports bytes ↔ ∀ last ∈ self.reported.getLast?, last.toNat - self.buffer.nextDeliveryId.toNat < 2040 := by
  obtain ⟨state, made, sent⟩ := Outcome.bind_eq_ok.mp sent
  dsimp only at sent
  split at sent
  swap
  · cases sent
  obtain ⟨missing, counted, sent⟩ := Outcome.bind_eq_ok.mp sent
  obtain ⟨pkt, built, same⟩ := Outcome.bind_eq_ok.mp sent
  cases same
  obtain ⟨sack, packed, same⟩ := Outcome.bind_eq_ok.mp built
  cases same
  have parsed := FeedbackPacket.parse_serialise ⟨none, missing, UInt32.ofNat self.matrix.rowCount, self.buffer.nextDeliveryId,
    FeedbackPacket.encodePlr self.loss.lossRate, sack⟩
  have reports : self.Reports (FeedbackPacket.serialise ⟨none, missing, UInt32.ofNat self.matrix.rowCount,
      self.buffer.nextDeliveryId, FeedbackPacket.encodePlr self.loss.lossRate, sack⟩) ↔
      FeedbackPacket.ackedIds ⟨none, missing, UInt32.ofNat self.matrix.rowCount, self.buffer.nextDeliveryId,
        FeedbackPacket.encodePlr self.loss.lossRate, sack.take (sack.length % 256)⟩ = .ok self.reported := by
    constructor
    · rintro ⟨packet, _, returned, _, _, _, _, _, acked⟩
      cases parsed.symm.trans returned
      exact acked
    · exact fun acked => ⟨_, missing, parsed, rfl, counted, rfl, rfl, rfl, acked⟩
  refine reports.trans ?_
  obtain ⟨ascending, above⟩ := self.reported_ascending
  have packed : FeedbackPacket.buildSack self.buffer.nextDeliveryId self.reported = .ok sack := packed
  obtain ⟨spelled, sized⟩ := FeedbackPacket.buildSack_ascending above ascending packed
  rw [ackedIds_cut above ascending rfl rfl spelled, Outcome.ok.injEq, List.filter_eq_self]
  simp only [decide_eq_true_eq]
  constructor
  · intro all last found
    obtain ⟨length, _⟩ := sized last found
    have member := List.mem_of_getLast? found
    have reach := all last member
    rw [← toNat_sub (above last member)]
    rw [length] at reach
    omega
  · intro small id listed
    obtain ⟨last, found⟩ := Option.ne_none_iff_exists'.mp (mt List.getLast?_eq_none_iff.mp (List.ne_nil_of_mem listed))
    obtain ⟨length, bound⟩ := sized last found
    have near := small last found
    have order := (le_iff _ _).mp (bound id listed)
    rw [length, toNat_sub (above last (List.mem_of_getLast? found)), toNat_sub (above id listed), Nat.mod_eq_of_lt (by omega)]
    omega

private def soleFeedback : List DecoderEvent → Option Bytes
  | [.sendFeedback bytes] => some bytes
  | _ => none

private theorem soleFeedback_eq {events : List DecoderEvent} {bytes : Bytes} (sole : soleFeedback events = some bytes) :
    events = [.sendFeedback bytes] := by
  unfold soleFeedback at sole
  split at sole
  · cases sole
    rfl
  · cases sole

theorem feedback_reports_iff_gap :
    ∃ calls final after bytes, Run handle (small 512) calls final ∧ final.reported = [2, 3, 7] ∧
      final.maybeSendFeedback = .ok (after, [.sendFeedback bytes]) ∧ final.Reports bytes := by
  obtain ⟨calls, final, run, check⟩ := Run.exists_of_check handle (small 512)
    [.source (.plain 7 [1]), .source (.plain 2 [1]), .source (.plain 3 [1])]
    (fun result => decide (result.2.reported = [2, 3, 7]) && result.2.maybeSendFeedback.passes fun sent =>
      (soleFeedback sent.2).isSome) (by decide +kernel)
  obtain ⟨ids, sent⟩ := Bool.and_eq_true_iff.mp check
  have ids : final.reported = [2, 3, 7] := of_decide_eq_true ids
  obtain ⟨⟨after, events⟩, sent, shape⟩ := Outcome.passes_iff.mp sent
  obtain ⟨bytes, sole⟩ := Option.isSome_iff_exists.mp shape
  cases soleFeedback_eq sole
  refine ⟨calls, final, after, bytes, run, ids, sent, (feedback_reports_iff sent).mpr fun last here => ?_⟩
  rw [ids] at here
  cases here
  exact Nat.lt_of_le_of_lt (Nat.sub_le _ _) (by decide)

/-- One symbol 2040 ids ahead needs 256 bytes of SACK, and its length byte says zero. -/
theorem feedback_reports_fails :
    ∃ calls final after bytes, Run handle (small 512) calls final ∧ final.reported = [2040] ∧
      final.maybeSendFeedback = .ok (after, [.sendFeedback bytes]) ∧ ¬ final.Reports bytes := by
  obtain ⟨calls, final, run, check⟩ := Run.exists_of_check handle (small 512) [.source (.plain 2040 [1])]
    (fun result => decide (result.2.reported = [2040]) && result.2.maybeSendFeedback.passes fun sent =>
      (soleFeedback sent.2).any fun bytes => (FeedbackPacket.parse bytes).passes fun packet =>
        packet.ackedIds.passes (·.isEmpty)) (by decide +kernel)
  obtain ⟨ids, sent⟩ := Bool.and_eq_true_iff.mp check
  have ids : final.reported = [2040] := of_decide_eq_true ids
  obtain ⟨⟨after, events⟩, sent, shape⟩ := Outcome.passes_iff.mp sent
  obtain ⟨bytes, sole, shape⟩ := (Option.any_eq_true _ _).mp shape
  cases soleFeedback_eq sole
  refine ⟨calls, final, after, bytes, run, ids, sent, fun reports => ?_⟩
  obtain ⟨packet, parsed, acked⟩ := Outcome.passes_iff.mp shape
  obtain ⟨_, _, same, _, _, _, _, _, claimed⟩ := reports
  cases parsed.symm.trans same
  obtain ⟨empty, acked, none⟩ := Outcome.passes_iff.mp acked
  cases acked.symm.trans claimed
  rw [ids] at none
  cases none

end Decoder
end Delp
