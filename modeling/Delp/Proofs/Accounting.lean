import Delp.Proofs.DecoderShape

/-! Every id behind the delivery pointer is accounted for exactly once, as a delivered symbol or
as part of one reported gap. -/

namespace Delp
open Machine

def DecoderEvent.deliveredId : DecoderEvent → Option SourceSymbolId
  | .sourceReady id _ => some id
  | _ => none

def DecoderEvent.gap : DecoderEvent → Option (SourceSymbolId × UInt32)
  | .unrecoverableGap first count => some (first, count)
  | _ => none

def Reply.events : Reply → List DecoderEvent
  | .ok events => events
  | .error _ => []

def spansId (id : SourceSymbolId) (range : SourceSymbolId × UInt32) : Bool :=
  decide (range.1 ≤ id ∧ id.toNat < range.1.toNat + range.2.toNat)

namespace Decoder
variable {P : Type} [FeedbackPolicy P]

def delivered (calls : List (Call (Decoder P) Arrival Reply)) : List SourceSymbolId :=
  calls.flatMap fun call => call.output.events.filterMap (·.deliveredId)

def gaps (calls : List (Call (Decoder P) Arrival Reply)) : List (SourceSymbolId × UInt32) :=
  calls.flatMap fun call => call.output.events.filterMap (·.gap)

/-- How often an id has been delivered or reported as lost. -/
def tally (calls : List (Call (Decoder P) Arrival Reply)) (id : SourceSymbolId) : ℕ :=
  (delivered calls).count id + (gaps calls).countP (spansId id)

end Decoder

/-- An arrival whose ids lie below `u32::MAX`, and whose coefficients lie in the field. -/
def Arrival.Regular (field : Config.Field) : Arrival → Prop
  | .source packet => packet.sourceSymbolId < 0xFFFFFFFF
  | .coded packet => (∀ id ∈ packet.ev.sourceIds, id < 0xFFFFFFFF) ∧
    ∀ id c, DecodingMatrix.Lists packet.ev id c → Gf.InField field c

namespace SymbolBuffer.Settles
variable {buffer drained : SymbolBuffer} {out : List (SourceSymbolId × Bytes)} {floor : SourceSymbolId}

theorem next_eq (settles : Settles buffer drained out floor) (maxless : (0xFFFFFFFF : SourceSymbolId) ∉ buffer.symbols) :
    drained.nextDeliveryId.toNat = buffer.nextDeliveryId.toNat + out.length := by
  have fits := settles.drains.fits
  refine settles.drains.pointer_of_lt ?_
  by_contra beyond
  refine maxless (settles.drains.out_subset (settles.drains.mem_out.mpr ⟨?_, ?_⟩))
  · have bounded := toNat_lt buffer.nextDeliveryId
    rw [le_iff]
    change _ ≤ 4294967295
    omega
  · change 4294967295 < _
    omega

theorem ids_sorted (settles : Settles buffer drained out floor) : (out.map (·.1)).Pairwise (· < ·) := by
  have sorted : (out.map (·.1.toNat)).Pairwise (· < ·) := by
    rw [settles.drains.ids]
    exact List.pairwise_lt_range'
  rw [List.pairwise_map] at sorted ⊢
  exact sorted.imp fun {first second} below => by rwa [lt_iff]

/-- The ids that a settling buffer delivers and the gap it reports are those the pointer passes. -/
theorem tally (settles : Settles buffer drained out floor) (maxless : (0xFFFFFFFF : SourceSymbolId) ∉ buffer.symbols)
    (id : SourceSymbolId) :
    (out.map (·.1)).count id + ((buffer.gapTo floor).filterMap (·.gap)).countP (spansId id) =
      if buffer.nextDeliveryId ≤ id ∧ id < (buffer.settle floor).nextDeliveryId then 1 else 0 := by
  have pointer := settles.next_eq maxless
  have distinct : (out.map (·.1)).Nodup := settles.ids_sorted.imp fun {first second} below same => by
    rw [lt_iff, same] at below
    omega
  have ready : (out.map (·.1)).count id =
      if buffer.nextDeliveryId ≤ id ∧ id.toNat < drained.nextDeliveryId.toNat then 1 else 0 := by
    rw [distinct.count, pointer]
    simp only [settles.drains.mem_out]
  rw [ready]
  rcases settles.ends with ⟨_, same, none⟩ | ⟨above, same, gap⟩
  · rw [same, none]
    simp only [List.filterMap_nil, List.countP_nil, Nat.add_zero, lt_iff]
  · have ordered : drained.nextDeliveryId ≤ floor := by
      rw [lt_iff] at above
      rw [le_iff]
      omega
    have width := toNat_sub ordered
    rw [same, pruned_next above, gap]
    simp only [List.filterMap_cons, DecoderEvent.gap, List.filterMap_nil, List.countP_singleton, spansId, decide_eq_true_eq]
    rw [lt_iff] at above
    rw [le_iff] at ordered
    simp only [lt_iff, le_iff]
    split <;> split <;> split <;> omega

theorem settled_le (settles : Settles buffer drained out floor) :
    drained.nextDeliveryId ≤ (buffer.settle floor).nextDeliveryId := by
  rcases settles.ends with ⟨_, same, _⟩ | ⟨above, same, _⟩
  · rw [same]
    exact Nat.le_refl _
  · rw [same, pruned_next above]
    rw [lt_iff] at above
    rw [le_iff]
    omega

end SymbolBuffer.Settles

namespace Decoder
variable {P : Type} [FeedbackPolicy P] {config : DecoderConfig}

omit [FeedbackPolicy P] in
theorem Takes.events_eq {before after : Decoder P} {arrival : Arrival} {matrix : DecodingMatrix}
    {gained : List (SourceSymbolId × Bytes)} {events : List DecoderEvent}
    (takes : before.Takes arrival matrix gained after events) :
    events.filterMap (·.deliveredId) = (before.buffer.absorb gained).drainDeliverable.2.map (·.1) ∧
      events.filterMap (·.gap) = ((before.buffer.absorb gained).gapTo (before.floor arrival)).filterMap (·.gap) := by
  obtain ⟨feedback, kind, rfl⟩ := takes.events
  have silent : feedback.filterMap (·.deliveredId) = [] ∧ feedback.filterMap (·.gap) = [] := by
    rcases kind with rfl | ⟨_, _, _, _, _, rfl⟩ <;> exact ⟨rfl, rfl⟩
  have ready : (before.buffer.absorb gained).readyEvents.filterMap (·.deliveredId) =
      (before.buffer.absorb gained).drainDeliverable.2.map (·.1) ∧
      (before.buffer.absorb gained).readyEvents.filterMap (·.gap) = [] := by
    simp [SymbolBuffer.readyEvents, List.filterMap_map, DecoderEvent.deliveredId, DecoderEvent.gap]
  have noReady : ((before.buffer.absorb gained).gapTo (before.floor arrival)).filterMap (·.deliveredId) = [] := by
    unfold SymbolBuffer.gapTo
    dsimp only
    split <;> rfl
  simp only [List.filterMap_append, silent.1, silent.2, ready.1, ready.2, noReady, List.append_nil, List.nil_append, and_self]

structure Accounted (config : DecoderConfig) (calls : List (Call (Decoder P) Arrival Reply)) (state : Decoder P) : Prop where
  shaped : state.Shaped config
  maxless : (0xFFFFFFFF : SourceSymbolId) ∉ state.buffer.symbols
  sorted : (delivered calls).Pairwise (· < ·)
  tally : ∀ id, tally calls id = if id < state.buffer.nextDeliveryId then 1 else 0

omit [FeedbackPolicy P] in
theorem accepted_below {before : Decoder P} (shaped : before.Shaped config) {arrival : Arrival}
    (regular : arrival.Regular config.field) {matrix : DecodingMatrix} {gained : List (SourceSymbolId × Bytes)}
    (accepted : before.accept arrival = .ok (matrix, gained)) :
    Gains config before arrival matrix gained ∧ ∀ symbol ∈ gained, symbol.1 < 0xFFFFFFFF := by
  have sized := shaped.sameConfig ▸ accept_sized accepted
  cases arrival with
  | source packet =>
    obtain ⟨_, _, gains⟩ := accept_source shaped sized
    cases accepted.symm.trans gains.accepted
    refine ⟨gains, fun symbol member => ?_⟩
    rcases gains.below symbol member with below | ⟨other, same, own⟩
    · exact below
    · cases same
      exact own ▸ regular
  | coded packet =>
    have right : ¬ packet.payload.length ≠ before.config.symbolSize := not_not.mpr (shaped.sameConfig ▸ sized)
    have added := accepted
    rw [accept, if_neg right] at added
    obtain ⟨_, reduced, _⟩ := Outcome.bind_eq_ok.mp added
    obtain ⟨map, read, _⟩ := Outcome.bind_eq_ok.mp reduced
    have fits : DecodingMatrix.CoefficientsFit config.field map := by
      refine ⟨fun id member => ?_, fun id c found => regular.2 id c (DecodingMatrix.coefMap_lists read found)⟩
      obtain ⟨c, found⟩ := Option.isSome_iff_exists.mp (Std.TreeMap.mem_iff_isSome_getElem?.mp member)
      obtain ⟨i, listed, _⟩ := DecodingMatrix.coefMap_lists read found
      exact regular.1 id (List.mem_of_getElem? listed)
    obtain ⟨_, _, gains⟩ := accept_coded shaped read fits sized
    cases accepted.symm.trans gains.accepted
    refine ⟨gains, fun symbol member => ?_⟩
    rcases gains.below symbol member with below | ⟨_, same, _⟩
    · exact below
    · cases same

omit [FeedbackPolicy P] in
theorem Accounted.settled {calls : List (Call (Decoder P) Arrival Reply)} {before after : Decoder P}
    (accounted : Accounted config calls before) {arrival : Arrival} (regular : arrival.Regular config.field)
    {matrix : DecodingMatrix} {gained : List (SourceSymbolId × Bytes)} {events : List DecoderEvent}
    (takes : before.Takes arrival matrix gained after events) :
    (0xFFFFFFFF : SourceSymbolId) ∉ (before.buffer.absorb gained).symbols ∧
      SymbolBuffer.Settles (before.buffer.absorb gained) (before.buffer.absorb gained).drainDeliverable.1
        (before.buffer.absorb gained).drainDeliverable.2 (before.floor arrival) ∧
      (before.buffer.absorb gained).drainDeliverable.1.nextDeliveryId.toNat =
        before.buffer.nextDeliveryId.toNat + (before.buffer.absorb gained).drainDeliverable.2.length := by
  have below := (accepted_below accounted.shaped regular takes.accepted).2
  have maxless : (0xFFFFFFFF : SourceSymbolId) ∉ (before.buffer.absorb gained).symbols := by
    intro member
    rcases SymbolBuffer.mem_absorb.mp member with held | ⟨entered, _⟩
    · exact accounted.maxless held
    · obtain ⟨symbol, listed, last⟩ := List.mem_map.mp entered
      exact absurd (last ▸ below symbol listed) (by decide)
  have settles := SymbolBuffer.settles (SymbolBuffer.absorb_ahead accounted.shaped.ahead gained) (before.floor arrival)
  have pointer := settles.next_eq maxless
  rw [SymbolBuffer.absorb_next] at pointer
  exact ⟨maxless, settles, pointer⟩

theorem Accounted.call {calls : List (Call (Decoder P) Arrival Reply)} {before after : Decoder P}
    (accounted : Accounted config calls before) {arrival : Arrival} (regular : arrival.Regular config.field) {reply : Reply}
    (handled : before.handle arrival = .ok (after, reply)) :
    Accounted config (calls ++ [⟨before, arrival, after, reply⟩]) after := by
  have extended : delivered (calls ++ [⟨before, arrival, after, reply⟩]) =
      delivered calls ++ reply.events.filterMap (·.deliveredId) ∧
      gaps (calls ++ [⟨before, arrival, after, reply⟩]) = gaps calls ++ reply.events.filterMap (·.gap) := by
    simp [delivered, gaps]
  cases reply with
  | error error =>
    have refuses := handle_error handled
    refine ⟨refuses.shaped accounted.shaped, refuses.buffer ▸ accounted.maxless, ?_, fun id => ?_⟩
    · rw [extended.1]
      simpa [Reply.events] using accounted.sorted
    · rw [Decoder.tally, extended.1, extended.2, refuses.buffer]
      simpa [Reply.events, Decoder.tally] using accounted.tally id
  | ok events =>
    obtain ⟨matrix, gained, takes⟩ := handle_ok handled
    obtain ⟨gains, below⟩ := accepted_below accounted.shaped regular takes.accepted
    obtain ⟨maxless, settles, pointer⟩ := accounted.settled regular takes
    have settled := settles.settled_le
    rw [le_iff] at settled
    obtain ⟨ready, lost⟩ := takes.events_eq
    refine ⟨takes.shaped accounted.shaped gains fun symbol member last => absurd (last ▸ below symbol member) (by decide),
      ?_, ?_, fun id => ?_⟩
    · rw [takes.buffer]
      intro member
      rcases settles.ends with ⟨_, same, _⟩ | ⟨_, same, _⟩
      · exact maxless (settles.drains.mem_rest.mp (same ▸ member)).2
      · exact maxless (settles.drains.mem_rest.mp (SymbolBuffer.mem_pruneBelow.mp (same ▸ member)).1).2
    · rw [extended.1, Reply.events, ready]
      refine List.pairwise_append.mpr ⟨accounted.sorted, settles.ids_sorted, fun old member new later => ?_⟩
      have behind : old < before.buffer.nextDeliveryId := by
        by_contra beyond
        have once := accounted.tally old
        rw [if_neg beyond, Decoder.tally] at once
        have positive := List.count_pos_iff.mpr member
        omega
      have start := (settles.drains.mem_out.mp later).1
      rw [SymbolBuffer.absorb_next, le_iff] at start
      rw [lt_iff] at *
      omega
    · have step := settles.tally maxless id
      have once := accounted.tally id
      rw [SymbolBuffer.absorb_next] at step
      rw [Decoder.tally] at once ⊢
      rw [extended.1, extended.2, Reply.events, ready, lost, List.count_append, List.countP_append, takes.buffer]
      simp only [lt_iff, le_iff] at once step ⊢
      split at once <;> split at step <;> split <;> omega

section Runs
variable {policy : P} {calls : List (Call (Decoder P) Arrival Reply)} {final : Decoder P}

/-- Deliveries are in order over the whole run, and an id has been delivered or reported as lost
once when it lies behind the delivery pointer, and never when it does not. -/
theorem exactly_once (run : Run handle (new config policy) calls final)
    (regular : ∀ call ∈ calls, call.input.Regular config.field) :
    (delivered calls).Pairwise (· < ·) ∧
      ∀ id, tally calls id = if id < final.buffer.nextDeliveryId then 1 else 0 := by
  have accounted := run.preserves (Accounted config) (fun call => call.input.Regular config.field)
    ⟨new_shaped config policy, by simp [new, SymbolBuffer.new], List.Pairwise.nil, fun id => by
      have start : ¬ id < (new config policy).buffer.nextDeliveryId := by
        rw [lt_iff]
        exact Nat.not_lt_zero _
      rw [if_neg start]
      rfl⟩
    (fun _ _ _ _ _ accounted handled regular => accounted.call regular handled) regular
  exact ⟨accounted.sorted, accounted.tally⟩

end Runs

/-- Symbol 0 is delivered, and a packet about symbol 5 alone reports the gap from 1 to 5. -/
theorem exactly_once_fifth : ∃ calls final, Run handle (small 512) calls final ∧ final.buffer.nextDeliveryId = 5 ∧
    (delivered calls).Pairwise (· < ·) ∧
      ∀ id, tally calls id = if id < final.buffer.nextDeliveryId then 1 else 0 := by
  obtain ⟨calls, final, run, checked⟩ := Run.exists_of_check handle (small 512)
    [.source (.plain 0 [7]), .coded fifthAlone]
    (fun reached => reached.2.buffer.nextDeliveryId == 5 &&
      reached.1.all fun call => call.input == .source (.plain 0 [7]) || call.input == .coded fifthAlone)
    (by decide +kernel)
  obtain ⟨next, inputs⟩ := Bool.and_eq_true_iff.mp checked
  refine ⟨calls, final, run, eq_of_beq next, exactly_once run fun call member => ?_⟩
  rcases Bool.or_eq_true_iff.mp (List.all_eq_true.mp inputs call member) with source | coded
  · rw [eq_of_beq source]
    exact (by decide : (0 : SourceSymbolId) < 0xFFFFFFFF)
  · rw [eq_of_beq coded]
    refine ⟨fun id member => ?_, fun id c lists => ?_⟩
    · rw [List.mem_singleton.mp (show id ∈ [5] from member)]
      decide
    · rw [(fifthAlone_lists lists).2]
      exact Gf.inField_one

end Decoder
end Delp
