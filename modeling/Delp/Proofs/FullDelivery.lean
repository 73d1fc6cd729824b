import Delp.Proofs.LossRepair

/-! Until it reports a gap, a decoder has delivered all up to the first symbol that it does not know. What it
knows does not depend on the order in which packets come, nor on how often. -/

namespace Delp
open Machine

namespace Decoder
variable {P : Type} [FeedbackPolicy P] {config : DecoderConfig}

/-- A decoder that has skipped nothing: it holds what it knows, from the first symbol on that it does not know. -/
structure CaughtUp (state : Decoder P) : Prop where
  buffered : ∀ id, id ∈ state.buffer.symbols ↔ id ∈ state.known ∧ state.buffer.nextDeliveryId ≤ id
  behind : ∀ id < state.buffer.nextDeliveryId, id ∈ state.known
  next : state.buffer.nextDeliveryId ∉ state.known
  floor : state.encoderWinMin ≤ state.buffer.nextDeliveryId

theorem CaughtUp.settled {calls : List (Call (Decoder P) Arrival Reply)} {before after : Decoder P} (caught : before.CaughtUp)
    (accounted : Accounted config calls before) {arrival : Arrival} (regular : arrival.Regular config.field)
    {events : List DecoderEvent} (handled : before.handle arrival = .ok (after, .ok events)) :
    ∃ matrix gained, before.Takes arrival matrix gained after events ∧
      SymbolBuffer.Settles (before.buffer.absorb gained) (before.buffer.absorb gained).drainDeliverable.1
        (before.buffer.absorb gained).drainDeliverable.2 (before.floor arrival) ∧
      (before.buffer.absorb gained).drainDeliverable.1.nextDeliveryId.toNat =
        before.buffer.nextDeliveryId.toNat + (before.buffer.absorb gained).drainDeliverable.2.length ∧
      (∀ id ∈ before.known, id ∈ after.known) ∧
      ∀ id, before.buffer.nextDeliveryId ≤ id → (id ∈ (before.buffer.absorb gained).symbols ↔ id ∈ after.known) := by
  obtain ⟨matrix, gained, takes⟩ := handle_ok handled
  obtain ⟨_, settles, pointer⟩ := accounted.settled regular takes
  have learned (id : SourceSymbolId) : id ∈ after.known ↔ id ∈ before.known ∨ id ∈ gained.map (·.1) := by
    rw [takes.known, KnownSources.mem_learn]
  refine ⟨matrix, gained, takes, settles, pointer, fun id known => (learned id).mpr (.inl known), fun id start => ?_⟩
  rw [SymbolBuffer.mem_absorb, learned, caught.buffered]
  simp only [start, and_true]

theorem CaughtUp.call {calls : List (Call (Decoder P) Arrival Reply)} {before after : Decoder P} (caught : before.CaughtUp)
    (accounted : Accounted config calls before) {arrival : Arrival} (regular : arrival.Regular config.field)
    {events : List DecoderEvent} (handled : before.handle arrival = .ok (after, .ok events))
    (whole : events.filterMap (·.gap) = []) : after.CaughtUp := by
  obtain ⟨matrix, gained, takes, settles, pointer, grown, absorbed⟩ := caught.settled accounted regular handled
  rcases settles.ends with ⟨stays, same, _⟩ | ⟨_, _, gap⟩
  · have buffer := takes.buffer.trans same
    have grows : before.buffer.nextDeliveryId ≤ after.buffer.nextDeliveryId := by
      rw [buffer, le_iff]
      omega
    have buffered (id : SourceSymbolId) : id ∈ after.buffer.symbols ↔ id ∈ after.known ∧ after.buffer.nextDeliveryId ≤ id := by
      rw [buffer, settles.drains.mem_rest, SymbolBuffer.absorb_next, ← pointer, ← buffer, ← le_iff, and_comm]
      exact and_congr_left fun start => absorbed id (UInt32.le_trans grows start)
    refine ⟨buffered, fun id passed => ?_, fun known => ?_, ?_⟩
    · by_cases earlier : id < before.buffer.nextDeliveryId
      · exact grown id (caught.behind id earlier)
      · have start : before.buffer.nextDeliveryId ≤ id := by
          rw [lt_iff] at earlier
          rw [le_iff]
          omega
        refine (absorbed id start).mp (settles.drains.out_subset (settles.drains.mem_out.mpr ?_))
        rw [SymbolBuffer.absorb_next, ← pointer, ← buffer, ← lt_iff]
        exact ⟨start, passed⟩
    · have held := (buffered _).mpr ⟨known, UInt32.le_refl _⟩
      rw [buffer] at held
      exact settles.stuck held
    · rw [takes.winMin, buffer]
      exact stays
  · rw [takes.events_eq.2, gap] at whole
    cases whole

variable {policy : P} {calls : List (Call (Decoder P) Arrival Reply)} {final : Decoder P}

theorem run_caughtUp (run : Run handle (new config policy) calls final) (regular : ∀ call ∈ calls, call.input.Regular config.field)
    (taken : ∀ call ∈ calls, ∃ events, call.output = .ok events) (whole : gaps calls = []) : final.CaughtUp := by
  refine (run.preserves (fun calls state => Accounted config calls state ∧ (gaps calls = [] → state.CaughtUp))
    (fun call => call.input.Regular config.field ∧ ∃ events, call.output = .ok events) ⟨run_accounted .start (by simp), fun _ => ?_⟩ ?_
    fun call member => ⟨regular call member, taken call member⟩).2 whole
  · refine ⟨fun id => ?_, fun id below => absurd below UInt32.not_lt_zero, ?_, UInt32.le_refl _⟩
    · simp [new, SymbolBuffer.new]
    · simp [new]
  · intro calls before arrival after reply kept handled allowed
    obtain ⟨regular, events, replied⟩ := allowed
    dsimp only at replied
    subst replied
    refine ⟨kept.1.call regular handled, fun whole => ?_⟩
    rw [gaps, List.flatMap_append, List.append_eq_nil_iff] at whole
    refine (kept.2 whole.1).call kept.1 regular handled ?_
    simpa [Reply.events] using whole.2

theorem run_floor (run : Run handle (new config policy) calls final) (taken : ∀ call ∈ calls, ∃ events, call.output = .ok events)
    {call : Call (Decoder P) Arrival Reply} (member : call ∈ calls) {packet : CodedPacket} (input : call.input = .coded packet)
    {first : SourceSymbolId} (head : first ∈ packet.ev.sourceIds.head?) : first ≤ final.encoderWinMin := by
  refine run.preserves (fun calls state => ∀ call ∈ calls, ∀ packet, call.input = .coded packet →
      ∀ first ∈ packet.ev.sourceIds.head?, first ≤ state.encoderWinMin) (fun call => ∃ events, call.output = .ok events)
    (fun _ member => (List.not_mem_nil member).elim) ?_ taken call member packet input first head
  intro calls before arrival after reply kept handled allowed call member packet input first head
  obtain ⟨events, replied⟩ := allowed
  dsimp only at replied
  subst replied
  obtain ⟨matrix, gained, takes⟩ := handle_ok handled
  rw [takes.winMin]
  rcases List.mem_append.mp member with old | new
  · have earlier := kept call old packet input first head
    rcases before.floor_eq arrival with same | ⟨_, _, _, raised⟩
    · exact same ▸ earlier
    · rw [lt_iff] at raised
      rw [le_iff] at *
      omega
  · cases List.mem_singleton.mp new
    dsimp only at input
    rw [input, floor, raiseWinMin, show packet.ev.sourceIds.head? = some first from head]
    dsimp only
    split
    · exact UInt32.le_refl _
    next lower =>
      rw [gt_iff_lt, lt_iff] at lower
      rw [le_iff]
      omega

end Decoder

namespace Network
variable {W C F P : Type} [WindowPolicy W] [CongestionControl C] [FecRateController F] [FeedbackPolicy P]
  {config : EncoderConfig} {windowPolicy : W} {cc : C} {fec : F} {receivers : ReceiverId → DecoderConfig × P}
  {calls : List (Call (Network W C F P) NetworkAction NetworkReply)} {final : Network W C F P}

/-- A receiver to which no source packet comes late is caught up until it reports a gap. -/
theorem receiver_caughtUp (run : Run step (new config windowPolicy cc fec receivers) calls final)
    (fits : ∀ call ∈ calls, CoversFit call) (few : (accepted calls).length < 4294967296) {receiver : ReceiverId}
    (matched : (receivers receiver).1.Matches config) (first : Arrival.SourcesFirst ((arrivals receiver calls).map (·.input)))
    (whole : Decoder.gaps (arrivals receiver calls) = []) : (final.decoders receiver).CaughtUp := by
  refine Decoder.run_caughtUp (receiver_run run receiver) (fun own member => ?_) (conveys run fits few matched first).taken whole
  obtain ⟨carries, below⟩ := arrivals_true run fits few matched member
  refine carries.regular fun id held => ?_
  have inside := below id held
  rw [lt_iff, show (0xFFFFFFFF : UInt32).toNat = 4294967295 from rfl]
  omega

/-- A receiver that has read every packet that another one has knows what the other knows, in whatever order and however
often they came to either; without gaps it has delivered at least as much. -/
theorem more_read_more_known (run : Run step (new config windowPolicy cc fec receivers) calls final)
    (fits : ∀ call ∈ calls, CoversFit call) (few : (accepted calls).length < 4294967296) (one other : ReceiverId)
    (matched : ∀ receiver ∈ [one, other], (receivers receiver).1.Matches config)
    (first : ∀ receiver ∈ [one, other], Arrival.SourcesFirst ((arrivals receiver calls).map (·.input)))
    (room : ∀ own ∈ arrivals other calls, own.before.matrix.rowCount < (receivers other).1.maxMatrixRows)
    (more : ∀ own ∈ arrivals one calls, ∃ copy ∈ arrivals other calls, copy.input = own.input) :
    (∀ (id : SourceSymbolId) data, (final.decoders one).known[id]? = some data → (final.decoders other).known[id]? = some data) ∧
      (Decoder.gaps (arrivals one calls) = [] → Decoder.gaps (arrivals other calls) = [] →
        (Decoder.deliveries (arrivals one calls)).map (·.2) <+: (Decoder.deliveries (arrivals other calls)).map (·.2)) := by
  have sized (receiver : ReceiverId) (listed : receiver ∈ [one, other]) :
      ∀ id, (stream config (accepted calls) id).length = (receivers receiver).1.symbolSize := by
    rw [(matched receiver listed).symbolSize]
    exact stream_sized (accepted_sized run)
  have carries (receiver : ReceiverId) (listed : receiver ∈ [one, other]) (own : Call (Decoder P) Arrival Reply)
      (member : own ∈ arrivals receiver calls) := (arrivals_true run fits few (matched receiver listed) member).1
  have learned (receiver : ReceiverId) (listed : receiver ∈ [one, other]) :=
    Decoder.run_learned (receiver_run run receiver) (sized receiver listed) (carries receiver listed) (first receiver listed)
  have left : one ∈ [one, other] := List.mem_cons_self
  have right : other ∈ [one, other] := List.mem_cons_of_mem _ (List.mem_singleton.mpr rfl)
  have acceptable (receiver : ReceiverId) (listed : receiver ∈ [one, other]) (own : Call (Decoder P) Arrival Reply)
      (member : own ∈ arrivals receiver calls) := (carries receiver listed own member).acceptable (sized receiver listed)
  have determined := Decoder.run_determined (receiver_run run one) (acceptable one left) (learned one left).free
  have determines := Decoder.run_determines (receiver_run run other) (acceptable other right) (learned other right).free room
  have subset : Decoder.received config.field (arrivals one calls) ≤ Decoder.received config.field (arrivals other calls) := by
    refine Submodule.span_mono fun row spelled => ?_
    obtain ⟨own, member, same⟩ := spelled
    obtain ⟨copy, listed, equal⟩ := more own member
    exact ⟨copy, listed, by rw [equal]; exact same⟩
  have knows (id : SourceSymbolId) (held : id ∈ (final.decoders one).known) : id ∈ (final.decoders other).known := by
    have single := determined.knows held
    rw [(matched one left).field] at single
    have single := subset single
    rw [← (matched other right).field] at single
    exact (determines.knows_iff id).mpr single
  constructor
  · intro id data stored
    have held : id ∈ (final.decoders one).known := Std.TreeMap.mem_iff_isSome_getElem?.mpr (by rw [stored]; rfl)
    rw [← stored, (learned one left).faithful.known_eq (sized one left) held]
    exact (learned other right).faithful.known_eq (sized other right) (knows id held)
  · intro wholeOne wholeOther
    have caughtOne := receiver_caughtUp run fits few (matched one left) (first one left) wholeOne
    have caughtOther := receiver_caughtUp run fits few (matched other right) (first other right) wholeOther
    rw [(conveys run fits few (matched one left) (first one left)).complete wholeOne,
      (conveys run fits few (matched other right) (first other right)).complete wholeOther]
    refine List.take_prefix_take_left ?_
    by_contra short
    exact caughtOther.next (knows _ (caughtOne.behind _ ((lt_iff _ _).mpr (Nat.not_le.mp short))))

def Quiet (receiver : ReceiverId) (calls : List (Call SmallNetwork NetworkAction NetworkReply)) : Prop :=
  Arrival.SourcesFirst ((arrivals receiver calls).map (·.input)) ∧ Decoder.gaps (arrivals receiver calls) = []

instance (receiver : ReceiverId) (calls : List (Call SmallNetwork NetworkAction NetworkReply)) : Decidable (Quiet receiver calls) :=
  inferInstanceAs (Decidable (_ ∧ _))

/-- One receiver reads a source packet and a coded one, the other both source packets first, and the coded one twice. -/
theorem more_read_more_known_twice :
    ∃ (calls : List (Call SmallNetwork NetworkAction NetworkReply)) (final : SmallNetwork),
      Run step (new Encoder.smallConfig {} {} ⟨0, 1, 0⟩ smallReceivers) calls final ∧
        (arrivals 8 calls).length = 4 ∧ (final.decoders 8).known[(1 : SourceSymbolId)]? = some [2] ∧
        [[1], [2]] <+: (Decoder.deliveries (arrivals 8 calls)).map (·.2) := by
  obtain ⟨calls, final, run, check⟩ := Run.exists_of_check step
    (new Encoder.smallConfig {} {} ⟨0, 1, 0⟩ smallReceivers : SmallNetwork)
    [.encode (.submit [1]), .encode (.submit [2]), .encode .coded, .deliver 7 0, .deliver 7 2, .deliver 8 1, .deliver 8 0,
      .deliver 8 2, .deliver 8 2]
    (fun result => decide ((accepted result.1).length = 2 ∧ (arrivals 8 result.1).length = 4 ∧
      Quiet 7 result.1 ∧ Quiet 8 result.1 ∧
      (∀ own ∈ arrivals 8 result.1, own.before.matrix.rowCount < 512) ∧
      (∀ own ∈ arrivals 7 result.1, ∃ copy ∈ arrivals 8 result.1, copy.input = own.input) ∧
      (result.2.decoders 7).known[(1 : SourceSymbolId)]? = some [2] ∧
      (Decoder.deliveries (arrivals 7 result.1)).map (·.2) = [[1], [2]]) && coversFit result.1) (by decide +kernel)
  obtain ⟨shape, fits⟩ := Bool.and_eq_true_iff.mp check
  obtain ⟨count, read, one, other, room, more, known, delivered⟩ := of_decide_eq_true shape
  have few : (accepted calls).length < 4294967296 := by
    rw [count]
    decide
  obtain ⟨knows, delivers⟩ := more_read_more_known run (of_coversFit fits) few 7 8 (fun _ _ => ⟨rfl, rfl⟩)
    (by simpa using ⟨one.1, other.1⟩) room more
  have ahead := delivers one.2 other.2
  rw [delivered] at ahead
  exact ⟨calls, final, run, read, knows 1 [2] known, ahead⟩

/-- Under the conditions of a repair, a receiver that has reported no gap has delivered all that was submitted up to
the repaired submission, when the sender's window is without holes. -/
theorem repaired_delivered (run : Run step (new config windowPolicy cc fec receivers) calls final)
    (fits : ∀ call ∈ calls, CoversFit call) (few : (accepted calls).length < 4294967296) (receiver : ReceiverId)
    (matched : (receivers receiver).1.Matches config) (first : Arrival.SourcesFirst ((arrivals receiver calls).map (·.input)))
    (room : ∀ own ∈ arrivals receiver calls, own.before.matrix.rowCount < (receivers receiver).1.maxMatrixRows)
    (whole : Decoder.gaps (arrivals receiver calls) = [])
    {earlier : List (Call (Network W C F P) NetworkAction NetworkReply)} {call : Call (Network W C F P) NetworkAction NetworkReply}
    (inside : earlier ++ [call] <+: calls) {coded : List EncoderOutput} (submits : Submits call coded) (burst : coded ≠ [])
    (inCycle : call.before.encoder.nextCodedId.toNat + coded.length ≤ Encoder.codedIdLimit config.matrixStrategy config.field)
    (read : ∀ bytes, .coded bytes ∈ coded → ∃ own ∈ arrivals receiver calls, own.input.Reads bytes)
    (lost : (unread call.after.encoder.window (arrivals receiver calls)).length ≤ coded.length)
    (points : ((unread call.after.encoder.window (arrivals receiver calls)).map (Encoder.pointOf config)).Nodup)
    {start : SourceSymbolId} (head : call.after.encoder.window.idSlice.head? = some start)
    (unbroken : ∀ id, start ≤ id → id.toNat < (accepted (earlier ++ [call])).length → id ∈ call.after.encoder.window.idSlice) :
    accepted (earlier ++ [call]) <+: (Decoder.deliveries (arrivals receiver calls)).map (·.2) := by
  have member : call ∈ calls := inside.subset (List.mem_append_right _ (List.mem_singleton.mpr rfl))
  have held := losses_repaired run fits few receiver matched first room member submits inCycle read lost points
  have conveyed := conveys run fits few matched first
  have caught := receiver_caughtUp run fits few matched first whole
  obtain ⟨before, stepped⟩ := run.at_prefix inside
  have told := run_told before fun call member => fits call (inside.subset (List.mem_append_left _ member))
  -- a coded packet of the submission puts the pointer at or above the first id of the window
  obtain ⟨bytes, packet, coefs, sent, repair⟩ := Submits.repair submits told.sound (step_ok stepped) (fits call member) inCycle
    (List.length_pos_iff.mpr burst)
  obtain ⟨own, listed, reads⟩ := read bytes sent
  have input : own.input = .coded packet := by
    have same := Arrival.ofRaw_eq_some.mpr (show (Arrival.coded packet).Reads bytes from repair.reads)
    exact Option.some.inj ((Arrival.ofRaw_eq_some.mpr reads).symm.trans same)
  have above := Decoder.run_floor (receiver_run run receiver) conveyed.taken listed input (repair.covers ▸ head)
  have reached : (accepted (earlier ++ [call])).length ≤ (final.decoders receiver).buffer.nextDeliveryId.toNat := by
    by_contra short
    have covered := unbroken _ (UInt32.le_trans above caught.floor) (Nat.not_le.mp short)
    obtain ⟨s, listed, same⟩ := List.mem_map.mp covered
    have stored := held s listed
    refine caught.next (Std.TreeMap.mem_iff_isSome_getElem?.mpr ?_)
    rw [← same, stored]
    rfl
  have start : accepted (earlier ++ [call]) <+: accepted calls := accepted_prefix inside
  rw [conveyed.complete whole, List.prefix_iff_eq_take.mp start]
  exact List.take_prefix_take_left reached

/-- Both source packets are lost, and both symbols are delivered. -/
theorem repaired_delivered_both :
    ∃ (calls : List (Call SmallNetwork NetworkAction NetworkReply)) (final : SmallNetwork),
      Run step (new Encoder.smallConfig {} {} ⟨2, 1, 0⟩ smallReceivers) calls final ∧
        (∀ own ∈ arrivals 7 calls, own.input.kind = .coded) ∧
        [[1], [2]] <+: (Decoder.deliveries (arrivals 7 calls)).map (·.2) := by
  obtain ⟨calls, final, earlier, call, coded, both⟩ := both_lost
  have few : (accepted calls).length < 4294967296 := by
    rw [both.count]
    decide
  have window : call.after.encoder.window.idSlice = [0, 1] := by
    rw [EncodingWindow.idSlice, both.window]
    rfl
  have delivered := repaired_delivered both.run both.fits few 7 ⟨rfl, rfl⟩ both.first both.room both.whole both.inside both.submits
    (List.ne_nil_of_length_eq_add_one both.two) both.inCycle both.read both.lost both.points (congrArg List.head? window)
    fun id _ below => ?_
  · rw [both.submitted] at delivered
    exact ⟨calls, final, both.run, both.kinds, delivered⟩
  · have below : id.toNat < 2 := by rwa [both.submitted] at below
    rw [window, List.mem_cons, List.mem_singleton, eq_iff, eq_iff, show (0 : UInt32).toNat = 0 from rfl,
      show (1 : UInt32).toNat = 1 from rfl]
    omega

end Network
end Delp
