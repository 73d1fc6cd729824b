import Delp.Proofs.GapSafety
import Delp.Proofs.Network
import Delp.Proofs.SourceIds

/-! Which gaps a decoder reports: it takes the first id of a coded packet for the lower end of
the encoder's window, which it need not be when the packet covers a part of the window. -/

namespace Delp
open Machine

theorem SymbolBuffer.Settles.le_next {buffer drained : SymbolBuffer} {out : List (SourceSymbolId × Bytes)} {floor hole : SourceSymbolId}
    (settles : Settles buffer drained out floor) (start : buffer.nextDeliveryId ≤ hole) (absent : hole ∉ buffer.symbols) :
    buffer.nextDeliveryId ≤ drained.nextDeliveryId := by
  have drains := settles.drains
  have bounded := toNat_lt hole
  by_cases inside : buffer.nextDeliveryId.toNat + out.length < 4294967296
  · rw [le_iff, drains.pointer_of_lt inside]
    omega
  · exact absurd (drains.out_subset (drains.mem_out.mpr ⟨start, by omega⟩)) absent

namespace Decoder
variable {P : Type}

/-- A packet that raises the window minimum above an undelivered id which the encoder held when it made the packet. -/
def Overtakes (before : Decoder P) (window : List SourceSymbolId) : Arrival → Prop
  | .source _ => False
  | .coded packet => packet.payload.length = before.config.symbolSize ∧ ∃ first ∈ packet.ev.sourceIds.head?,
    before.encoderWinMin < first ∧ ∃ id ∈ window, before.buffer.nextDeliveryId ≤ id ∧ id < first

/-- An arrival that may complete the delivery of all ids up to `u32::MAX`, with a window minimum above 0. -/
def Wraps (before : Decoder P) (arrival : Arrival) : Prop :=
  0 < before.floor arrival ∧ arrival.payload.length = before.config.symbolSize ∧
    ∀ other, before.buffer.nextDeliveryId ≤ other → before.MayHold arrival other

variable [FeedbackPolicy P]

theorem handle_missized {before : Decoder P} {arrival : Arrival} (wrong : arrival.payload.length ≠ before.config.symbolSize) :
    ∃ error, before.handle arrival = .ok (before, .error error) := by
  rw [handle_eq, if_pos wrong]
  exact ⟨_, rfl⟩

end Decoder

private def NetworkReply.events : NetworkReply → List DecoderEvent
  | .decoded (.ok events) => events
  | _ => []

private theorem NetworkReply.of_events {reply : NetworkReply} {event : DecoderEvent} (listed : event ∈ reply.events) :
    reply = .decoded (.ok reply.events) := by
  unfold NetworkReply.events at listed ⊢
  split at listed
  · rfl
  · cases listed

private def NetworkAction.index? : NetworkAction → Option ℕ
  | .deliver _ index => some index
  | _ => none

namespace Network
variable {W C F P : Type}

def Handled (calls : List (Call (Network W C F P) NetworkAction NetworkReply)) (receiver : ReceiverId) (datagram : Datagram) : Prop :=
  ∃ call ∈ calls, ∃ index packet, call.input = .deliver receiver index ∧ call.before.sent[index]? = some datagram ∧
    (Arrival.coded packet).Reads datagram.raw

/-- Some coded packet that the receiver has handled was made when the encoder held no id from `first` up to `last`. -/
def Dropped (calls : List (Call (Network W C F P) NetworkAction NetworkReply)) (receiver : ReceiverId) (first last : ℕ) : Prop :=
  ∃ datagram, Handled calls receiver datagram ∧ ∀ id ∈ datagram.window, ¬ (first ≤ id.toNat ∧ id.toNat < last)

def GapsDropped (calls : List (Call (Network W C F P) NetworkAction NetworkReply)) : Prop :=
  ∀ earlier call, earlier ++ [call] <+: calls → ∀ receiver index events first count,
    call.input = .deliver receiver index → call.output = .decoded (.ok events) → .unrecoverableGap first count ∈ events →
    Dropped (earlier ++ [call]) receiver first.toNat (first.toNat + count.toNat)

/-- No step gives a receiver a packet that overtakes the window it was made from, or that wraps the delivery pointer. -/
def Careful (call : Call (Network W C F P) NetworkAction NetworkReply) : Prop :=
  ∀ receiver index datagram arrival, call.input = .deliver receiver index → call.before.sent[index]? = some datagram →
    arrival.Reads datagram.raw → ¬ (call.before.decoders receiver).Overtakes datagram.window arrival ∧
      ¬ (call.before.decoders receiver).Wraps arrival

/-- A window minimum above the delivery pointer is one that a handled packet shows. -/
def Shown (calls : List (Call (Network W C F P) NetworkAction NetworkReply)) (state : Network W C F P) : Prop :=
  ∀ receiver, (state.decoders receiver).buffer.nextDeliveryId < (state.decoders receiver).encoderWinMin →
    Dropped calls receiver (state.decoders receiver).buffer.nextDeliveryId.toNat (state.decoders receiver).encoderWinMin.toNat

theorem Dropped.append {calls later : List (Call (Network W C F P) NetworkAction NetworkReply)} {receiver : ReceiverId}
    {first last : ℕ} (dropped : Dropped calls receiver first last) : Dropped (calls ++ later) receiver first last := by
  obtain ⟨datagram, ⟨call, member, shape⟩, clear⟩ := dropped
  exact ⟨datagram, ⟨call, List.mem_append_left _ member, shape⟩, clear⟩

theorem Dropped.narrow {calls : List (Call (Network W C F P) NetworkAction NetworkReply)} {receiver : ReceiverId}
    {first second last : ℕ} (dropped : Dropped calls receiver first last) (above : first ≤ second) :
    Dropped calls receiver second last := by
  obtain ⟨datagram, handled, clear⟩ := dropped
  exact ⟨datagram, handled, fun id held inside => clear id held ⟨above.trans inside.1, inside.2⟩⟩

theorem Shown.floor {calls : List (Call (Network W C F P) NetworkAction NetworkReply)}
    {call : Call (Network W C F P) NetworkAction NetworkReply} (shown : Shown calls call.before) {receiver : ReceiverId} {index : ℕ}
    {datagram : Datagram} {arrival : Arrival} (input : call.input = .deliver receiver index)
    (found : call.before.sent[index]? = some datagram) (reads : arrival.Reads datagram.raw)
    (sized : arrival.payload.length = (call.before.decoders receiver).config.symbolSize)
    (careful : ¬ (call.before.decoders receiver).Overtakes datagram.window arrival)
    (above : (call.before.decoders receiver).buffer.nextDeliveryId < (call.before.decoders receiver).floor arrival) :
    Dropped (calls ++ [call]) receiver (call.before.decoders receiver).buffer.nextDeliveryId.toNat
      ((call.before.decoders receiver).floor arrival).toNat := by
  rcases (call.before.decoders receiver).floor_eq arrival with same | ⟨packet, rfl, head, higher⟩
  · rw [same] at above ⊢
    exact (shown receiver above).append
  · refine ⟨datagram, ⟨call, List.mem_append_right _ (List.mem_singleton.mpr rfl), index, packet, input, found, reads⟩, ?_⟩
    intro id held inside
    exact careful ⟨sized, _, head, higher, id, held, (le_iff _ _).mpr inside.1, (lt_iff _ _).mpr inside.2⟩

private theorem Shown.keep {calls : List (Call (Network W C F P) NetworkAction NetworkReply)} {before : Network W C F P}
    (shown : Shown calls before) {after : Network W C F P} (same : after.decoders = before.decoders)
    (call : Call (Network W C F P) NetworkAction NetworkReply) : Shown (calls ++ [call]) after := by
  intro receiver above
  rw [same] at above ⊢
  exact (shown receiver above).append

private theorem GapsDropped.call {calls : List (Call (Network W C F P) NetworkAction NetworkReply)} (earlier : GapsDropped calls)
    {call : Call (Network W C F P) NetworkAction NetworkReply}
    (last : ∀ receiver index events first count, call.input = .deliver receiver index → call.output = .decoded (.ok events) →
      .unrecoverableGap first count ∈ events → Dropped (calls ++ [call]) receiver first.toNat (first.toNat + count.toNat)) :
    GapsDropped (calls ++ [call]) := by
  intro shorter other inside
  rcases List.prefix_concat_iff.mp inside with same | inside
  · obtain ⟨rfl, rfl⟩ := List.append_singleton_inj.mp same
    exact last
  · exact earlier shorter other inside

section Runs
variable [FeedbackPolicy P]

/-- A careful arrival keeps the window minimum shown, and the gap it reports is one. -/
theorem Shown.handle {calls : List (Call (Network W C F P) NetworkAction NetworkReply)}
    {call : Call (Network W C F P) NetworkAction NetworkReply} (shown : Shown calls call.before) {receiver : ReceiverId} {index : ℕ}
    {datagram : Datagram} {arrival : Arrival} (input : call.input = .deliver receiver index)
    (found : call.before.sent[index]? = some datagram) (reads : arrival.Reads datagram.raw)
    (ahead : (call.before.decoders receiver).buffer.Ahead)
    (careful : ¬ (call.before.decoders receiver).Overtakes datagram.window arrival)
    (unwrapped : ¬ (call.before.decoders receiver).Wraps arrival) {decoder : Decoder P} {reply : Reply}
    (handled : (call.before.decoders receiver).handle arrival = .ok (decoder, reply)) :
    (decoder.buffer.nextDeliveryId < decoder.encoderWinMin →
      Dropped (calls ++ [call]) receiver decoder.buffer.nextDeliveryId.toNat decoder.encoderWinMin.toNat) ∧
    ∀ events first count, reply = .ok events → .unrecoverableGap first count ∈ events →
      Dropped (calls ++ [call]) receiver first.toNat (first.toNat + count.toNat) := by
  by_cases sized : arrival.payload.length = (call.before.decoders receiver).config.symbolSize
  swap
  · obtain ⟨error, refused⟩ := Decoder.handle_missized sized
    cases handled.symm.trans refused
    exact ⟨fun above => (shown receiver above).append, fun _ _ _ impossible => (nomatch impossible)⟩
  cases reply with
  | error error =>
    have refuses := Decoder.handle_error handled
    refine ⟨fun above => ?_, fun _ _ _ impossible => (nomatch impossible)⟩
    rw [refuses.buffer] at above ⊢
    rcases refuses.winMin with same | same
    · rw [same] at above ⊢
      exact (shown receiver above).append
    · rw [same] at above ⊢
      exact shown.floor input found reads sized careful above
  | ok events =>
    obtain ⟨matrix, gained, takes⟩ := Decoder.handle_ok handled
    have settles := SymbolBuffer.settles (SymbolBuffer.absorb_ahead ahead gained) ((call.before.decoders receiver).floor arrival)
    rcases settles.ends with ⟨reached, stays, none⟩ | ⟨above, jumps, gap⟩
    · refine ⟨fun above => ?_, fun _ first count same listed => ?_⟩
      · rw [takes.buffer, takes.winMin, stays, lt_iff] at above
        rw [le_iff] at reached
        omega
      · cases same
        rw [takes.gap_mem_iff, none] at listed
        cases listed
    · -- the drain has not passed the old pointer, or else everything up to `u32::MAX` was there
      have ordered : (call.before.decoders receiver).buffer.nextDeliveryId ≤
          ((call.before.decoders receiver).buffer.absorb gained).drainDeliverable.1.nextDeliveryId := by
        by_contra back
        refine unwrapped ⟨?_, sized, fun other start => Decoder.mayHold_of_holds takes.accepted ?_⟩
        · rw [lt_iff] at above ⊢
          rw [UInt32.toNat_zero]
          omega
        · by_contra missing
          rw [← SymbolBuffer.absorb_next _ gained] at start back
          exact back (settles.le_next start fun held => missing ((Decoder.mem_absorb_iff (by
            rwa [SymbolBuffer.absorb_next] at start)).mp held))
      have far : (call.before.decoders receiver).buffer.nextDeliveryId < (call.before.decoders receiver).floor arrival := by
        rw [lt_iff] at above ⊢
        rw [le_iff] at ordered
        omega
      have shown := (shown.floor input found reads sized careful far).narrow ((le_iff _ _).mp ordered)
      refine ⟨fun later => ?_, fun _ first count same listed => ?_⟩
      · rw [takes.buffer, takes.winMin, jumps, SymbolBuffer.Settles.pruned_next above, lt_iff] at later
        omega
      · cases same
        rw [takes.gap_mem_iff, gap] at listed
        cases List.mem_singleton.mp listed
        have width := toNat_sub (UInt32.le_of_lt above)
        rw [lt_iff] at above
        rwa [width, Nat.add_sub_cancel' (by omega)]

variable [WindowPolicy W] [CongestionControl C] [FecRateController F]

/-- Over any run without such steps, every gap that a receiver reports had been dropped by the encoder. -/
theorem gaps_dropped {config : EncoderConfig} {windowPolicy : W} {cc : C} {fec : F} {receivers : ReceiverId → DecoderConfig × P}
    {calls : List (Call (Network W C F P) NetworkAction NetworkReply)} {final : Network W C F P}
    (run : Run step (new config windowPolicy cc fec receivers) calls final) (careful : ∀ call ∈ calls, Careful call) :
    GapsDropped calls := by
  refine (run.preserves (fun calls state => Shown calls state ∧ (∀ receiver, (state.decoders receiver).buffer.Ahead) ∧
    GapsDropped calls) Careful ⟨?_, ?_, ?_⟩ ?_ careful).2.2
  · intro receiver above
    exact absurd above (UInt32.not_lt_zero)
  · exact fun receiver => SymbolBuffer.new_ahead 0
  · intro earlier call inside
    exact absurd (List.prefix_nil.mp inside) (by simp)
  intro calls before action after reply invariant stepped careful
  obtain ⟨shown, ahead, gaps⟩ := invariant
  cases step_ok stepped with
  | encoded | acknowledged =>
    exact ⟨shown.keep rfl _, ahead, gaps.call fun _ _ _ _ _ input => nomatch input⟩
  | dropped =>
    refine ⟨shown.keep rfl _, ahead, gaps.call fun _ _ _ _ _ _ output gap => ?_⟩
    cases output
    cases gap
  | ignored => exact ⟨shown.keep rfl _, ahead, gaps.call fun _ _ _ _ _ input => nomatch input⟩
  | @handled receiver index datagram arrival decoder reply found reads handled =>
    obtain ⟨steady, unwrapped⟩ := careful receiver index datagram arrival rfl found reads
    obtain ⟨minimum, gap⟩ := Shown.handle shown rfl found reads (ahead receiver) steady unwrapped handled
    refine ⟨?_, ?_, gaps.call fun _ _ _ first count input output listed => ?_⟩
    · refine (Function.forall_update_iff before.decoders fun receiver decoder =>
        decoder.buffer.nextDeliveryId < decoder.encoderWinMin →
          Dropped _ receiver decoder.buffer.nextDeliveryId.toNat decoder.encoderWinMin.toNat).mpr ⟨minimum, ?_⟩
      exact fun other _ above => (shown other above).append
    · exact (Function.forall_update_iff before.decoders fun _ decoder => decoder.buffer.Ahead).mpr
        ⟨Decoder.handle_ahead (ahead receiver) handled, fun other _ => ahead other⟩
    · cases input
      cases output
      exact gap _ first count rfl listed

end Runs

def smallReceivers (_ : ReceiverId) : DecoderConfig × ImmediateFeedbackPolicy :=
  ({ symbolSize := 1, field := .gf2_8, maxMatrixRows := 512, feedbackEvery := 16 }, ⟨⟩)

abbrev SmallNetwork := Network AnyAckPolicy NoCongestionControl ConstantFecRate ImmediateFeedbackPolicy

/-- A window of two symbols that evicts the oldest, and receivers of its symbols. -/
def small : SmallNetwork := new Encoder.smallConfig {} {} ⟨0, 1, 0⟩ smallReceivers

/-- A decoder without rows and symbols gains at most what a packet lists. -/
private theorem not_mayHold {before : Decoder P} {packet : CodedPacket} (rows : before.matrix.rows.isEmpty = true)
    (known : before.known.isEmpty = true) (same : before.matrix.field = before.config.field)
    (regular : packet.ev.Regular before.config.field) {id : SourceSymbolId} (missing : id ∉ before.buffer.symbols)
    (unlisted : id ∉ packet.ev.sourceIds) : ¬ before.MayHold (.coded packet) id := by
  have noRow {pid : SourceSymbolId} {row : MatrixRow} (stored : before.matrix.rows[pid]? = some row) : False := by
    rw [Std.TreeMap.getElem?_of_isEmpty rows] at stored
    cases stored
  have noSymbol (other : SourceSymbolId) (data : Bytes) (stored : before.known[other]? = some data) : False := by
    rw [Std.TreeMap.getElem?_of_isEmpty known] at stored
    cases stored
  have computes : before.Computes (.coded packet) := by
    refine ⟨same, fun _ _ stored => (noRow stored).elim, fun _ _ stored => (noRow stored).elim,
      fun other data stored => (noSymbol other data stored).elim, fun other map own read => ?_⟩
    cases own
    exact regular.fits read
  rintro (buffered | gain)
  · exact missing buffered
  have vanishes : DecodingMatrix.Rows.space before.config.field before.matrix.rows {id | id ∈ before.known} ⊔
      Submodule.span before.config.field.Elem {((Arrival.coded packet).equation before.config.field).1} ≤
      LinearMap.ker (LinearMap.proj id : (SourceSymbolId → before.config.field.Elem) →ₗ[before.config.field.Elem] _) := by
    refine sup_le (Elimination.rowSpace_le (fun pid key => ?_) fun other found => ?_) ?_
    · obtain ⟨row, stored⟩ := DecodingMatrix.Rows.mem_keySet.mp key
      exact (noRow stored).elim
    · exact absurd found (Std.TreeMap.not_mem_of_isEmpty known)
    · rw [Submodule.span_singleton_le_iff_mem]
      exact DecodingMatrix.row_unlisted before.config.field unlisted
  have zero := LinearMap.mem_ker.mp (vanishes (gain computes))
  rw [LinearMap.proj_apply, Pi.single_eq_same] at zero
  exact one_ne_zero zero

/-- The full window without symbol 0 shows that it has been dropped. -/
theorem gaps_dropped_zero : ∃ (calls : List (Call SmallNetwork NetworkAction NetworkReply)) (final : SmallNetwork),
    Run step small calls final ∧ (final.decoders 0).buffer.nextDeliveryId = 1 ∧ GapsDropped calls := by
  obtain ⟨calls, final, run, check⟩ := Run.exists_of_check step small
    [.encode (.submit [1]), .encode (.submit [2]), .encode (.submit [3]), .encode .coded, .deliver 0 3]
    (fun result => decide ((result.2.decoders 0).buffer.nextDeliveryId = 1) && result.1.all
      fun (call : Call SmallNetwork NetworkAction NetworkReply) => match call.input with
      | .deliver receiver index => (call.before.sent[index]?).any fun datagram => datagram.window == [1, 2] &&
        !(SourcePacket.parse datagram.raw).passes (fun _ => true) && (CodedPacket.parse datagram.raw).passes fun packet =>
          packet.ev.sourceIds == [1, 2] && packet.ev.field == .gf2_8 && (call.before.decoders receiver).matrix.rows.isEmpty &&
            (call.before.decoders receiver).known.isEmpty && (call.before.decoders receiver).matrix.field == .gf2_8 &&
            (call.before.decoders receiver).config.field == .gf2_8 &&
            !(call.before.decoders receiver).buffer.symbols.contains 0 &&
            (call.before.decoders receiver).buffer.nextDeliveryId == 0
      | _ => true) (by decide +kernel)
  obtain ⟨next, shape⟩ := Bool.and_eq_true_iff.mp check
  refine ⟨calls, final, run, of_decide_eq_true next, gaps_dropped run fun call member => ?_⟩
  intro receiver index datagram arrival input found reads
  have shape := List.all_eq_true.mp shape call member
  simp only [input, found, Option.any_some, Bool.and_eq_true, beq_iff_eq, Bool.not_eq_true'] at shape
  obtain ⟨⟨window, other⟩, shape⟩ := shape
  obtain ⟨packet, parsed, shape⟩ := Outcome.passes_iff.mp shape
  cases arrival with
  | source stray =>
    rw [Outcome.passes_iff.mpr ⟨stray, reads, rfl⟩] at other
    cases other
  | coded same =>
    cases parsed.symm.trans reads
    simp only [Bool.and_eq_true, beq_iff_eq, Bool.not_eq_true'] at shape
    obtain ⟨⟨⟨⟨⟨⟨⟨ids, field⟩, rows⟩, known⟩, matrixField⟩, configField⟩, missing⟩, start⟩ := shape
    constructor
    · rintro ⟨_, first, here, _, id, held, _, below⟩
      rw [ids] at here
      cases here
      rw [window] at held
      revert held below
      simp only [List.mem_cons, List.not_mem_nil, or_false]
      rintro (rfl | rfl) below
      · exact absurd below (by decide)
      · exact absurd below (by decide)
    · rintro ⟨_, _, all⟩
      refine not_mayHold rows known (matrixField.trans configField.symm) ⟨field.trans configField.symm, ?_, ?_⟩
        (fun held => Bool.false_ne_true (missing.symm.trans (Std.TreeMap.contains_iff_mem.mpr held))) (by rw [ids]; decide)
        (all 0 (start ▸ UInt32.le_refl _))
      · rw [configField]
        exact fun _ _ => trivial
      · rw [ids]
        exact fun id member => of_decide_eq_true (List.all_eq_true.mp (show [1, 2].all (· < (0xFFFFFFFF : UInt32)) = true by decide)
          id member)

/-- A packet over the last of two symbols is taken for a window that no longer holds the first. -/
theorem gaps_dropped_fails : ¬ ∀ (calls : List (Call SmallNetwork NetworkAction NetworkReply)) (final : SmallNetwork),
    Run step small calls final → GapsDropped calls := by
  intro claim
  obtain ⟨calls, final, run, check⟩ := Run.exists_of_check step small
    [.encode (.submit [1]), .encode (.submit [2]), .encode (.recent 1), .deliver 0 2]
    (fun result => (result.1.getLast?.any fun (call : Call SmallNetwork NetworkAction NetworkReply) =>
      decide (call.input = .deliver 0 2) && call.output.events.contains (.unrecoverableGap 0 1)) &&
        result.1.all fun (call : Call SmallNetwork NetworkAction NetworkReply) => call.input.index?.all fun index =>
          (call.before.sent[index]?).all fun datagram => datagram.window.contains 0) (by decide +kernel)
  obtain ⟨last, all⟩ := Bool.and_eq_true_iff.mp check
  obtain ⟨call, found, last⟩ := (Option.any_eq_true _ _).mp last
  obtain ⟨input, replied⟩ := Bool.and_eq_true_iff.mp last
  have replied := List.contains_iff_mem.mp replied
  obtain ⟨earlier, same⟩ := List.getLast?_eq_some_iff.mp found
  have same : calls = earlier ++ [call] := same
  obtain ⟨datagram, ⟨other, member, index, packet, delivered, sent, _⟩, clear⟩ := claim calls final run earlier call
    (by rw [same]) 0 2 _ 0 1 (of_decide_eq_true input) (NetworkReply.of_events replied) replied
  have held := List.all_eq_true.mp all other (same ▸ member)
  simp only [delivered, NetworkAction.index?, sent, Option.all_some, List.contains_iff_mem] at held
  exact clear 0 held ⟨Nat.zero_le _, by decide⟩

end Network
end Delp
