import Delp.Proofs.TrueDelivery
import Delp.Transport.Receiver

/-! The queue of a receiver. Whichever calls take symbols from it, and wherever their futures are dropped, they hand out
in order what one run of the decoder delivers. -/

namespace Delp

def DecoderEvent.feedback : DecoderEvent → Option Bytes
  | .sendFeedback raw => some raw
  | _ => none

def FeedbackLast (events : List DecoderEvent) : Prop :=
  ∃ ready rest, events = ready ++ rest ∧ (∀ event ∈ ready, event.feedback = none) ∧ ∀ event ∈ rest, event.delivery = none

namespace Decoder
variable {P : Type} [FeedbackPolicy P]

def feedbackOf (calls : List (Call (Decoder P) Arrival Reply)) : List Bytes :=
  calls.flatMap fun call => call.output.events.filterMap (·.feedback)

omit [FeedbackPolicy P] in
theorem deliveries_append (calls later : List (Call (Decoder P) Arrival Reply)) :
    deliveries (calls ++ later) = deliveries calls ++ deliveries later :=
  List.flatMap_append

theorem handle_feedbackLast {self after : Decoder P} {arrival : Arrival} {events : List DecoderEvent}
    (handled : self.handle arrival = .ok (after, .ok events)) : FeedbackLast events := by
  obtain ⟨matrix, gained, takes⟩ := handle_ok handled
  obtain ⟨feedback, kind, rfl⟩ := takes.events
  rw [List.append_assoc]
  refine ⟨_, _, rfl, fun event member => ?_, fun event member => ?_⟩
  · obtain ⟨symbol, _, rfl⟩ := List.mem_map.mp member
    rfl
  · rcases List.mem_append.mp member with own | gap
    · rcases kind with rfl | ⟨_, _, _, _, _, rfl⟩
      · cases own
      · cases List.mem_singleton.mp own
        rfl
    · unfold SymbolBuffer.gapTo at gap
      dsimp only at gap
      split at gap
      · cases List.mem_singleton.mp gap
        rfl
      · cases gap

theorem processOne_run {self after : Decoder P} {raw : Bytes} {reply : Reply} (processed : self.processOne raw = .ok (after, reply)) :
    ∃ own, Run handle self own after ∧ own.map (·.input) = [raw].filterMap Arrival.ofRaw ∧
      deliveries own = reply.events.filterMap (·.delivery) ∧ feedbackOf own = reply.events.filterMap (·.feedback) ∧
      ∀ events, reply = .ok events → FeedbackLast events := by
  cases found : Arrival.ofRaw raw with
  | none =>
    rcases Network.processOne_ok processed with ⟨rfl, rfl⟩ | ⟨arrival, reads, _⟩
    · refine ⟨[], .start, by simp [found], rfl, rfl, fun events same => ?_⟩
      cases same
      exact ⟨[], [], rfl, by simp, by simp⟩
    · cases found.symm.trans (Arrival.ofRaw_eq_some.mpr reads)
  | some arrival =>
    rw [(Arrival.ofRaw_eq_some.mp found).processOne] at processed
    refine ⟨[⟨self, arrival, after, reply⟩], .call .start processed, by simp [found], by simp [deliveries], by simp [feedbackOf],
      fun events same => ?_⟩
    subst same
    exact handle_feedbackLast processed

end Decoder

namespace FecReceiver
variable {P : Type} [FeedbackPolicy P]

omit [FeedbackPolicy P] in
private theorem onEvents_silent (dropped : Bool) (self : FecReceiver P) (becameReady : Bool) {events : List DecoderEvent}
    (silent : ∀ event ∈ events, event.delivery = none) :
    (onEvents dropped self becameReady events).1 = self ∧
      (onEvents dropped self becameReady events).2.2.Sublist (events.filterMap (·.feedback)) := by
  induction events with
  | nil => exact ⟨rfl, List.Sublist.refl _⟩
  | cons event events ih =>
    obtain ⟨same, sent⟩ := ih fun event member => silent event (List.mem_cons_of_mem _ member)
    cases event with
    | sourceReady id data => cases silent _ List.mem_cons_self
    | sendFeedback raw =>
      rw [onEvents]
      split
      · exact ⟨rfl, List.nil_sublist _⟩
      · exact ⟨same, sent.cons_cons raw⟩
    | unrecoverableGap first count => exact ⟨same, sent⟩

omit [FeedbackPolicy P] in
/-- Where a future is dropped while it sends feedback, all symbols of the datagram are in the queue. -/
theorem onEvents_queue (dropped : Bool) (self : FecReceiver P) (becameReady : Bool) {events : List DecoderEvent}
    (last : FeedbackLast events) :
    (onEvents dropped self becameReady events).1 = { self with ready := self.ready ++ events.filterMap (·.delivery) } ∧
      (onEvents dropped self becameReady events).2.2.Sublist (events.filterMap (·.feedback)) := by
  obtain ⟨ready, rest, rfl, quiet, silent⟩ := last
  induction ready generalizing self becameReady with
  | nil =>
    have none : rest.filterMap (·.delivery) = [] := List.filterMap_eq_nil_iff.mpr silent
    rw [List.nil_append, none, List.append_nil]
    exact onEvents_silent dropped self becameReady silent
  | cons event ready ih =>
    have later := fun event member => quiet event (List.mem_cons_of_mem _ member)
    cases event with
    | sourceReady id data =>
      obtain ⟨same, sent⟩ := ih { self with ready := self.ready ++ [(id, data)] } true later
      refine ⟨?_, sent⟩
      rw [List.cons_append, onEvents, same, List.filterMap_cons_some (show DecoderEvent.delivery _ = some (id, data) from rfl),
        List.append_assoc, List.singleton_append]
    | sendFeedback raw => cases quiet _ List.mem_cons_self
    | unrecoverableGap first count => exact ih self becameReady later

/-- Calls that take some datagrams and hand out some symbols: in between stands a run of the decoder. -/
structure Serves (before : FecReceiver P) (taken : List Bytes) (handed : List (SourceSymbolId × Bytes)) (feedback : List Bytes)
    (after : FecReceiver P) (own : List (Call (Decoder P) Arrival Reply)) : Prop where
  run : Run Decoder.handle before.decoder own after.decoder
  inputs : own.map (·.input) = taken.filterMap Arrival.ofRaw
  queue : before.ready ++ Decoder.deliveries own = handed ++ after.ready
  feedback : feedback.Sublist (Decoder.feedbackOf own)

theorem Serves.nothing (self : FecReceiver P) : Serves self [] [] [] self [] :=
  ⟨.start, rfl, List.append_nil _, List.Sublist.refl _⟩

theorem Serves.append {self middle after : FecReceiver P} {taken taken' feedback feedback' : List Bytes}
    {handed handed' : List (SourceSymbolId × Bytes)} {own own' : List (Call (Decoder P) Arrival Reply)}
    (serves : Serves self taken handed feedback middle own) (later : Serves middle taken' handed' feedback' after own') :
    Serves self (taken ++ taken') (handed ++ handed') (feedback ++ feedback') after (own ++ own') := by
  refine ⟨serves.run.append later.run, ?_, ?_, ?_⟩
  · rw [List.map_append, serves.inputs, later.inputs, List.filterMap_append]
  · rw [Decoder.deliveries_append, ← List.append_assoc, serves.queue, List.append_assoc, later.queue, List.append_assoc]
  · rw [Decoder.feedbackOf, List.flatMap_append]
    exact serves.feedback.append later.feedback

theorem Serves.pop {self : FecReceiver P} {symbol : SourceSymbolId × Bytes} {ready : List (SourceSymbolId × Bytes)}
    (front : self.ready = symbol :: ready) : Serves self [] [symbol] [] { self with ready } [] :=
  ⟨.start, rfl, by rw [front]; exact List.append_nil _, List.Sublist.refl _⟩

private theorem Serves.datagram {self : FecReceiver P} {decoder : Decoder P} {raw : Bytes} {events : List DecoderEvent} (dropped becameReady : Bool)
    (processed : self.decoder.processOne raw = .ok (decoder, .ok events)) :
    ∃ own, Serves self [raw] [] (onEvents dropped { self with decoder } becameReady events).2.2
      (onEvents dropped { self with decoder } becameReady events).1 own := by
  obtain ⟨own, run, inputs, delivered, asked, last⟩ := Decoder.processOne_run processed
  obtain ⟨same, sent⟩ := onEvents_queue dropped { self with decoder } becameReady (last events rfl)
  refine ⟨own, ?_⟩
  rw [same]
  exact ⟨run, inputs, by rw [delivered]; rfl, asked ▸ sent⟩

private theorem Serves.refused {self : FecReceiver P} {decoder : Decoder P} {raw : Bytes} {error : DelpError}
    (processed : self.decoder.processOne raw = .ok (decoder, .error error)) :
    ∃ own, Serves self [raw] [] [] { self with decoder } own := by
  obtain ⟨own, run, inputs, delivered, _⟩ := Decoder.processOne_run processed
  exact ⟨own, run, inputs, by rw [delivered]; exact List.append_nil _, List.nil_sublist _⟩

theorem processOne_serves {self after : FecReceiver P} {raw : Bytes} {dropped : Bool} {processed : TransportResult (Option Bool)}
    {sent : List Bytes} (returned : self.processOne raw dropped = .ok (after, processed, sent)) :
    ∃ own, Serves self [raw] [] sent after own := by
  obtain ⟨⟨decoder, reply⟩, decoded, returned⟩ := Outcome.bind_eq_ok.mp returned
  cases reply with
  | error error =>
    cases returned
    exact Serves.refused decoded
  | ok events =>
    cases returned
    exact Serves.datagram dropped false decoded

end FecReceiver

def ReceiverReply.handed (reply : ReceiverReply) : List (SourceSymbolId × Bytes) :=
  match reply.result with
  | some (.ok symbol) => [symbol]
  | _ => []

namespace FecReceiver
variable {P : Type} [FeedbackPolicy P]

private theorem recvSource_serves {self after : FecReceiver P} {incoming : List Incoming} {reply : ReceiverReply}
    (returned : self.recvSource incoming = .ok (after, reply)) : ∃ own, Serves self reply.taken reply.handed reply.feedback after own := by
  induction incoming generalizing self reply with
  | nil =>
    unfold recvSource at returned
    split at returned
    next symbol ready front =>
      cases returned
      exact ⟨[], .pop front⟩
    next =>
      cases returned
      exact ⟨[], .nothing _⟩
  | cons incoming later ih =>
    unfold recvSource at returned
    split at returned
    next symbol ready front =>
      cases returned
      exact ⟨[], .pop front⟩
    next =>
      cases incoming with
      | failed error =>
        cases returned
        exact ⟨[], .nothing _⟩
      | datagram raw dropped =>
        obtain ⟨⟨middle, processed, sent⟩, decoded, returned⟩ := Outcome.bind_eq_ok.mp returned
        obtain ⟨own, serves⟩ := processOne_serves decoded
        dsimp only at returned
        split at returned
        next error =>
          cases returned
          exact ⟨own, serves⟩
        next =>
          cases returned
          exact ⟨own, serves⟩
        next =>
          obtain ⟨⟨last, rest⟩, received, returned⟩ := Outcome.bind_eq_ok.mp returned
          cases returned
          obtain ⟨more, further⟩ := ih received
          exact ⟨own ++ more, serves.append further⟩

private theorem tryRecvSource_serves (self : FecReceiver P) :
    Serves self self.tryRecvSource.2.taken self.tryRecvSource.2.handed self.tryRecvSource.2.feedback self.tryRecvSource.1 [] := by
  unfold tryRecvSource
  split
  next symbol ready front => exact .pop front
  next => exact .nothing self

private theorem dispatchDatagram_serves {self after : FecReceiver P} {raw : Bytes}
    {dispatched : TransportResult (Option (SourceSymbolId × Bytes))} {sent : List Bytes}
    (returned : self.dispatchDatagram raw = .ok (after, dispatched, sent)) :
    ∃ own, Serves self [raw] (ReceiverReply.handed { result := match dispatched with
      | .ok (some symbol) => some (.ok symbol)
      | .ok none => none
      | .error error => some (.error error) }) sent after own := by
  obtain ⟨⟨decoder, reply⟩, decoded, returned⟩ := Outcome.bind_eq_ok.mp returned
  cases reply with
  | error error =>
    cases returned
    exact Serves.refused decoded
  | ok events =>
    obtain ⟨own, serves⟩ := Serves.datagram false false decoded
    dsimp only at returned
    split at returned
    next symbol ready front =>
      cases returned
      have both := serves.append (.pop front)
      rw [List.append_nil, List.append_nil] at both
      exact ⟨_, both⟩
    next =>
      cases returned
      exact ⟨own, serves⟩

private theorem pollNext_serves {self after : FecReceiver P} {answer : Except SocketError Bytes} {reply : ReceiverReply}
    (returned : self.pollNext answer = .ok (after, reply)) : ∃ own, Serves self reply.taken reply.handed reply.feedback after own := by
  unfold pollNext at returned
  split at returned
  next symbol ready front =>
    cases returned
    exact ⟨[], .pop front⟩
  next =>
    split at returned
    next =>
      cases returned
      exact ⟨[], .nothing _⟩
    next =>
      cases returned
      exact ⟨[], .nothing _⟩
    next raw =>
      obtain ⟨⟨middle, dispatched, sent⟩, decoded, returned⟩ := Outcome.bind_eq_ok.mp returned
      have serves := dispatchDatagram_serves decoded
      dsimp only at returned
      split at returned <;> cases returned <;> exact serves

theorem act_serves {self after : FecReceiver P} {action : ReceiverAction} {reply : ReceiverReply}
    (acted : self.act action = .ok (after, reply)) : ∃ own, Serves self reply.taken reply.handed reply.feedback after own := by
  cases action with
  | recvSource incoming => exact recvSource_serves acted
  | tryRecvSource =>
    have serves := tryRecvSource_serves self
    rw [show self.tryRecvSource = (after, reply) from Outcome.ok.inj acted] at serves
    exact ⟨[], serves⟩
  | pollNext answer => exact pollNext_serves acted

/-- Whatever calls take symbols from a receiver, and wherever their futures are dropped: what they have handed out and what
is still queued are together, in order, what one run of the decoder over the datagrams taken delivers, and feedback is sent
only where that run asks for it. -/
theorem hands_out {decoder : Decoder P} {calls : List (Call (FecReceiver P) ReceiverAction ReceiverReply)} {final : FecReceiver P}
    (run : Run act (new decoder) calls final) :
    ∃ own, Run Decoder.handle decoder own final.decoder ∧
      own.map (·.input) = (calls.flatMap (·.output.taken)).filterMap Arrival.ofRaw ∧
      calls.flatMap (·.output.handed) ++ final.ready = Decoder.deliveries own ∧
      (calls.flatMap (·.output.feedback)).Sublist (Decoder.feedbackOf own) := by
  have served : ∃ own, Serves (new decoder) (calls.flatMap (·.output.taken)) (calls.flatMap (·.output.handed))
      (calls.flatMap (·.output.feedback)) final own := by
    induction run with
    | start => exact ⟨[], .nothing _⟩
    | call _ acted ih =>
      obtain ⟨own, serves⟩ := ih
      obtain ⟨more, further⟩ := act_serves acted
      refine ⟨own ++ more, ?_⟩
      simp only [List.flatMap_append, List.flatMap_singleton]
      exact serves.append further
  obtain ⟨own, serves⟩ := served
  exact ⟨own, serves.run, serves.inputs, serves.queue.symm, serves.feedback⟩

/-- Symbol 1 comes in a call that is dropped while it sends feedback, and symbol 0 to the stream. -/
theorem hands_out_dropped :
    ∃ (calls : List (Call (FecReceiver ImmediateFeedbackPolicy) ReceiverAction ReceiverReply)) (final : FecReceiver ImmediateFeedbackPolicy),
      Run act (new (.small 512)) calls final ∧ calls.flatMap (·.output.handed) = [(0, [7]), (1, [8])] ∧
        ∃ own, Run Decoder.handle (.small 512) own final.decoder ∧ Decoder.deliveries own = [(0, [7]), (1, [8])] := by
  obtain ⟨calls, final, run, check⟩ := Run.exists_of_check act (new (.small 512))
    [.recvSource [.datagram [16, 0, 2, 0, 0, 0, 0, 1, 8] true], .pollNext (.ok [16, 0, 2, 0, 0, 0, 0, 0, 7]), .tryRecvSource]
    (fun result => decide (result.1.flatMap (·.output.handed) = [(0, [7]), (1, [8])] ∧ result.2.ready = [])) (by decide +kernel)
  obtain ⟨handed, ready⟩ := of_decide_eq_true check
  obtain ⟨own, decoded, _, delivered, _⟩ := hands_out run
  rw [handed, ready, List.append_nil] at delivered
  exact ⟨calls, final, run, handed, own, decoded, delivered.symm⟩

end FecReceiver
end Delp
