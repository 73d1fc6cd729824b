import Delp.Proofs.ReceiverQueue
import Delp.Proofs.SinkQueue

/-! A sender and its receivers, by the calls that an application makes of them. Whatever the sockets do in between, what is
handed out has been taken by `send_source`: every run of these calls is one of the network. -/

namespace Delp
open Machine

/-- The datagrams that a call of a receiver may find on its socket. -/
def ReceiverAction.raws : ReceiverAction → List Bytes
  | .recvSource incoming => incoming.filterMap fun
    | .datagram raw _ => some raw
    | .failed _ => none
  | .tryRecvSource => []
  | .pollNext (.ok raw) => [raw]
  | .pollNext (.error _) => []

/-- What a call of a sender makes the encoder accept. An I/O error does not take the symbol back: the encoder holds it, and only
some of its packets are missing on the wire. -/
def SenderAction.accepted : SenderAction → SenderReturn → List Bytes
  | .sendSource data _, .source reply =>
    match reply.result with
    | some (.error (.codec _)) => []
    | _ => [data]
  | _, _ => []

def FecSender.CoversFit {W C F : Type} (self : FecSender W C F) : SenderAction → Prop
  | .sendSource data _ => Encoder.CoverFits (self.encoder.covers (.submit data))
  | .sendCoded _ => Encoder.CoverFits (self.encoder.covers .coded)
  | _ => True

instance {W C F : Type} (self : FecSender W C F) (action : SenderAction) : Decidable (self.CoversFit action) :=
  match action with
  | .sendSource _ _ | .sendCoded _ => inferInstanceAs (Decidable (Encoder.CoverFits _))
  | .recvFeedback _ | .waitFeedback _ => isTrue trivial

structure Link (W C F P : Type) where
  sender : FecSender W C F
  receivers : ReceiverId → FecReceiver P
  /-- What the sender has put on the wire so far. -/
  wire : List Bytes

inductive LinkAction where
  | send (action : SenderAction)
  | receive (receiver : ReceiverId) (action : ReceiverAction)

inductive LinkReply where
  | sent (reply : SenderReturn)
  | received (reply : ReceiverReply)
  /-- The call needs a datagram that has not been sent. -/
  | idle

namespace Link
variable {W C F P : Type}

/-- A receiver finds on its socket what has been sent, in any order and any number of times, and datagrams that it reads no packet
from: the two ends of a session share one socket. -/
def arrives (self : Link W C F P) (raw : Bytes) : Bool := self.wire.contains raw || (Arrival.ofRaw raw).isNone

section Steps
variable [WindowPolicy W] [CongestionControl C] [FecRateController F] [FeedbackPolicy P]

def new (config : EncoderConfig) (windowPolicy : W) (cc : C) (fec : F) (receivers : ReceiverId → DecoderConfig × P) : Link W C F P where
  sender := .new (.new config windowPolicy cc fec)
  receivers receiver := .new (.new (receivers receiver).1 (receivers receiver).2)
  wire := []

/-- What a sender takes for feedback is up to its socket, and to anyone who writes to it. -/
def step (self : Link W C F P) : LinkAction → Result (Link W C F P × LinkReply)
  | .send action => do
    let (sender, reply) ← self.sender.act action
    pure ({ self with sender, wire := self.wire ++ reply.sent }, .sent reply)
  | .receive receiver action =>
    if action.raws.all self.arrives then do
      let (after, reply) ← (self.receivers receiver).act action
      pure ({ self with receivers := Function.update self.receivers receiver after }, .received reply)
    else pure (self, .idle)

end Steps

def accepted (calls : List (Call (Link W C F P) LinkAction LinkReply)) : List Bytes :=
  calls.flatMap fun call => match call.input, call.output with
    | .send action, .sent reply => action.accepted reply
    | _, _ => []

def replyTo (receiver : ReceiverId) (call : Call (Link W C F P) LinkAction LinkReply) : Option ReceiverReply :=
  match call.input, call.output with
  | .receive target _, .received reply => if target = receiver then some reply else none
  | _, _ => none

def replies (receiver : ReceiverId) (calls : List (Call (Link W C F P) LinkAction LinkReply)) : List ReceiverReply :=
  calls.filterMap (replyTo receiver)

def handed (receiver : ReceiverId) (calls : List (Call (Link W C F P) LinkAction LinkReply)) : List (SourceSymbolId × Bytes) :=
  (replies receiver calls).flatMap (·.handed)

def read (receiver : ReceiverId) (calls : List (Call (Link W C F P) LinkAction LinkReply)) : List Arrival :=
  ((replies receiver calls).flatMap (·.taken)).filterMap Arrival.ofRaw

def CoversFit (call : Call (Link W C F P) LinkAction LinkReply) : Prop :=
  match call.input with
  | .send action => call.before.sender.CoversFit action
  | .receive _ _ => True

end Link

namespace FecReceiver
variable {P : Type} [FeedbackPolicy P]

private theorem recvSource_taken {self after : FecReceiver P} {incoming : List Incoming} {reply : ReceiverReply}
    (returned : self.recvSource incoming = .ok (after, reply)) : ∀ raw ∈ reply.taken, raw ∈ (ReceiverAction.recvSource incoming).raws := by
  induction incoming generalizing self reply with
  | nil =>
    unfold recvSource at returned
    split at returned <;> cases returned <;> exact fun _ member => (List.not_mem_nil member).elim
  | cons incoming later ih =>
    unfold recvSource at returned
    split at returned
    · cases returned
      exact fun _ member => (List.not_mem_nil member).elim
    · cases incoming with
      | failed error =>
        cases returned
        exact fun _ member => (List.not_mem_nil member).elim
      | datagram raw dropped =>
        have front (raw' : Bytes) (member : raw' ∈ [raw]) : raw' ∈ (ReceiverAction.recvSource (.datagram raw dropped :: later)).raws :=
          List.mem_singleton.mp member ▸ List.mem_cons_self
        obtain ⟨⟨middle, processed, sent⟩, _, returned⟩ := Outcome.bind_eq_ok.mp returned
        dsimp only at returned
        split at returned
        · cases returned
          exact front
        · cases returned
          exact front
        · obtain ⟨⟨last, rest⟩, received, returned⟩ := Outcome.bind_eq_ok.mp returned
          cases returned
          intro raw' member
          rcases List.mem_cons.mp member with same | further
          · exact front raw' (List.mem_singleton.mpr same)
          · exact List.mem_cons_of_mem _ (ih received raw' further)

theorem act_taken {self after : FecReceiver P} {action : ReceiverAction} {reply : ReceiverReply}
    (acted : self.act action = .ok (after, reply)) : ∀ raw ∈ reply.taken, raw ∈ action.raws := by
  cases action with
  | recvSource incoming => exact recvSource_taken acted
  | tryRecvSource =>
    have same : self.tryRecvSource.2 = reply := congrArg Prod.snd (Outcome.ok.inj acted)
    rw [← same, tryRecvSource]
    split <;> exact fun _ member => member
  | pollNext answer =>
    have acted : self.pollNext answer = .ok (after, reply) := acted
    unfold pollNext at acted
    split at acted
    · cases acted
      exact fun _ member => (List.not_mem_nil member).elim
    · split at acted
      · cases acted
        exact fun _ member => member
      · cases acted
        exact fun _ member => member
      · obtain ⟨⟨middle, dispatched, sent⟩, _, acted⟩ := Outcome.bind_eq_ok.mp acted
        dsimp only at acted
        split at acted <;> cases acted <;> exact fun _ member => member

end FecReceiver

namespace Network
variable {W C F P : Type}

def Passive (call : Call (Network W C F P) NetworkAction NetworkReply) : Prop := ∀ action, call.input ≠ .encode action

theorem Passive.accepted {calls : List (Call (Network W C F P) NetworkAction NetworkReply)} (passive : ∀ call ∈ calls, Passive call) :
    Network.accepted calls = [] := by
  refine List.flatMap_eq_nil_iff.mpr fun call member => ?_
  split
  next action _ input _ => exact absurd input (passive call member action)
  next => rfl

theorem Passive.fits {call : Call (Network W C F P) NetworkAction NetworkReply} (passive : Passive call) : CoversFit call :=
  fun action _ _ input _ _ => absurd input (passive action)

section Steps
variable [WindowPolicy W] [CongestionControl C] [FecRateController F] [FeedbackPolicy P]

/-- A run of steps in which one receiver reads the datagrams at some positions, in this order. -/
structure Reads (net : Network W C F P) (receiver : ReceiverId) (positions : List ℕ) (own : List (Call (Decoder P) Arrival Reply))
    (after : Decoder P) (more : List (Call (Network W C F P) NetworkAction NetworkReply)) (next : Network W C F P) : Prop where
  run : Run step net more next
  encoder : next.encoder = net.encoder
  sent : next.sent = net.sent
  decoders : next.decoders = Function.update net.decoders receiver after
  inputs : more.map (·.input) = positions.map (.deliver receiver)
  sees : ∀ call ∈ more, call.before.sent = net.sent
  own : arrivals receiver more = own
  others : ∀ other, other ≠ receiver → arrivals other more = []

theorem Reads.passive {net next : Network W C F P} {receiver : ReceiverId} {positions : List ℕ}
    {own : List (Call (Decoder P) Arrival Reply)} {after : Decoder P} {more : List (Call (Network W C F P) NetworkAction NetworkReply)}
    (reads : Reads net receiver positions own after more next) : ∀ call ∈ more, Passive call := by
  intro call member action input
  have listed : call.input ∈ positions.map (.deliver receiver) := reads.inputs ▸ List.mem_map_of_mem member
  obtain ⟨index, _, same⟩ := List.mem_map.mp listed
  cases same.trans input

theorem step_deliver {net : Network W C F P} {receiver : ReceiverId} {arrival : Arrival} {after : Decoder P} {reply : Reply}
    {index : ℕ} {datagram : Datagram} (found : net.sent[index]? = some datagram) (reads : arrival.Reads datagram.raw)
    (handled : (net.decoders receiver).handle arrival = .ok (after, reply)) :
    step net (.deliver receiver index) = .ok ({ net with
      decoders := Function.update net.decoders receiver after
      reports := net.reports ++ feedbackOf receiver reply }, .decoded reply) := by
  rw [step, found]
  dsimp only
  rw [reads.processOne, handled]
  rfl

omit [WindowPolicy W] [CongestionControl C] [FecRateController F] [FeedbackPolicy P] in
theorem arrivalAt_deliver {net : Network W C F P} {receiver : ReceiverId} {arrival : Arrival} {after : Decoder P} {reply : Reply}
    {index : ℕ} {datagram : Datagram} {reports : List (ReceiverId × Bytes)} (found : net.sent[index]? = some datagram)
    (reads : arrival.Reads datagram.raw) :
    arrivalAt receiver ⟨net, .deliver receiver index, { net with decoders := Function.update net.decoders receiver after, reports },
      .decoded reply⟩ = some ⟨net.decoders receiver, arrival, after, reply⟩ := by
  refine arrivalAt_eq_some.mpr ⟨index, datagram, rfl, rfl, found, reads, rfl, ?_⟩
  dsimp only
  rw [Function.update_self]

/-- What a decoder makes of the packets at some positions, it can be given by the network, in the same order. -/
theorem reads_at {net : Network W C F P} {receiver : ReceiverId} {own : List (Call (Decoder P) Arrival Reply)} {after : Decoder P}
    (run : Run Decoder.handle (net.decoders receiver) own after) {positions : List ℕ}
    (placed : positions.map ((net.sent.map (·.raw))[·]?.bind Arrival.ofRaw) = own.map fun call => some call.input) :
    ∃ more next, Reads net receiver positions own after more next := by
  induction run generalizing positions with
  | start =>
    have none : positions = [] := List.map_eq_nil_iff.mp placed
    subst none
    refine ⟨[], net, .start, rfl, rfl, ?_, rfl, by simp, rfl, fun _ _ => rfl⟩
    rw [Function.update_eq_self]
  | @call calls state after arrival reply _ handled ih =>
    rw [List.map_append, List.map_singleton] at placed
    obtain ⟨front, last, rfl, fronts, lasts⟩ := List.map_eq_append_iff.mp placed
    obtain ⟨index, rfl, found⟩ := List.map_eq_singleton_iff.mp lasts
    obtain ⟨more, mid, earlier⟩ := ih fronts
    obtain ⟨raw, place, read⟩ := Option.bind_eq_some_iff.mp found
    rw [List.getElem?_map, ← earlier.sent] at place
    obtain ⟨datagram, found, rfl⟩ := Option.map_eq_some_iff.mp place
    have reads : arrival.Reads datagram.raw := Arrival.ofRaw_eq_some.mp read
    have before : mid.decoders receiver = state := by rw [earlier.decoders, Function.update_self]
    have stepped := step_deliver found reads (before ▸ handled)
    refine ⟨_, _, earlier.run.call stepped, earlier.encoder, earlier.sent, ?_, ?_, fun call member => ?_, ?_, fun other different => ?_⟩
    · dsimp only
      rw [earlier.decoders, Function.update_idem]
    · rw [List.map_append, List.map_append, earlier.inputs]
      rfl
    · rcases List.mem_append.mp member with old | new
      · exact earlier.sees call old
      · cases List.mem_singleton.mp new
        exact earlier.sent
    · rw [arrivals, List.filterMap_append, List.filterMap_cons_some (arrivalAt_deliver found reads), before]
      exact congrArg (· ++ _) earlier.own
    · have skipped (next : Network W C F P) : arrivalAt other ⟨mid, .deliver receiver index, next, .decoded reply⟩ = none :=
        if_neg (Ne.symm different)
      rw [arrivals, List.filterMap_append, List.filterMap_cons_none (skipped _)]
      exact congrArg (· ++ _) (earlier.others other different)

omit [WindowPolicy W] [CongestionControl C] [FecRateController F] [FeedbackPolicy P] in
theorem positions_of {raws : List Bytes} {own : List (Call (Decoder P) Arrival Reply)}
    (sent : ∀ call ∈ own, ∃ raw ∈ raws, call.input.Reads raw) :
    ∃ positions : List ℕ, positions.map (raws[·]?.bind Arrival.ofRaw) = own.map fun call => some call.input := by
  induction own with
  | nil => exact ⟨[], rfl⟩
  | cons call own ih =>
    obtain ⟨positions, placed⟩ := ih fun call member => sent call (List.mem_cons_of_mem _ member)
    obtain ⟨raw, member, reads⟩ := sent call List.mem_cons_self
    obtain ⟨index, found⟩ := List.getElem?_of_mem member
    refine ⟨index :: positions, ?_⟩
    rw [List.map_cons, List.map_cons, placed, found]
    exact congrArg (· :: _) (Arrival.ofRaw_eq_some.mpr reads)

structure Encodes (net : Network W C F P) (calls : List (Call (Encoder W C F) EncoderAction (Except DelpError (List EncoderOutput))))
    (steps : List (Call (Network W C F P) NetworkAction NetworkReply)) (next : Network W C F P) : Prop where
  run : Run step net steps next
  sent : next.sent.map (·.raw) = net.sent.map (·.raw) ++ Encoder.packets calls
  decoders : next.decoders = net.decoders
  accepted : Network.accepted steps = Encoder.accepted calls
  encodes : ∀ call ∈ steps, ∃ own ∈ calls, call.input = .encode own.input ∧ call.output = .encoded own.output ∧
    call.before.encoder = own.before

theorem encodes_of {net : Network W C F P} {calls : List (Call (Encoder W C F) EncoderAction (Except DelpError (List EncoderOutput)))}
    {after : Encoder W C F} (run : Run Encoder.act net.encoder calls after) :
    ∃ steps next, Encodes net calls steps next ∧ next.encoder = after := by
  induction run with
  | start =>
    exact ⟨[], net, ⟨.start, (List.append_nil _).symm, rfl, rfl, fun _ member => (List.not_mem_nil member).elim⟩, rfl⟩
  | @call calls state after action reply _ acted ih =>
    obtain ⟨steps, next, earlier, rfl⟩ := ih
    have stepped : next.step (.encode action) =
        .ok ({ next with encoder := after, sent := next.sent ++ datagrams after reply }, .encoded reply) := by
      rw [step, acted]
      rfl
    have raws : (datagrams after reply).map (·.raw) = Encoder.packetsOf reply := by
      cases reply with
      | ok outputs => exact List.map_map
      | error error => rfl
    refine ⟨_, _, ⟨earlier.run.call stepped, ?_, earlier.decoders, ?_, fun call member => ?_⟩, rfl⟩
    · rw [List.map_append, earlier.sent, raws, Encoder.packets, Encoder.packets, List.flatMap_append, List.flatMap_singleton,
        List.append_assoc]
    · rw [accepted_append, earlier.accepted, Encoder.accepted_append]
      exact congrArg _ (List.append_nil _)
    · rcases List.mem_append.mp member with old | new
      · obtain ⟨own, listed, same⟩ := earlier.encodes call old
        exact ⟨own, List.mem_append_left _ listed, same⟩
      · cases List.mem_singleton.mp new
        exact ⟨_, List.mem_append_right _ (List.mem_singleton.mpr rfl), rfl, rfl, rfl⟩

omit [WindowPolicy W] [CongestionControl C] [FecRateController F] [FeedbackPolicy P] in
theorem arrivals_of_encodes {steps : List (Call (Network W C F P) NetworkAction NetworkReply)}
    (encodes : ∀ call ∈ steps, ∃ action, call.input = .encode action) (receiver : ReceiverId) : arrivals receiver steps = [] := by
  refine List.filterMap_eq_nil_iff.mpr fun call member => ?_
  obtain ⟨action, input⟩ := encodes call member
  rw [arrivalAt, input]

end Steps
end Network

theorem transmit_sent (packets : List Bytes) (outcomes : List (Except SocketError Unit)) :
    (transmit packets outcomes).sent <+: packets := by
  induction packets generalizing outcomes with
  | nil => exact List.prefix_rfl
  | cons raw packets ih =>
    cases outcomes with
    | nil => exact List.nil_prefix
    | cons outcome outcomes =>
      cases outcome with
      | error error => exact List.nil_prefix
      | ok => exact List.cons_prefix_cons.mpr ⟨rfl, ih outcomes⟩

theorem transmit_result (packets : List Bytes) (outcomes : List (Except SocketError Unit)) (error : DelpError) :
    (transmit packets outcomes).result ≠ some (.error (.codec error)) := by
  induction packets generalizing outcomes with
  | nil => exact fun same => by cases same
  | cons raw packets ih =>
    cases outcomes with
    | nil => exact fun same => by cases same
    | cons outcome outcomes =>
      cases outcome with
      | error error => exact fun same => by cases same
      | ok => exact ih outcomes

/-- To wait for one datagram is to drain a socket that holds one. -/
theorem waitFeedback_eq {W C F : Type} [WindowPolicy W] [CongestionControl C] [FecRateController F] {self after : FecSender W C F}
    {answer : Answer} {result : TransportResult Unit} (waited : self.waitFeedback answer = .ok (after, result)) :
    ∃ count, self.recvFeedback 0 [answer] = .ok (after, count) := by
  cases answer with
  | error error =>
    cases waited
    cases error <;> exact ⟨_, rfl⟩
  | ok datagram =>
    obtain ⟨rid, raw⟩ := datagram
    obtain ⟨encoder, received, same⟩ := Outcome.bind_eq_ok.mp waited
    cases same
    unfold Encoder.recvFeedback at received
    rw [FecSender.recvFeedback]
    cases parsed : FeedbackPacket.parse raw with
    | ok packet =>
      rw [parsed] at received
      dsimp only [unlessMalformed] at received ⊢
      rw [received]
      exact ⟨_, rfl⟩
    | err error =>
      rw [parsed] at received
      cases received
      exact ⟨_, rfl⟩
    | panic reason =>
      rw [parsed] at received
      cases received

namespace FecSender
variable {W C F : Type} [WindowPolicy W] [CongestionControl C] [FecRateController F] {self after : FecSender W C F}

/-- What a call of a sender makes of its encoder. The socket takes some of the packets. -/
structure Makes (before : FecSender W C F) (action : SenderAction) (reply : SenderReturn) (after : FecSender W C F)
    (own : List (Call (Encoder W C F) EncoderAction (Except DelpError (List EncoderOutput)))) : Prop where
  run : Run Encoder.act before.encoder own after.encoder
  sent : ∀ raw ∈ reply.sent, raw ∈ Encoder.packets own
  accepted : action.accepted reply = Encoder.accepted own
  fits : before.CoversFit action → ∀ call ∈ own, ∀ outputs bytes, call.output = .ok outputs → .coded bytes ∈ outputs →
    Encoder.CoverFits (call.before.covers call.input)

private theorem makes_one {action : SenderAction} {reply : SenderReturn} {input : EncoderAction} {encoder : Encoder W C F}
    {made : Except DelpError (List EncoderOutput)} (acted : self.encoder.act input = .ok (encoder, made))
    (sent : ∀ raw ∈ reply.sent, raw ∈ Encoder.packetsOf made) (accepted : action.accepted reply = Encoder.acceptedBy input made)
    (fits : self.CoversFit action → Encoder.CoverFits (self.encoder.covers input)) :
    Makes self action reply ⟨encoder⟩ [⟨self.encoder, input, encoder, made⟩] := by
  refine ⟨Run.start.call acted, fun raw member => ?_, ?_, fun own call member outputs bytes _ _ => ?_⟩
  · rw [Encoder.packets, List.flatMap_singleton]
    exact sent raw member
  · rw [accepted, Encoder.accepted, List.flatMap_singleton]
  · cases List.mem_singleton.mp member
    exact fits own

private theorem recvFeedback_heard {count : ℕ} {answers : List Answer} {result : TransportResult ℕ}
    (received : self.recvFeedback count answers = .ok (after, result)) :
    ∃ own, Run Encoder.act self.encoder own after.encoder ∧
      ∀ call ∈ own, (∃ rid packet, call.input = .feedback rid packet) ∧ call.output = .ok [] := by
  induction answers generalizing self count with
  | nil =>
    cases received
    exact ⟨[], .start, by simp⟩
  | cons answer later ih =>
    cases answer with
    | error error =>
      cases error <;> cases received <;> exact ⟨[], .start, by simp⟩
    | ok datagram =>
      obtain ⟨rid, raw⟩ := datagram
      rw [recvFeedback] at received
      split at received
      next packet parsed =>
        obtain ⟨encoder, handled, received⟩ := Outcome.bind_eq_ok.mp received
        have acted : self.encoder.act (.feedback rid packet) = .ok (encoder, .ok []) := by
          rw [Encoder.act, handled]
          rfl
        obtain ⟨own, run, heard⟩ := ih received
        refine ⟨_, (Run.start.call acted).append run, fun call member => ?_⟩
        rcases List.mem_append.mp member with first | later
        · cases List.mem_singleton.mp first
          exact ⟨⟨rid, packet, rfl⟩, rfl⟩
        · exact heard call later
      next => exact ih received
      next => cases received

private theorem makes_heard {action : SenderAction} {reply : SenderReturn}
    {own : List (Call (Encoder W C F) EncoderAction (Except DelpError (List EncoderOutput)))}
    (run : Run Encoder.act self.encoder own after.encoder)
    (heard : ∀ call ∈ own, (∃ rid packet, call.input = .feedback rid packet) ∧ call.output = .ok [])
    (sent : reply.sent = []) (accepted : action.accepted reply = []) : Makes self action reply after own := by
  refine ⟨run, fun raw member => ?_, ?_, fun _ call member outputs bytes output coded => ?_⟩
  · rw [sent] at member
    cases member
  · rw [accepted]
    refine (List.flatMap_eq_nil_iff.mpr fun call member => ?_).symm
    obtain ⟨⟨rid, packet, input⟩, _⟩ := heard call member
    rw [input]
    rfl
  · cases output.symm.trans (heard call member).2
    cases coded

omit [WindowPolicy W] [CongestionControl C] [FecRateController F] in
private theorem accepted_transmitted (data : Bytes) (outcomes : List (Except SocketError Unit)) (packets : List Bytes) :
    (SenderAction.sendSource data outcomes).accepted (.source (transmit packets outcomes)) = [data] := by
  have clean := transmit_result packets outcomes
  generalize transmit packets outcomes = reply at clean
  unfold SenderAction.accepted
  dsimp only
  split
  next error failed => exact absurd failed (clean error)
  next => rfl

theorem act_makes {action : SenderAction} {reply : SenderReturn} (acted : self.act action = .ok (after, reply)) :
    ∃ own, Makes self action reply after own := by
  cases action with
  | sendSource data outcomes =>
    obtain ⟨⟨sender, result⟩, sent, same⟩ := Outcome.bind_eq_ok.mp acted
    cases same
    unfold sendSource at sent
    split at sent
    next error refused =>
      cases sent
      exact ⟨[], .start, fun _ member => (List.not_mem_nil member).elim, rfl, fun _ _ member => (List.not_mem_nil member).elim⟩
    next => cases sent
    next encoder packets submitted =>
      cases sent
      refine ⟨_, makes_one (?_ : self.encoder.act (.submit data) = .ok (encoder, .ok packets)) (transmit_sent _ outcomes).subset ?_ id⟩
      · rw [Encoder.act, submitted]
      · exact accepted_transmitted data outcomes _
  | sendCoded outcomes =>
    obtain ⟨⟨sender, result⟩, sent, same⟩ := Outcome.bind_eq_ok.mp acted
    cases same
    unfold sendCoded at sent
    split at sent
    next error refused =>
      cases sent
      exact ⟨[], .start, fun _ member => (List.not_mem_nil member).elim, rfl, fun _ _ member => (List.not_mem_nil member).elim⟩
    next => cases sent
    next encoder generated =>
      cases sent
      refine ⟨_, makes_one (?_ : self.encoder.act .coded = .ok (encoder, .ok [])) (fun _ member => member) rfl id⟩
      rw [Encoder.act, generated]
      rfl
    next encoder packet generated =>
      cases sent
      refine ⟨_, makes_one (?_ : self.encoder.act .coded = .ok (encoder, .ok [packet])) (transmit_sent _ outcomes).subset rfl id⟩
      rw [Encoder.act, generated]
      rfl
  | recvFeedback answers =>
    obtain ⟨⟨sender, result⟩, received, same⟩ := Outcome.bind_eq_ok.mp acted
    cases same
    obtain ⟨own, run, heard⟩ := recvFeedback_heard received
    exact ⟨own, makes_heard run heard rfl rfl⟩
  | waitFeedback answer =>
    obtain ⟨⟨sender, result⟩, waited, same⟩ := Outcome.bind_eq_ok.mp acted
    cases same
    obtain ⟨count, received⟩ := waitFeedback_eq waited
    obtain ⟨own, run, heard⟩ := recvFeedback_heard received
    exact ⟨own, makes_heard run heard rfl rfl⟩

end FecSender

namespace Link
variable {W C F P : Type} [WindowPolicy W] [CongestionControl C] [FecRateController F] [FeedbackPolicy P]
  {config : EncoderConfig} {windowPolicy : W} {cc : C} {fec : F} {receivers : ReceiverId → DecoderConfig × P}
  {calls : List (Call (Link W C F P) LinkAction LinkReply)} {state : Link W C F P}
  {steps : List (Call (Network W C F P) NetworkAction NetworkReply)} {net : Network W C F P}

/-- A run of the network that does what the calls of a link do. The network has also sent what a socket error kept from the wire. -/
structure Follows (start : Network W C F P) (calls : List (Call (Link W C F P) LinkAction LinkReply)) (state : Link W C F P)
    (steps : List (Call (Network W C F P) NetworkAction NetworkReply)) (net : Network W C F P) : Prop where
  run : Run Network.step start steps net
  encoder : net.encoder = state.sender.encoder
  decoders : ∀ receiver, net.decoders receiver = (state.receivers receiver).decoder
  wire : ∀ raw ∈ state.wire, raw ∈ net.sent.map (·.raw)
  accepted : Network.accepted steps = accepted calls
  read : ∀ receiver, (Network.arrivals receiver steps).map (·.input) = read receiver calls
  queue : ∀ receiver, handed receiver calls ++ (state.receivers receiver).ready = Decoder.deliveries (Network.arrivals receiver steps)
  fits : (∀ call ∈ calls, CoversFit call) → ∀ call ∈ steps, Network.CoversFit call

omit [WindowPolicy W] [CongestionControl C] [FecRateController F] [FeedbackPolicy P] in
theorem replies_append {receiver : ReceiverId} {call : Call (Link W C F P) LinkAction LinkReply} {own : List ReceiverReply}
    (replied : replies receiver [call] = own) :
    handed receiver (calls ++ [call]) = handed receiver calls ++ own.flatMap (·.handed) ∧
      read receiver (calls ++ [call]) = read receiver calls ++ (own.flatMap (·.taken)).filterMap Arrival.ofRaw := by
  have split : replies receiver (calls ++ [call]) = replies receiver calls ++ own := replied ▸ List.filterMap_append
  rw [handed, handed, read, read, split, List.flatMap_append, List.flatMap_append, List.filterMap_append]
  exact ⟨rfl, rfl⟩

omit [WindowPolicy W] [CongestionControl C] [FecRateController F] [FeedbackPolicy P] in
theorem accepted_append (calls : List (Call (Link W C F P) LinkAction LinkReply)) (call : Call (Link W C F P) LinkAction LinkReply) :
    accepted (calls ++ [call]) = accepted calls ++ accepted [call] := List.flatMap_append

omit [WindowPolicy W] [CongestionControl C] [FecRateController F] [FeedbackPolicy P] in
theorem replies_receive (receiver : ReceiverId) (state next : Link W C F P) (action : ReceiverAction) (reply : ReceiverReply) :
    replies receiver [⟨state, .receive receiver action, next, .received reply⟩] = [reply] := by
  have replied : replyTo receiver ⟨state, .receive receiver action, next, .received reply⟩ = some reply := if_pos rfl
  rw [replies, List.filterMap_cons_some replied, List.filterMap_nil]

omit [WindowPolicy W] [CongestionControl C] [FecRateController F] [FeedbackPolicy P] in
theorem replies_other {receiver other : ReceiverId} (different : receiver ≠ other) (state next : Link W C F P) (action : ReceiverAction)
    (reply : ReceiverReply) : replies other [⟨state, .receive receiver action, next, .received reply⟩] = [] := by
  have silent : replyTo other ⟨state, .receive receiver action, next, .received reply⟩ = none := if_neg different
  rw [replies, List.filterMap_cons_none silent, List.filterMap_nil]

variable {start : Network W C F P}

theorem Follows.sends (follows : Follows start calls state steps net) {action : SenderAction} {after : FecSender W C F}
    {reply : SenderReturn} (acted : state.sender.act action = .ok (after, reply)) :
    ∃ steps net, Follows start (calls ++ [⟨state, .send action, { state with
      sender := after, wire := state.wire ++ reply.sent }, .sent reply⟩]) { state with
      sender := after, wire := state.wire ++ reply.sent } steps net := by
  obtain ⟨own, makes⟩ := FecSender.act_makes acted
  obtain ⟨more, next, encodes, encoder⟩ := Network.encodes_of (follows.encoder ▸ makes.run)
  have only (call : _) (member : call ∈ more) : ∃ action, call.input = .encode action := by
    obtain ⟨own, _, input, _⟩ := encodes.encodes call member
    exact ⟨own.input, input⟩
  have same (receiver : ReceiverId) : Network.arrivals receiver (steps ++ more) = Network.arrivals receiver steps := by
    rw [Network.arrivals, List.filterMap_append]
    exact (congrArg _ (Network.arrivals_of_encodes only receiver)).trans (List.append_nil _)
  have silent (receiver : ReceiverId) (next : Link W C F P) : replies receiver [⟨state, .send action, next, .sent reply⟩] = [] := rfl
  refine ⟨steps ++ more, next, follows.run.append encodes.run, encoder, fun receiver => ?_, fun raw member => ?_, ?_,
    fun receiver => ?_, fun receiver => ?_, fun all call member => ?_⟩
  · rw [encodes.decoders]
    exact follows.decoders receiver
  · rw [encodes.sent]
    rcases List.mem_append.mp member with old | new
    · exact List.mem_append_left _ (follows.wire raw old)
    · exact List.mem_append_right _ (makes.sent raw new)
  · have split : Network.accepted (steps ++ more) = Network.accepted steps ++ Network.accepted more := List.flatMap_append
    rw [split, encodes.accepted, follows.accepted, accepted_append, ← makes.accepted]
    exact congrArg _ (List.append_nil _).symm
  · rw [same, (replies_append (silent receiver _)).2, follows.read]
    exact (List.append_nil _).symm
  · rw [same, (replies_append (silent receiver _)).1, ← follows.queue]
    exact congrArg (· ++ _) (List.append_nil _)
  · rcases List.mem_append.mp member with old | new
    · exact follows.fits (fun call member => all call (List.mem_append_left _ member)) call old
    · intro other outputs bytes input output coded
      obtain ⟨own, listed, own', made, before⟩ := encodes.encodes call new
      cases input.symm.trans own'
      rw [before]
      exact makes.fits (all _ (List.mem_append_right _ (List.mem_singleton.mpr rfl))) own listed outputs bytes
        (NetworkReply.encoded.inj (made.symm.trans output)) coded

theorem Follows.receives (follows : Follows start calls state steps net) {receiver : ReceiverId} {action : ReceiverAction}
    {after : FecReceiver P} {reply : ReceiverReply} (acted : (state.receivers receiver).act action = .ok (after, reply))
    (arrives : ∀ raw ∈ action.raws, state.arrives raw = true) :
    ∃ steps net, Follows start (calls ++ [⟨state, .receive receiver action, { state with
      receivers := Function.update state.receivers receiver after }, .received reply⟩]) { state with
      receivers := Function.update state.receivers receiver after } steps net := by
  obtain ⟨own, serves⟩ := FecReceiver.act_serves acted
  have decoded := serves.run
  rw [← follows.decoders] at decoded
  have sent (call : Call (Decoder P) Arrival Reply) (member : call ∈ own) : ∃ raw ∈ net.sent.map (·.raw), call.input.Reads raw := by
    have listed : call.input ∈ reply.taken.filterMap Arrival.ofRaw := serves.inputs ▸ List.mem_map_of_mem member
    obtain ⟨raw, taken, found⟩ := List.mem_filterMap.mp listed
    have known := arrives raw (FecReceiver.act_taken acted raw taken)
    rw [Link.arrives, found, Option.isNone_some, Bool.or_false] at known
    exact ⟨raw, follows.wire raw (List.contains_iff_mem.mp known), Arrival.ofRaw_eq_some.mp found⟩
  obtain ⟨positions, placed⟩ := Network.positions_of sent
  obtain ⟨more, next, reads⟩ := Network.reads_at decoded placed
  have split (other : ReceiverId) : Network.arrivals other (steps ++ more) =
      Network.arrivals other steps ++ Network.arrivals other more := List.filterMap_append
  refine ⟨steps ++ more, next, follows.run.append reads.run, reads.encoder.trans follows.encoder, fun other => ?_, fun raw member => ?_,
    ?_, fun other => ?_, fun other => ?_, fun all call member => ?_⟩
  · rw [reads.decoders]
    dsimp only
    by_cases same : other = receiver
    · subst same
      rw [Function.update_self, Function.update_self]
    · rw [Function.update_of_ne same, Function.update_of_ne same]
      exact follows.decoders other
  · rw [reads.sent]
    exact follows.wire raw member
  · have accepts : Network.accepted (steps ++ more) = Network.accepted steps ++ Network.accepted more := List.flatMap_append
    rw [accepts, Network.Passive.accepted reads.passive, accepted_append, follows.accepted]
    rfl
  · by_cases same : other = receiver
    · subst same
      rw [(replies_append (replies_receive other _ _ action reply)).2, split, reads.own, List.map_append, follows.read, serves.inputs,
        List.flatMap_singleton]
    · rw [(replies_append (replies_other (Ne.symm same) _ _ action reply)).2, split, reads.others other same, List.append_nil,
        follows.read]
      exact (List.append_nil _).symm
  · dsimp only
    by_cases same : other = receiver
    · subst same
      rw [(replies_append (replies_receive other _ _ action reply)).1, split, reads.own, Decoder.deliveries_append, ← follows.queue,
        List.flatMap_singleton, List.append_assoc, List.append_assoc, serves.queue, Function.update_self]
    · rw [(replies_append (replies_other (Ne.symm same) _ _ action reply)).1, split, reads.others other same, List.append_nil,
        ← follows.queue, Function.update_of_ne same]
      exact congrArg (· ++ _) (List.append_nil _)
  · rcases List.mem_append.mp member with old | new
    · exact follows.fits (fun call member => all call (List.mem_append_left _ member)) call old
    · exact (reads.passive call new).fits

theorem Follows.idle (follows : Follows start calls state steps net) (receiver : ReceiverId) (action : ReceiverAction) :
    Follows start (calls ++ [⟨state, .receive receiver action, state, .idle⟩]) state steps net := by
  have silent (other : ReceiverId) : replies other [⟨state, .receive receiver action, state, .idle⟩] = [] := rfl
  refine ⟨follows.run, follows.encoder, follows.decoders, follows.wire, ?_, fun other => ?_, fun other => ?_,
    fun fits => follows.fits fun call member => fits call (List.mem_append_left _ member)⟩
  · rw [accepted_append, follows.accepted]
    exact (List.append_nil _).symm
  · rw [(replies_append (silent other)).2, follows.read]
    exact (List.append_nil _).symm
  · rw [(replies_append (silent other)).1, ← follows.queue]
    exact congrArg (· ++ _) (List.append_nil _)

omit [WindowPolicy W] [CongestionControl C] [FecRateController F] [FeedbackPolicy P] in
instance (call : Call (Link W C F P) LinkAction LinkReply) : Decidable (CoversFit call) :=
  match call with
  | ⟨_, .send _, _, _⟩ => inferInstanceAs (Decidable (FecSender.CoversFit _ _))
  | ⟨_, .receive _ _, _, _⟩ => isTrue trivial

end Link
end Delp
