import Delp.Transport.Receiver

/-! `FecSender`, which waits for the socket, and `SinkSender`, which keeps a queue of packets for it. What the
socket answers is an input. -/

namespace Delp

/-- What one call returns, `none` while it is pending, and the datagrams that it puts on the wire. -/
structure SenderReply (α : Type) where
  result : Option (TransportResult α)
  sent : List Bytes := []

/-- A datagram that has arrived at the socket, with the id that is derived from its source address. -/
abbrev Answer := Except SocketError (ReceiverId × Bytes)

/-- The loop of `send_source` over its packets. An error ends it, as does the end of the list of outcomes, where the
future is still waiting, or has been dropped. -/
def transmit : List Bytes → List (Except SocketError Unit) → SenderReply Unit
  | [], _ => { result := some (.ok ()) }
  | _ :: _, [] => { result := none }
  | _ :: _, .error error :: _ => { result := some (.error (.io error)) }
  | raw :: packets, .ok () :: outcomes =>
    let reply := transmit packets outcomes
    { reply with sent := raw :: reply.sent }

structure FecSender (W C F : Type) where
  encoder : Encoder W C F

namespace FecSender
variable {W C F : Type} [WindowPolicy W] [CongestionControl C] [FecRateController F]

def new (encoder : Encoder W C F) : FecSender W C F := ⟨encoder⟩

/-- `send_source`: encode one symbol, and send its packets one by one. -/
def sendSource (self : FecSender W C F) (data : Bytes) (outcomes : List (Except SocketError Unit)) :
    Result (FecSender W C F × SenderReply Unit) :=
  match self.encoder.submitSource data with
  | .err error => pure (self, { result := some (.error (.codec error)) })
  | .panic reason => .panic reason
  | .ok (encoder, packets) => pure ({ encoder }, transmit (packets.map (·.raw)) outcomes)

/-- `send_coded`: one more coded packet, if there is a window to cover. -/
def sendCoded (self : FecSender W C F) (outcomes : List (Except SocketError Unit)) :
    Result (FecSender W C F × SenderReply Bool) :=
  match self.encoder.generateCoded with
  | .err error => pure (self, { result := some (.error (.codec error)) })
  | .panic reason => .panic reason
  | .ok (encoder, none) => pure ({ encoder }, { result := some (.ok false) })
  | .ok (encoder, some packet) =>
    let reply := transmit [packet.raw] outcomes
    pure ({ encoder }, { result := reply.result.map fun sent => sent.map fun _ => true, sent := reply.sent })

/-- `recv_feedback`: drain the socket until it would block, and count the feedback packets. -/
def recvFeedback (self : FecSender W C F) (count : ℕ) : List Answer → Result (FecSender W C F × TransportResult ℕ)
  | [] | .error .wouldBlock :: _ => pure (self, .ok count)
  | .error error :: _ => pure (self, .error (.io error))
  | .ok (rid, raw) :: later =>
    match FeedbackPacket.parse raw with
    | .ok packet => do
      let encoder ← self.encoder.handleFeedback rid packet
      recvFeedback { encoder } (count + 1) later
    | .err _ => self.recvFeedback count later
    | .panic reason => .panic reason

/-- `wait_feedback`: the next datagram, whatever it is. -/
def waitFeedback (self : FecSender W C F) : Answer → Result (FecSender W C F × TransportResult Unit)
  | .error error => pure (self, .error (.io error))
  | .ok (rid, raw) => do
    let encoder ← self.encoder.recvFeedback rid raw
    pure ({ encoder }, .ok ())

end FecSender

inductive SenderAction where
  | sendSource (data : Bytes) (outcomes : List (Except SocketError Unit))
  | sendCoded (outcomes : List (Except SocketError Unit))
  | recvFeedback (answers : List Answer)
  | waitFeedback (answer : Answer)

inductive SenderReturn where
  | source (reply : SenderReply Unit)
  | coded (reply : SenderReply Bool)
  | drained (result : TransportResult ℕ)
  | waited (result : TransportResult Unit)

def SenderReturn.sent : SenderReturn → List Bytes
  | .source reply => reply.sent
  | .coded reply => reply.sent
  | .drained _ | .waited _ => []

def FecSender.act {W C F : Type} [WindowPolicy W] [CongestionControl C] [FecRateController F] (self : FecSender W C F) :
    SenderAction → Result (FecSender W C F × SenderReturn)
  | .sendSource data outcomes => do
    let (self, reply) ← self.sendSource data outcomes
    pure (self, .source reply)
  | .sendCoded outcomes => do
    let (self, reply) ← self.sendCoded outcomes
    pure (self, .coded reply)
  | .recvFeedback answers => do
    let (self, result) ← self.recvFeedback 0 answers
    pure (self, .drained result)
  | .waitFeedback answer => do
    let (self, result) ← self.waitFeedback answer
    pure (self, .waited result)

/-- A sender behind the `Sink` interface. -/
structure SinkSender (W C F : Type) where
  inner : FecSender W C F
  pending : List Bytes

/-- The calls of the `Sink` interface; `outcomes` are those of `try_send_to`. -/
inductive SinkAction where
  | pollReady
  | startSend (data : Bytes)
  | pollFlush (outcomes : List (Except SocketError Unit))
  | pollClose (outcomes : List (Except SocketError Unit))

namespace SinkSender
variable {W C F : Type} [WindowPolicy W] [CongestionControl C] [FecRateController F]

def new (encoder : Encoder W C F) : SinkSender W C F := ⟨.new encoder, []⟩

def maxPending : ℕ := 512

def pollReady (self : SinkSender W C F) : SenderReply Unit :=
  if self.pending.length ≥ maxPending then { result := none } else { result := some (.ok ()) }

def startSend (self : SinkSender W C F) (data : Bytes) : Result (SinkSender W C F × SenderReply Unit) :=
  match self.inner.encoder.submitSource data with
  | .err error => pure (self, { result := some (.error (.codec error)) })
  | .panic reason => .panic reason
  | .ok (encoder, packets) =>
    pure ({ inner := { encoder }, pending := self.pending ++ packets.map (·.raw) }, { result := some (.ok ()) })

/-- The loop of `poll_flush`: a packet leaves the queue once the socket has taken it. -/
def drain : List Bytes → List (Except SocketError Unit) → List Bytes × SenderReply Unit
  | [], _ => ([], { result := some (.ok ()) })
  | pending, [] | pending, .error .wouldBlock :: _ => (pending, { result := none })
  | pending, .error error :: _ => (pending, { result := some (.error (.io error)) })
  | raw :: pending, .ok () :: outcomes =>
    let (left, reply) := drain pending outcomes
    (left, { reply with sent := raw :: reply.sent })

def pollFlush (self : SinkSender W C F) (outcomes : List (Except SocketError Unit)) : SinkSender W C F × SenderReply Unit :=
  let (pending, reply) := drain self.pending outcomes
  ({ self with pending }, reply)

def act (self : SinkSender W C F) : SinkAction → Result (SinkSender W C F × SenderReply Unit)
  | .pollReady => pure (self, self.pollReady)
  | .startSend data => self.startSend data
  | .pollFlush outcomes | .pollClose outcomes => pure (self.pollFlush outcomes)

end SinkSender
end Delp
