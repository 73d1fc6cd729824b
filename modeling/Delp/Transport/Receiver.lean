import Delp.Transport

/-! `FecReceiver`: datagrams in, symbols out through a queue. What the socket answers, and where a caller
drops a future, is an input. -/

namespace Delp

/-- What a socket call fails with. The transport only tells `WouldBlock` from the rest. -/
inductive SocketError where
  | wouldBlock
  | other (code : ℕ)
deriving DecidableEq, Repr

inductive TransportError where
  | codec (error : DelpError)
  | io (error : SocketError)
deriving DecidableEq, Repr

abbrev TransportResult (α : Type) := Except TransportError α

/-- What `recv_from` completes with, and whether the future is dropped while it sends feedback for the datagram. -/
inductive Incoming where
  | failed (error : SocketError)
  | datagram (raw : Bytes) (dropped : Bool)
deriving DecidableEq, Repr

/-- What one call returns, `none` while it is pending, and what it takes from the socket and sends on it. -/
structure ReceiverReply where
  result : Option (TransportResult (SourceSymbolId × Bytes))
  taken : List Bytes := []
  feedback : List Bytes := []

structure FecReceiver (P : Type) where
  decoder : Decoder P
  /-- Decoded symbols waiting to be consumed by the caller. -/
  ready : List (SourceSymbolId × Bytes)

namespace FecReceiver
variable {P : Type} [FeedbackPolicy P]

def new (decoder : Decoder P) : FecReceiver P := ⟨decoder, []⟩

/-- The loop of `process_one` over the events of a datagram: `none` when the future is dropped in `send_to`. -/
def onEvents (dropped : Bool) (self : FecReceiver P) (becameReady : Bool) :
    List DecoderEvent → FecReceiver P × Option Bool × List Bytes
  | [] => (self, some becameReady, [])
  | .sourceReady id data :: events => onEvents dropped { self with ready := self.ready ++ [(id, data)] } true events
  | .sendFeedback raw :: events =>
    if dropped then (self, none, [])
    else
      let (self, became, sent) := onEvents dropped self becameReady events
      (self, became, raw :: sent)
  | .unrecoverableGap _ _ :: events => onEvents dropped self becameReady events

/-- `process_one`, from the datagram on: whether a symbol became ready, and the feedback sent. -/
def processOne (self : FecReceiver P) (raw : Bytes) (dropped : Bool) :
    Result (FecReceiver P × TransportResult (Option Bool) × List Bytes) := do
  let (decoder, reply) ← self.decoder.processOne raw
  match reply with
  | .error error => pure ({ self with decoder }, .error (.codec error), [])
  | .ok events =>
    let (self, became, sent) := onEvents dropped { self with decoder } false events
    pure (self, .ok became, sent)

/-- `recv_source`: it waits for datagrams until a symbol is ready. -/
def recvSource (self : FecReceiver P) : List Incoming → Result (FecReceiver P × ReceiverReply)
  | [] =>
    match self.ready with
    | symbol :: ready => pure ({ self with ready }, { result := some (.ok symbol) })
    | [] => pure (self, { result := none })
  | incoming :: later =>
    match self.ready with
    | symbol :: ready => pure ({ self with ready }, { result := some (.ok symbol) })
    | [] =>
      match incoming with
      | .failed error => pure (self, { result := some (.error (.io error)) })
      | .datagram raw dropped => do
        let (self, processed, sent) ← self.processOne raw dropped
        match processed with
        | .error error => pure (self, { result := some (.error error), taken := [raw], feedback := sent })
        | .ok none => pure (self, { result := none, taken := [raw], feedback := sent })
        | .ok (some _) => do
          let (self, reply) ← self.recvSource later
          pure (self, { reply with taken := raw :: reply.taken, feedback := sent ++ reply.feedback })

def tryRecvSource (self : FecReceiver P) : FecReceiver P × ReceiverReply :=
  match self.ready with
  | symbol :: ready => ({ self with ready }, { result := some (.ok symbol) })
  | [] => (self, { result := none })

/-- `dispatch_datagram` of the stream: it sends feedback without waiting. -/
def dispatchDatagram (self : FecReceiver P) (raw : Bytes) :
    Result (FecReceiver P × TransportResult (Option (SourceSymbolId × Bytes)) × List Bytes) := do
  let (decoder, reply) ← self.decoder.processOne raw
  match reply with
  | .error error => pure ({ self with decoder }, .error (.codec error), [])
  | .ok events =>
    let (self, _, sent) := onEvents false { self with decoder } false events
    match self.ready with
    | symbol :: ready => pure ({ self with ready }, .ok (some symbol), sent)
    | [] => pure (self, .ok none, sent)

/-- `poll_next` of the stream; `answer` is what `try_recv_from` returns. -/
def pollNext (self : FecReceiver P) (answer : Except SocketError Bytes) : Result (FecReceiver P × ReceiverReply) :=
  match self.ready with
  | symbol :: ready => pure ({ self with ready }, { result := some (.ok symbol) })
  | [] =>
    match answer with
    | .error .wouldBlock => pure (self, { result := none })
    | .error error => pure (self, { result := some (.error (.io error)) })
    | .ok raw => do
      let (self, dispatched, sent) ← self.dispatchDatagram raw
      match dispatched with
      | .error error => pure (self, { result := some (.error error), taken := [raw], feedback := sent })
      | .ok (some symbol) => pure (self, { result := some (.ok symbol), taken := [raw], feedback := sent })
      | .ok none => pure (self, { result := none, taken := [raw], feedback := sent })

end FecReceiver

inductive ReceiverAction where
  | recvSource (incoming : List Incoming)
  | tryRecvSource
  | pollNext (answer : Except SocketError Bytes)

namespace FecReceiver
variable {P : Type} [FeedbackPolicy P]

def act (self : FecReceiver P) : ReceiverAction → Result (FecReceiver P × ReceiverReply)
  | .recvSource incoming => self.recvSource incoming
  | .tryRecvSource => pure self.tryRecvSource
  | .pollNext answer => self.pollNext answer

end FecReceiver
end Delp
