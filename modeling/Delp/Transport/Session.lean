import Delp.Codec.Defaults
import Delp.Transport.Sender

/-! `DelpSession`, a sender and a receiver over one socket, and the builder of the most common session. -/

namespace Delp
open Config

structure DelpSession (W C F P : Type) where
  sender : FecSender W C F
  receiver : FecReceiver P

/-- The calls of a session are those of its halves, which separate tasks may make. -/
inductive SessionAction where
  | sender (action : SenderAction)
  | receiver (action : ReceiverAction)

inductive SessionReturn where
  | sender (reply : SenderReturn)
  | receiver (reply : ReceiverReply)

/-- The datagrams that a call has put on the wire: packets of the sender, and feedback of the receiver. -/
def SessionReturn.sent : SessionReturn → List Bytes
  | .sender reply => reply.sent
  | .receiver reply => reply.feedback

namespace DelpSession
variable {W C F P : Type} [WindowPolicy W] [CongestionControl C] [FecRateController F] [FeedbackPolicy P]

def new (encoder : Encoder W C F) (decoder : Decoder P) : DelpSession W C F P := ⟨.new encoder, .new decoder⟩

/-- Both halves go on with the socket that they share. -/
def split (self : DelpSession W C F P) : FecSender W C F × FecReceiver P := (self.sender, self.receiver)

def act (self : DelpSession W C F P) : SessionAction → Result (DelpSession W C F P × SessionReturn)
  | .sender action => do
    let (sender, reply) ← self.split.1.act action
    pure ({ self with sender }, .sender reply)
  | .receiver action => do
    let (receiver, reply) ← self.split.2.act action
    pure ({ self with receiver }, .receiver reply)

end DelpSession

/-- Every setting has a setter of its own, `backpressure` apart. -/
structure SessionBuilder where
  symbolSize : Nat := 1024
  windowCapacity : Nat := 32
  fecNumer : Nat := 1
  fecDenom : Nat := 4
  field : Config.Field := .gf2_8
  strategy : MatrixStrategy := .vandermonde
  backpressure : BackpressureMode := .reject
  feedbackEvery : UInt32 := 8
deriving DecidableEq, Repr

abbrev DefaultSession := DelpSession AnyAckPolicy NoCongestionControl ConstantFecRate ConstantFeedbackPolicy

/-- `build`; `bound` is what binding the socket returns. The decoder is not told `feedback_every`. -/
def SessionBuilder.build (self : SessionBuilder) (bound : Except SocketError Unit) : Result (TransportResult DefaultSession) :=
  let encoder : EncoderConfigBuilder := {
    symbolSize := self.symbolSize
    windowCapacity := self.windowCapacity
    fecNumer := self.fecNumer
    fecDenom := self.fecDenom
    field := self.field
    matrixStrategy := self.strategy
    backpressure := self.backpressure }
  let decoder : DecoderConfigBuilder := { symbolSize := self.symbolSize, field := self.field }
  match encoder.build, decoder.build with
  | .err error, _ | .ok _, .err error => .ok (.error (.codec error))
  | .panic reason, _ | .ok _, .panic reason => .panic reason
  | .ok encCfg, .ok decCfg => do
    let encoder ← DefaultEncoder.withDefaults encCfg
    let decoder ← DefaultDecoder.withDefaults decCfg
    match bound with
    | .error error => pure (.error (.io error))
    | .ok () => pure (.ok (.new encoder decoder))

end Delp
