import Delp.Codec.Decoder
import Delp.Codec.Encoder

/-! The two ends of a session, as far as they decide what becomes of a datagram. -/

namespace Delp

/-- `match parsed { Ok(value) => …, Err(_) => return … }` -/
def unlessMalformed {α β : Type} (parsed : Result α) (dropped : β) (next : α → Result β) : Result β :=
  match parsed with
  | .ok value => next value
  | .err _ => pure dropped
  | .panic reason => .panic reason

def EncoderOutput.raw : EncoderOutput → Bytes
  | .source bytes | .coded bytes => bytes

/-- `process_one` of the receiver: malformed datagrams and stray feedback are dropped silently. -/
def Decoder.processOne {P : Type} [FeedbackPolicy P] (self : Decoder P) (raw : Bytes) : Result (Decoder P × Reply) :=
  unlessMalformed (CommonHeader.parse raw) (self, .ok []) fun hdr =>
    unlessMalformed hdr.packetType (self, .ok []) fun
      | .source => unlessMalformed (SourcePacket.parse raw) (self, .ok []) self.handleSource
      | .coded => unlessMalformed (CodedPacket.parse raw) (self, .ok []) self.handleCoded
      | .feedback => pure (self, .ok [])

/-- One turn of `recv_feedback` of the sender: malformed feedback is dropped silently. -/
def Encoder.recvFeedback {W C F : Type} [WindowPolicy W] [CongestionControl C] [FecRateController F]
    (self : Encoder W C F) (rid : ReceiverId) (raw : Bytes) : Result (Encoder W C F) :=
  unlessMalformed (FeedbackPacket.parse raw) self (self.handleFeedback rid)

end Delp
