import Delp.Codec.Buffer
import Delp.Codec.Matrix

/-! The decoder state machine. -/

namespace Delp
open Machine

inductive DecoderEvent where
  /-- A source symbol is ready for delivery, in ascending order of ids. -/
  | sourceReady (id : SourceSymbolId) (data : Bytes)
  | sendFeedback (bytes : Bytes)
  /-- The encoder's window has advanced past these symbols. -/
  | unrecoverableGap (firstMissing : SourceSymbolId) (count : UInt32)
deriving DecidableEq, Repr

/-- The `u64` counters are natural numbers. -/
structure LossTracker where
  received : Nat := 0
  expected : Nat := 0
  lastSeen : UInt32 := 0
deriving DecidableEq, Repr

namespace LossTracker

def onSource (self : LossTracker) (id : UInt32) : LossTracker where
  received := self.received + 1
  expected := self.expected + min (id - self.lastSeen).toNat 1000
  lastSeen := id

def onCoded (self : LossTracker) : LossTracker :=
  { self with received := self.received + 1, expected := self.expected + 1 }

def lossRate (self : LossTracker) : LossRate := ⟨self.expected - self.received, self.expected⟩

end LossTracker

structure Decoder (P : Type) where
  config : DecoderConfig
  buffer : SymbolBuffer
  matrix : DecodingMatrix
  /-- Known source symbols, received directly or recovered. -/
  known : KnownSources
  /-- Lowest source id the encoder may still have in its window. -/
  encoderWinMin : SourceSymbolId
  loss : LossTracker
  feedbackPolicy : P
  packetsReceived : Nat

abbrev Reply := Except DelpError (List DecoderEvent)

namespace Decoder
variable {P : Type} [FeedbackPolicy P]

def new (config : DecoderConfig) (feedbackPolicy : P) : Decoder P where
  config := config
  buffer := .new 0
  matrix := .new config.field config.maxMatrixRows
  known := ∅
  encoderWinMin := 0
  loss := {}
  feedbackPolicy := feedbackPolicy
  packetsReceived := 0

def absorbRecovered (self : Decoder P) (symbol : SourceSymbolId × Bytes) : Decoder P :=
  { self with
    known := self.known.insertIfNew symbol.1 symbol.2
    buffer := self.buffer.insert symbol.1 symbol.2 }

def drainToEvents (self : Decoder P) : Decoder P × List DecoderEvent :=
  let (buffer, out) := self.buffer.drainDeliverable
  ({ self with buffer }, out.map fun (id, data) => .sourceReady id data)

/-- The span of the buffered ids from the delivery pointer, less the buffered ones. -/
def countMissing (self : Decoder P) : Result UInt32 :=
  let next := self.buffer.nextDeliveryId
  let high := self.buffer.highestId.getD next
  if high < next then pure 0
  else do
    let span ← addU32 (high - next) 1
    let buffered := UInt32.ofNat (self.buffer.idsFrom next).length
    pure (if span < buffered then 0 else span - buffered)

def makeState (self : Decoder P) : Result DecoderState := do
  let nbMissingSrc ← self.countMissing
  pure {
    nextDeliveryId := self.buffer.nextDeliveryId
    packetsReceived := self.packetsReceived
    lossRate := self.loss.lossRate
    nbMissingSrc
    nbNotUsedCoded := UInt32.ofNat self.matrix.rowCount }

def maybeSendFeedback (self : Decoder P) : Result (Decoder P × List DecoderEvent) := do
  let state ← self.makeState
  let (send, feedbackPolicy) := FeedbackPolicy.shouldSendFeedback self.feedbackPolicy state
  let self := { self with feedbackPolicy }
  if send then do
    let next := self.buffer.nextDeliveryId
    let acked := (self.buffer.idsFrom next).take 256
    let nbMissing ← self.countMissing
    let pkt ← FeedbackPacket.build next nbMissing (UInt32.ofNat self.matrix.rowCount) self.loss.lossRate acked
    pure (self, [.sendFeedback pkt.serialise])
  else pure (self, [])

/-- Report the symbols below the encoder's window as lost, and move past them. -/
def checkGap (self : Decoder P) : Decoder P × List DecoderEvent :=
  let next := self.buffer.nextDeliveryId
  if self.encoderWinMin > next then
    ({ self with buffer := self.buffer.pruneBelow self.encoderWinMin },
      [.unrecoverableGap next (self.encoderWinMin - next)])
  else (self, [])

/-- The common end of both handlers: absorb, drain, feedback, gap check. -/
def finish (self : Decoder P) (recovered : List (SourceSymbolId × Bytes)) : Result (Decoder P × Reply) := do
  let self := recovered.foldl absorbRecovered self
  let (self, ready) := self.drainToEvents
  let (self, feedback) ← self.maybeSendFeedback
  let (self, gap) := self.checkGap
  pure (self, .ok (ready ++ feedback ++ gap))

def handleSource (self : Decoder P) (pkt : SourcePacket) : Result (Decoder P × Reply) :=
  if pkt.payload.length ≠ self.config.symbolSize then
    pure (self, .error (.symbolSizeMismatch self.config.symbolSize pkt.payload.length))
  else
    let id := pkt.sourceSymbolId
    let self := { self with
      loss := self.loss.onSource id
      packetsReceived := self.packetsReceived + 1
      known := self.known.insertIfNew id pkt.payload
      buffer := self.buffer.insert id pkt.payload }
    match self.matrix.addKnownSource id pkt.payload self.known with
    | .ok (matrix, recovered) => finish { self with matrix } recovered
    | .err error => pure (self, .error error)
    | .panic reason => .panic reason

/-- The first id of the encoding vector raises the inferred window minimum. -/
def raiseWinMin (self : Decoder P) (pkt : CodedPacket) : SourceSymbolId :=
  match pkt.ev.sourceIds.head? with
  | some firstSrc => if firstSrc > self.encoderWinMin then firstSrc else self.encoderWinMin
  | none => self.encoderWinMin

def handleCoded (self : Decoder P) (pkt : CodedPacket) : Result (Decoder P × Reply) :=
  if pkt.payload.length ≠ self.config.symbolSize then
    pure (self, .error (.symbolSizeMismatch self.config.symbolSize pkt.payload.length))
  else
    let self := { self with
      loss := self.loss.onCoded
      packetsReceived := self.packetsReceived + 1
      encoderWinMin := self.raiseWinMin pkt }
    match self.matrix.addCoded pkt.ev pkt.payload self.known with
    | .ok (matrix, recovered) => finish { self with matrix } recovered
    | .err error => pure (self, .error error)
    | .panic reason => .panic reason

end Decoder
end Delp
