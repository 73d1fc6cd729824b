import Delp.Codec.Window
import Delp.Gf.Simd
import Delp.Wire.CoefGen

/-! The encoder state machine. -/

namespace Delp
open Machine Config

inductive EncoderOutput where
  | source (bytes : Bytes)
  | coded (bytes : Bytes)
deriving DecidableEq, Repr

/-- The scratch buffer of the source is cleared before each use and is not part of the state. -/
structure Encoder (W C F : Type) where
  config : EncoderConfig
  window : EncodingWindow
  nextCodedId : CodedSymbolId
  codedIdsUsed : Nat
  generation : UInt8
  ackState : ReceiverAckState
  windowPolicy : W
  cc : C
  fec : F

def makeEncoderState (window : EncodingWindow) (capacity : Nat) : EncoderState where
  windowSize := window.len
  windowCapacity := capacity
  nextSourceId := window.nextId
  nextCodedId := 0
  lossRate := ⟨0, 0⟩
  windowIds := []

namespace Encoder
variable {W C F : Type} [WindowPolicy W] [CongestionControl C] [FecRateController F]

def new (config : EncoderConfig) (windowPolicy : W) (cc : C) (fec : F) : Encoder W C F where
  config := config
  window := .new config.windowCapacity
  nextCodedId := match config.matrixStrategy with
    | .cauchy => 0
    | .vandermonde => 1
  codedIdsUsed := 0
  generation := 0
  ackState := {}
  windowPolicy := windowPolicy
  cc := cc
  fec := fec

def codedIdCycle (self : Encoder W C F) : UInt32 :=
  match self.config.matrixStrategy, self.config.field with
  | .cauchy, .gf2_8 => 128
  | .cauchy, .gf2_4 => 7
  | .vandermonde, .gf2_8 => 254
  | .vandermonde, .gf2_4 => 14

/-- Advance the coded-id counter, and the generation when a Cauchy cycle wraps. -/
def advanceCodedId (self : Encoder W C F) : Result (Encoder W C F) := do
  let next ← addU32 self.nextCodedId 1
  let self := { self with nextCodedId := next, codedIdsUsed := self.codedIdsUsed + 1 }
  match self.config.matrixStrategy with
  | .vandermonde =>
    let orderMinus1 : UInt32 := match self.config.field with
      | .gf2_8 => 255
      | .gf2_4 => 15
    pure (if self.nextCodedId ≥ orderMinus1 then { self with nextCodedId := 1 } else self)
  | .cauchy =>
    pure (if self.nextCodedId ≥ self.codedIdCycle then
      { self with nextCodedId := 0, generation := self.generation + 1 } else self)

/-- The coefficients of a cover and the encoding vector that announces them. -/
def coefficientsFor (self : Encoder W C F) (cover : List SourceSymbolId) (codedId : CodedSymbolId)
    (generation : UInt8) : Result (Bytes × EncodingVector) :=
  match self.config.matrixStrategy with
  | .vandermonde => do
    let coefs ← CoefGen.vandermondeBatch self.config.field cover codedId
    let ev ← EncodingVector.vandermonde self.config.field codedId cover
    pure (coefs, ev)
  | .cauchy => do
    Outcome.require (codedId < self.codedIdCycle) .assertion
    let coefs ← match self.config.field with
      | .gf2_8 => CoefGen.cauchyBatchGf2_8 cover codedId generation
      | .gf2_4 => CoefGen.cauchyBatchGf2_4 cover codedId generation
    let ev ← EncodingVector.explicit self.config.field codedId cover coefs
    pure (coefs, ev.withGeneration generation)

/-- One turn of the payload sum. The nibble tables are looked up directly: unlike the
decoder's `mul_acc`, this path checks the length of the symbol in debug builds only. -/
def accumulate (self : Encoder W C F) (scratch : Bytes) (term : SourceSymbolId × UInt8) : Result Bytes :=
  let c := match self.config.field with
    | .gf2_8 => term.2
    | .gf2_4 => term.2 &&& 0x0F
  if c = 0 then pure scratch
  else do
    let data ← Outcome.get .unwrap (self.window.get term.1)
    Outcome.require (data.length = self.config.symbolSize) .assertion
    pure (Gf.scalarMulAcc scratch data (match self.config.field with
      | .gf2_8 => .forGf2_8 c
      | .gf2_4 => .forGf2_4 ((c <<< 4) ||| c)))

def computeCodedPayloadTargeted (self : Encoder W C F) (cover : List SourceSymbolId) (coefs : Bytes) :
    Result Bytes :=
  (cover.zip coefs).foldlM self.accumulate (List.replicate self.config.symbolSize 0)

def generateCodedInner (self : Encoder W C F) (cover : List SourceSymbolId) :
    Result (Encoder W C F × Option EncoderOutput) := do
  Outcome.require (cover.isEmpty = false) .assertion
  let codedId := self.nextCodedId
  let generation := self.generation
  let self ← self.advanceCodedId
  let (coefs, ev) ← self.coefficientsFor cover codedId generation
  let payload ← self.computeCodedPayloadTargeted cover coefs
  let cci := CongestionControl.generateCci self.cc
  let pkt ← CodedPacket.serialise codedId ev payload cci none
  pure ({ self with cc := CongestionControl.onSend self.cc pkt.length }, some (.coded pkt))

def generateCoded (self : Encoder W C F) : Result (Encoder W C F × Option EncoderOutput) :=
  if self.window.isEmpty then pure (self, none) else self.generateCodedInner self.window.idSlice

/-- One coded packet covering the given ids that are in the window. -/
def generateCodedTargeted (self : Encoder W C F) (coverIds : List SourceSymbolId) :
    Result (Encoder W C F × Option EncoderOutput) :=
  if self.window.isEmpty then pure (self, none)
  else
    let cover := coverIds.filter fun id => self.window.idSlice.contains id
    if cover.isEmpty then pure (self, none) else self.generateCodedInner cover

def generateCodedRecent (self : Encoder W C F) (n : Nat) : Result (Encoder W C F × Option EncoderOutput) :=
  if self.window.isEmpty ∨ n = 0 then pure (self, none)
  else
    let take := min n self.window.symbols.length
    self.generateCodedInner ((self.window.symbols.drop (self.window.symbols.length - take)).map (·.id))

def generateCodedForReceiver (self : Encoder W C F) (receiverId : ReceiverId) :
    Result (Encoder W C F × Option EncoderOutput) :=
  if self.window.isEmpty then pure (self, none)
  else
    let cover := self.window.idSlice.filter fun id => !self.ackState.isAcked receiverId id
    if cover.isEmpty then pure (self, none) else self.generateCodedInner cover

/-- The loop of `submit_source` that emits the coded packets its rate controller asks for. -/
def emitCoded (self : Encoder W C F) (out : List EncoderOutput) : Nat →
    Result (Encoder W C F × List EncoderOutput)
  | 0 => pure (self, out)
  | count + 1 => do
    match ← self.generateCoded with
    | (self, some coded) => self.emitCoded (out ++ [coded]) count
    | (self, none) => pure (self, out)

/-- The window after the backpressure step, or the error that refuses the symbol. -/
def makeRoom (self : Encoder W C F) : Result EncodingWindow :=
  if self.window.isFull then
    match self.config.backpressure with
    | .reject => .err (.windowFull self.config.windowCapacity)
    | .evictOldest => pure self.window.evictOldest
  else pure self.window

/-- Submit one source symbol. An error is reported before any change to the encoder. -/
def submitSource (self : Encoder W C F) (data : Bytes) : Result (Encoder W C F × List EncoderOutput) :=
  if data.length ≠ self.config.symbolSize then
    .err (.symbolSizeMismatch self.config.symbolSize data.length)
  else do
    let window ← self.makeRoom
    let (window, sourceId) ← window.push data
    let cci := CongestionControl.generateCci self.cc
    let srcPkt ← SourcePacket.serialise sourceId data cci none
    let cc := CongestionControl.onSend self.cc srcPkt.length
    let (nCoded, fec) := FecRateController.codedPacketsToGenerate self.fec
      (makeEncoderState window self.config.windowCapacity)
    emitCoded { self with window, cc, fec } [.source srcPkt] nCoded

def handleFeedback (self : Encoder W C F) (receiverId : ReceiverId) (pkt : FeedbackPacket) :
    Result (Encoder W C F) := do
  let ackState ← self.ackState.update receiverId pkt
  let (toRm, windowPolicy) := WindowPolicy.symbolsToRemove self.windowPolicy ackState self.window.idSlice
  let window := if toRm.isEmpty then self.window else self.window.removeIds toRm
  let loss := FeedbackPacket.decodePlr pkt.plrRaw
  let state := makeEncoderState window self.config.windowCapacity
  pure { self with
    ackState
    windowPolicy
    window
    fec := FecRateController.onFeedback self.fec state loss pkt.nbMissingSrc pkt.nbNotUsedCoded
    cc := CongestionControl.onFeedback self.cc state loss pkt.nbMissingSrc pkt.nbNotUsedCoded }

end Encoder
end Delp
