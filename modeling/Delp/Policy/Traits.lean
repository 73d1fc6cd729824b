import Delp.Policy.AckState

/-! The pluggable policies. A policy method that takes `&mut self` returns the
policy's next state beside its answer. -/

namespace Delp

structure EncoderState where
  windowSize : Nat
  windowCapacity : Nat
  nextSourceId : SourceSymbolId
  nextCodedId : CodedSymbolId
  lossRate : LossRate
  windowIds : List SourceSymbolId

structure DecoderState where
  nextDeliveryId : SourceSymbolId
  packetsReceived : Nat
  lossRate : LossRate
  nbMissingSrc : UInt32
  nbNotUsedCoded : UInt32

/-- Decides which windowed symbols may be removed after an acknowledgement. -/
class WindowPolicy (W : Type) where
  symbolsToRemove : W → ReceiverAckState → List SourceSymbolId → List SourceSymbolId × W

class CongestionControl (C : Type) where
  generateCci : C → Bytes
  onFeedback : C → EncoderState → LossRate → UInt32 → UInt32 → C
  onSend : C → Nat → C

/-- Decides how many coded packets to emit after each source submission. -/
class FecRateController (F : Type) where
  codedPacketsToGenerate : F → EncoderState → Nat × F
  onFeedback : F → EncoderState → LossRate → UInt32 → UInt32 → F

/-- Decides when the decoder emits a feedback packet. -/
class FeedbackPolicy (P : Type) where
  shouldSendFeedback : P → DecoderState → Bool × P

/-- The CCI that a congestion control generates is 0, 4, 8 or 12 bytes long. -/
class LawfulCongestionControl (C : Type) [CongestionControl C] : Prop where
  cciFits : ∀ cc : C, CciFits (CongestionControl.generateCci cc)

end Delp
