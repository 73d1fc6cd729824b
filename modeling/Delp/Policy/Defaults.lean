import Delp.Policy.Traits

/-! The policies that the crate ships. -/

namespace Delp

/-- Remove a symbol as soon as any receiver acknowledges it. -/
structure AnyAckPolicy where

instance : WindowPolicy AnyAckPolicy where
  symbolsToRemove self ackState windowIds :=
    (windowIds.filter fun id => ackState.receiverIds.any fun rid => ackState.isAcked rid id, self)

/-- Remove a symbol only when every known receiver has acknowledged it. -/
structure AllAckPolicy where

instance : WindowPolicy AllAckPolicy where
  symbolsToRemove self ackState windowIds :=
    if ackState.numReceivers = 0 then ([], self)
    else (windowIds.filter fun id => ackState.receiverIds.all fun rid => ackState.isAcked rid id, self)

/-- Remove a symbol when at least `quorum` receivers have acknowledged it. -/
structure QuorumAckPolicy where
  quorum : Nat

instance : WindowPolicy QuorumAckPolicy where
  symbolsToRemove self ackState windowIds :=
    (windowIds.filter fun id =>
      (ackState.receiverIds.filter fun rid => ackState.isAcked rid id).length ≥ self.quorum, self)

/-- Always allows sending, emits no CCI. -/
structure NoCongestionControl where

instance : CongestionControl NoCongestionControl where
  generateCci _ := []
  onFeedback self _ _ _ _ := self
  onSend self _ := self

instance : LawfulCongestionControl NoCongestionControl where
  cciFits _ := ⟨rfl, Nat.zero_le _⟩

/-- Emit `numer` coded packets for every `denom` source packets, through a running remainder. -/
structure ConstantFecRate where
  numer : Nat
  denom : Nat
  acc : Nat
deriving DecidableEq, Repr

def ConstantFecRate.new (numer denom : Nat) : Result ConstantFecRate := do
  Outcome.require (denom > 0) .assertion
  pure { numer, denom, acc := 0 }

instance : FecRateController ConstantFecRate where
  codedPacketsToGenerate self _ :=
    let acc := self.acc + self.numer
    (acc / self.denom, { self with acc := acc % self.denom })
  onFeedback self _ _ _ _ := self

structure ConstantFeedbackPolicy where
  period : UInt32
  counter : UInt32
deriving DecidableEq, Repr

def ConstantFeedbackPolicy.new (period : UInt32) : Result ConstantFeedbackPolicy := do
  Outcome.require (period > 0) .assertion
  pure { period, counter := 0 }

instance : FeedbackPolicy ConstantFeedbackPolicy where
  shouldSendFeedback self _ :=
    let counter := self.counter + 1
    if counter ≥ self.period then (true, { self with counter := 0 })
    else (false, { self with counter := counter })

structure ImmediateFeedbackPolicy where

instance : FeedbackPolicy ImmediateFeedbackPolicy where
  shouldSendFeedback self _ := (true, self)

end Delp
