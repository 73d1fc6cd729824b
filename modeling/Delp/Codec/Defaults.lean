import Delp.Codec.Decoder
import Delp.Codec.Encoder
import Delp.Policy.Defaults

/-! The encoder and the decoder with the policies that the crate picks for them. -/

namespace Delp

abbrev DefaultEncoder := Encoder AnyAckPolicy NoCongestionControl ConstantFecRate

def DefaultEncoder.withDefaults (config : EncoderConfig) : Result DefaultEncoder := do
  let fec ← ConstantFecRate.new config.fecNumer config.fecDenom
  pure (Encoder.new config {} {} fec)

abbrev DefaultDecoder := Decoder ConstantFeedbackPolicy

def DefaultDecoder.withDefaults (config : DecoderConfig) : Result DefaultDecoder := do
  let feedbackPolicy ← ConstantFeedbackPolicy.new 16
  pure (Decoder.new config feedbackPolicy)

end Delp
