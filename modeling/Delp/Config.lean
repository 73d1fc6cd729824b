import Delp.Error

/-! Encoder and decoder configurations and their builders. -/

namespace Delp.Config

inductive Field where
  | gf2_8
  | gf2_4
deriving DecidableEq, Repr

inductive MatrixStrategy where
  | vandermonde
  | cauchy
deriving DecidableEq, Repr

inductive BackpressureMode where
  | reject
  | evictOldest
deriving DecidableEq, Repr

end Delp.Config

namespace Delp
open Config

structure EncoderConfig where
  symbolSize : Nat
  windowCapacity : Nat
  field : Config.Field
  fecNumer : Nat
  fecDenom : Nat
  backpressure : BackpressureMode
  matrixStrategy : MatrixStrategy
deriving DecidableEq, Repr

structure EncoderConfigBuilder where
  symbolSize : Nat
  windowCapacity : Nat := 256
  field : Config.Field := .gf2_8
  fecNumer : Nat := 1
  fecDenom : Nat := 4
  backpressure : BackpressureMode := .reject
  matrixStrategy : MatrixStrategy := .vandermonde
deriving DecidableEq, Repr

namespace EncoderConfigBuilder

def cauchyMax : Config.Field → Nat
  | .gf2_8 => 128
  | .gf2_4 => 7

def build (self : EncoderConfigBuilder) : Result EncoderConfig :=
  if self.symbolSize = 0 ∨ self.symbolSize > 65535 then .err (.invalidSymbolSize self.symbolSize)
  else if self.windowCapacity = 0 then .err .invalidWindowCapacity
  else if self.fecDenom = 0 then .err .invalidFecDenom
  else if self.matrixStrategy = .cauchy ∧ self.windowCapacity > cauchyMax self.field then
    .err .invalidWindowCapacity
  else .ok {
    symbolSize := self.symbolSize
    windowCapacity := self.windowCapacity
    field := self.field
    fecNumer := self.fecNumer
    fecDenom := self.fecDenom
    backpressure := self.backpressure
    matrixStrategy := self.matrixStrategy }

end EncoderConfigBuilder

/-- What `build` has checked of a configuration it returned. -/
structure EncoderConfig.Valid (config : EncoderConfig) : Prop where
  symbolSize : 0 < config.symbolSize ∧ config.symbolSize ≤ 65535
  capacity : 0 < config.windowCapacity
  denom : 0 < config.fecDenom
  cauchy : config.matrixStrategy = .cauchy →
    config.windowCapacity ≤ EncoderConfigBuilder.cauchyMax config.field

theorem EncoderConfigBuilder.build_valid {builder : EncoderConfigBuilder} {config : EncoderConfig}
    (built : builder.build = .ok config) : config.Valid := by
  unfold build at built
  split at built
  · cases built
  split at built
  · cases built
  split at built
  · cases built
  split at built
  · cases built
  next size capacity denom cauchy =>
    cases built
    exact ⟨by dsimp only; omega, by dsimp only; omega, by dsimp only; omega,
      fun strategy => Nat.le_of_not_gt fun large => cauchy ⟨strategy, large⟩⟩

structure DecoderConfig where
  symbolSize : Nat
  field : Config.Field
  maxMatrixRows : Nat
  feedbackEvery : UInt32
deriving DecidableEq, Repr

structure DecoderConfigBuilder where
  symbolSize : Nat
  field : Config.Field := .gf2_8
  maxMatrixRows : Nat := 512
  feedbackEvery : UInt32 := 16
deriving DecidableEq, Repr

namespace DecoderConfigBuilder

def build (self : DecoderConfigBuilder) : Result DecoderConfig :=
  if self.symbolSize = 0 ∨ self.symbolSize > 65535 then .err (.invalidSymbolSize self.symbolSize)
  else .ok {
    symbolSize := self.symbolSize
    field := self.field
    maxMatrixRows := self.maxMatrixRows
    feedbackEvery := self.feedbackEvery }

/-- `From<&EncoderConfig>`: the builder of a decoder compatible with an encoder. -/
def ofEncoder (config : EncoderConfig) : DecoderConfigBuilder :=
  { symbolSize := config.symbolSize, field := config.field }

end DecoderConfigBuilder

end Delp
