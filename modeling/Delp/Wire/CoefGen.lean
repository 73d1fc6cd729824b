import Delp.Config
import Delp.Gf.Element

/-! Vandermonde and Cauchy coefficient generation. -/

namespace Delp.CoefGen

def vandermondeCoef (field : Config.Field) (srcId codedId : UInt32) : Result UInt8 :=
  match field with
  | .gf2_8 => do
    let coef ← Gf2_8.vandermonde srcId codedId
    pure coef.value
  | .gf2_4 => do
    let coef ← Gf2_4.vandermonde srcId codedId
    pure coef.value

/-- All Vandermonde coefficients of a coded packet; GF(2⁴) masks each to its low nibble. -/
def vandermondeBatch (field : Config.Field) (sourceIds : List UInt32) (codedId : UInt32) : Result Bytes :=
  match field with
  | .gf2_8 => sourceIds.mapM fun sid => do
    let coef ← Gf2_8.vandermonde sid codedId
    pure coef.value
  | .gf2_4 => sourceIds.mapM fun sid => do
    let coef ← Gf2_4.vandermonde sid codedId
    pure (coef.value &&& 0x0F)

/-- `1 / (x XOR y)` with `x = src_id mod 128` and `y` rotated by the generation. -/
def cauchyCoefGf2_8 (srcId codedId : UInt32) (generation : UInt8) : Result UInt8 := do
  Outcome.require (codedId < 128) .assertion
  let x := (srcId &&& 0x7F).toUInt8
  let rotated ← Machine.addU32 codedId (generation.toUInt32 * 7)
  let yOffset := rotated &&& 0x7F
  let y ← Machine.addU8 128 yOffset.toUInt8
  let coef ← Gf2_8.inv ⟨x ^^^ y⟩
  pure coef.value

def cauchyBatchGf2_8 (sourceIds : List UInt32) (codedId : UInt32) (generation : UInt8) : Result Bytes :=
  sourceIds.mapM fun sid => cauchyCoefGf2_8 sid codedId generation

/-- The GF(2⁴) points: `x = src_id mod 7`, `y = 8 + (coded_id + 3 * generation) mod 7`. -/
def cauchyCoefGf2_4 (srcId codedId : UInt32) (generation : UInt8) : Result UInt8 := do
  Outcome.require (codedId < 7) .assertion
  let x := (srcId % 7).toUInt8
  let rotated ← Machine.addU32 codedId (generation.toUInt32 * 3)
  let yOffset := (rotated % 7).toUInt8
  let y ← Machine.addU8 8 yOffset
  let coef ← Gf2_4.inv (.fromU8 (x ^^^ y))
  pure coef.value

def cauchyBatchGf2_4 (sourceIds : List UInt32) (codedId : UInt32) (generation : UInt8) : Result Bytes :=
  sourceIds.mapM fun sid => cauchyCoefGf2_4 sid codedId generation

end Delp.CoefGen
