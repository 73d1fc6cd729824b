import Delp.Config
import Delp.Wire.IdStorage

/-! The encoding vector: which source ids a coded packet combines, and with
which coefficients. -/

namespace Delp
open Machine

structure EncodingVector where
  field : Config.Field
  codedId : UInt32
  generation : UInt8
  idFormat : IdStorageFormat
  sourceIds : List UInt32
  /-- One coefficient a source id, or none for the implicit Vandermonde ones. -/
  coefficients : Bytes
deriving DecidableEq, Repr

def pad32 (len : Nat) : Nat := (len + 3) / 4 * 4

/-- `v.resize(padded, 0)` for a length that does not shrink. -/
def resize (bytes : Bytes) (len : Nat) : Bytes := bytes ++ List.replicate (len - bytes.length) 0

def packNibbles : Bytes → Bytes
  | hi :: lo :: rest => (((hi &&& 0x0F) <<< 4) ||| (lo &&& 0x0F)) :: packNibbles rest
  | [hi] => [((hi &&& 0x0F) <<< 4) ||| (0 &&& 0x0F)]
  | [] => []

/-- The loop of `unpack_nibbles`; the low nibble is kept while `out` is short of `count`. -/
def unpackNibblesFrom (count : Nat) : Bytes → Bytes → Bytes
  | out, [] => out.take count
  | out, byte :: rest =>
    let out := out ++ [(byte >>> 4) &&& 0x0F]
    unpackNibblesFrom count (if out.length < count then out ++ [byte &&& 0x0F] else out) rest

def unpackNibbles (bytes : Bytes) (count : Nat) : Bytes := unpackNibblesFrom count [] bytes

namespace EncodingVector

def vandermonde (field : Config.Field) (codedId : UInt32) (sourceIds : List UInt32) : Result EncodingVector := do
  let idFormat ← IdStorage.bestFor sourceIds
  pure { field, codedId, generation := 0, idFormat, sourceIds, coefficients := [] }

def explicit (field : Config.Field) (codedId : UInt32) (sourceIds : List UInt32) (coefficients : Bytes) :
    Result EncodingVector := do
  Outcome.require (sourceIds.length = coefficients.length) .assertion
  let idFormat ← IdStorage.bestFor sourceIds
  pure { field, codedId, generation := 0, idFormat, sourceIds, coefficients }

def withGeneration (self : EncodingVector) (generation : UInt8) : EncodingVector :=
  { self with generation := generation }

def hasExplicitCoefs (self : EncodingVector) : Bool := !self.coefficients.isEmpty

def hasGeneration (self : EncodingVector) : Bool := self.generation != 0

def nbIds (self : EncodingVector) : UInt8 := UInt8.ofNat self.sourceIds.length

def nbCoefs (self : EncodingVector) : UInt8 := UInt8.ofNat self.coefficients.length

def ccgiBit : Config.Field → UInt8
  | .gf2_4 => 0
  | .gf2_8 => 1

/-- `[CCGI:4][I:2][C:1][G:1]`. -/
def flagByte (self : EncodingVector) : UInt8 :=
  (ccgiBit self.field <<< 4) ||| (self.idFormat.wireValue <<< 2) |||
    (self.hasExplicitCoefs.toUInt8 <<< 1) ||| self.hasGeneration.toUInt8

/-- The coefficient field, padded to 32 bits. -/
def coefBytes (self : EncodingVector) : Bytes :=
  if self.hasExplicitCoefs then
    let bits := match self.field with
      | .gf2_8 => self.coefficients
      | .gf2_4 => packNibbles self.coefficients
    resize bits (pad32 bits.length)
  else []

/-- The optional generation block: one byte and three of padding. -/
def genBlock (self : EncodingVector) : Bytes :=
  if self.hasGeneration then [self.generation, 0, 0, 0] else []

/-- `EV_LEN`, `NB_IDS` and `NB_COEFS` are cast to a byte, whatever the true counts. -/
def serialise (self : EncodingVector) : Result Bytes := do
  let idBits ← IdStorage.encode self.sourceIds self.idFormat
  let idBits := resize idBits (pad32 idBits.length)
  let bodyLen := 8 + self.genBlock.length + idBits.length + self.coefBytes.length
  let evLenWords := UInt8.ofNat ((bodyLen + 3) / 4)
  let firstSrcId := self.sourceIds.head?.getD 0
  pure ([evLenWords, self.flagByte, self.nbIds, self.nbCoefs] ++ toBeBytes firstSrcId ++
    self.genBlock ++ idBits ++ self.coefBytes)

def fieldOfCcgi (ccgi : UInt8) : Result Config.Field :=
  if ccgi = 0 then .ok .gf2_4
  else if ccgi = 1 then .ok .gf2_8
  else .err (.malformedEncodingVector "invalid CCGI")

/-- The generation and the offset at which the id field starts. -/
def parseGeneration (buf : Bytes) (gBit : UInt8) : Result (UInt8 × Nat) :=
  if gBit = 1 then
    if buf.length < 12 then .err (.bufferTooShort 12 buf.length)
    else do
      let generation ← index buf 8
      pure (generation, 12)
  else pure (0, 8)

/-- The coefficients at their offset, checked against the end of the buffer only. -/
def parseCoefs (buf : Bytes) (field : Config.Field) (nbCoefs coefOffset : Nat) : Result Bytes :=
  let needed := match field with
    | .gf2_8 => nbCoefs
    | .gf2_4 => (nbCoefs + 1) / 2
  if buf.length < coefOffset + needed then .err (.bufferTooShort (coefOffset + needed) buf.length)
  else do
    let raw ← slice buf coefOffset (coefOffset + needed)
    pure (match field with
      | .gf2_8 => raw
      | .gf2_4 => unpackNibbles raw nbCoefs)

/-- The parsed vector and the number of bytes consumed. -/
def parse (buf : Bytes) (codedId : UInt32) : Result (EncodingVector × Nat) :=
  if buf.length < 8 then .err (.bufferTooShort 8 buf.length)
  else do
    let evLenWords ← index buf 0
    let evBytes := evLenWords.toNat * 4
    if buf.length < evBytes then .err (.encodingVectorOverflow evLenWords)
    else do
      let byte1 ← index buf 1
      let iBits := (byte1 >>> 2) &&& 0x3
      let cBit := (byte1 >>> 1) &&& 0x1
      let gBit := byte1 &&& 0x1
      let field ← fieldOfCcgi ((byte1 >>> 4) &&& 0xF)
      let nbIds ← index buf 2
      let nbCoefs ← index buf 3
      if cBit = 0 ∧ nbCoefs ≠ 0 then .err .coefficientFieldInconsistency
      else if cBit = 1 ∧ nbCoefs ≠ nbIds then .err .coefficientFieldInconsistency
      else do
        let firstSrcId ← readU32 buf 4
        let (generation, bodyOff) ← parseGeneration buf gBit
        let idFormat := IdStorageFormat.fromWire iBits
        let idField ← slice buf bodyOff evBytes
        let (sourceIds, idBytesConsumed) ← IdStorage.decode idField nbIds.toNat firstSrcId idFormat
        let coefOffset := bodyOff + pad32 idBytesConsumed
        let coefficients ← if cBit = 1 then parseCoefs buf field nbCoefs.toNat coefOffset else pure []
        pure ({ field, codedId, generation, idFormat, sourceIds, coefficients }, evBytes)

end EncodingVector
end Delp
