import Delp.Wire.Common
import Delp.Wire.EncodingVector

/-! The source, coded and feedback packets, and the top-level parser. -/

namespace Delp
open Machine

/-- Every serialiser asserts that the CCI is 0, 4, 8 or 12 bytes long. -/
def CciFits (cci : Bytes) : Prop := cci.length % 4 = 0 ∧ cci.length ≤ 12

instance (cci : Bytes) : Decidable (CciFits cci) := inferInstanceAs (Decidable (_ ∧ _))

def tsiBytes : Option UInt32 → Bytes
  | some tsi => toBeBytes tsi
  | none => []

/-- `[CommonHeader][CCI?][TSI?][source_symbol_id][payload]`. -/
structure SourcePacket where
  header : CommonHeader
  cci : Bytes
  tsi : Option UInt32
  sourceSymbolId : UInt32
  payload : Bytes
deriving DecidableEq, Repr

namespace SourcePacket

def bodyMin : Nat := 4

def parse (buf : Bytes) : Result SourcePacket := do
  let header ← CommonHeader.parse buf
  let pktType ← header.packetType
  if pktType ≠ .source then do
    let byte ← index buf 3
    .err (.unknownPacketType byte)
  else
    let bodyOff := header.bodyOffset
    if buf.length < bodyOff + bodyMin then .err (.bufferTooShort (bodyOff + bodyMin) buf.length)
    else do
      let cciEnd := CommonHeader.size + header.cciWords.toNat * 4
      let cci ← slice buf CommonHeader.size cciEnd
      let (tsi, idOff) ← if header.hasTsi then do
          let v ← readU32 buf cciEnd
          pure (some v, cciEnd + 4)
        else pure (none, cciEnd)
      let sourceSymbolId ← readU32 buf idOff
      let payload ← sliceFrom buf (idOff + 4)
      pure { header, cci, tsi, sourceSymbolId, payload }

def serialise (sourceSymbolId : UInt32) (payload cciBytes : Bytes) (tsi : Option UInt32) : Result Bytes := do
  Outcome.require (CciFits cciBytes) .assertion
  let cciWords := UInt8.ofNat (cciBytes.length / 4)
  let hasTsi := tsi.isSome
  let hdrWords ← addU8 1 cciWords
  let hdrWords ← addU8 hdrWords hasTsi.toUInt8
  let hdrWords ← addU8 hdrWords 1
  let hdr := CommonHeader.new .source (.fromWords cciWords) hasTsi hdrWords
  pure (hdr.toBytes ++ cciBytes ++ tsiBytes tsi ++ toBeBytes sourceSymbolId ++ payload)

end SourcePacket

/-- `[CommonHeader][CCI?][TSI?][coded_symbol_id][EncodingVector][payload]`. -/
structure CodedPacket where
  header : CommonHeader
  cci : Bytes
  tsi : Option UInt32
  codedSymbolId : UInt32
  ev : EncodingVector
  payload : Bytes
deriving DecidableEq, Repr

namespace CodedPacket

def codedIdSize : Nat := 4

/-- The CCI and TSI slices are taken before the length of the buffer is checked. -/
def parse (buf : Bytes) : Result CodedPacket := do
  let header ← CommonHeader.parse buf
  let pktType ← header.packetType
  if pktType ≠ .coded then do
    let byte ← index buf 3
    .err (.unknownPacketType byte)
  else do
    let cciStart := CommonHeader.size
    let cciEnd := cciStart + header.cciWords.toNat * 4
    let cci ← slice buf cciStart cciEnd
    let (tsi, afterTsi) ← if header.hasTsi then do
        let v ← readU32 buf cciEnd
        pure (some v, cciEnd + 4)
      else pure (none, cciEnd)
    if buf.length < afterTsi + codedIdSize then
      .err (.bufferTooShort (afterTsi + codedIdSize) buf.length)
    else do
      let codedSymbolId ← readU32 buf afterTsi
      let evStart := afterTsi + 4
      if buf.length ≤ evStart then .err (.bufferTooShort (evStart + 1) buf.length)
      else do
        let rest ← sliceFrom buf evStart
        let (ev, evConsumed) ← EncodingVector.parse rest codedSymbolId
        let payload ← sliceFrom buf (evStart + evConsumed)
        pure { header, cci, tsi, codedSymbolId, ev, payload }

def serialise (codedSymbolId : UInt32) (ev : EncodingVector) (payload cciBytes : Bytes) (tsi : Option UInt32) :
    Result Bytes := do
  Outcome.require (CciFits cciBytes) .assertion
  let cciWords := UInt8.ofNat (cciBytes.length / 4)
  let hasTsi := tsi.isSome
  let evBytes ← ev.serialise
  let evWords := UInt8.ofNat ((evBytes.length + 3) / 4)
  let hdrWords ← addU8 1 cciWords
  let hdrWords ← addU8 hdrWords hasTsi.toUInt8
  let hdrWords ← addU8 hdrWords 1
  let hdrWords ← addU8 hdrWords evWords
  let hdr := CommonHeader.new .coded (.fromWords cciWords) hasTsi hdrWords
  let evPad := (4 - evBytes.length % 4) % 4
  pure (hdr.toBytes ++ cciBytes ++ tsiBytes tsi ++ toBeBytes codedSymbolId ++ evBytes ++
    List.replicate evPad 0 ++ payload)

end CodedPacket

/-- A loss rate in [0, 1] as the fraction `lost / expected`; a zero denominator stands for 0.
The source keeps the `f64` quotient of the same two counters. -/
structure LossRate where
  lost : Nat
  expected : Nat
deriving DecidableEq, Repr

/-- Window update: counters, cumulative acknowledgement, loss rate byte and SACK bits. -/
structure FeedbackPacket where
  tsi : Option UInt32
  nbMissingSrc : UInt32
  nbNotUsedCoded : UInt32
  firstSrcId : UInt32
  plrRaw : UInt8
  sack : Bytes
deriving DecidableEq, Repr

namespace FeedbackPacket

/-- `(loss.clamp(0.0, 1.0) * 256.0).min(255.0) as u8`. -/
def encodePlr (loss : LossRate) : UInt8 := UInt8.ofNat (min 255 (loss.lost * 256 / loss.expected))

/-- `raw as f64 / 256.0`. -/
def decodePlr (raw : UInt8) : LossRate := ⟨raw.toNat, 256⟩

/-- One turn of the loop of `build_sack`: set the bit of one acknowledged id, MSB first. -/
def setSackBit (firstSrcId : UInt32) (sack : Bytes) (id : UInt32) : Result Bytes :=
  if id < firstSrcId then pure sack
  else do
    let offset := (id - firstSrcId).toNat
    let byte ← index sack (offset / 8)
    pure (sack.set (offset / 8) (byte ||| (1 <<< UInt8.ofNat (7 - offset % 8))))

def buildSack (firstSrcId : UInt32) (ackedIds : List UInt32) : Result Bytes :=
  match ackedIds with
  | [] => pure []
  | first :: rest =>
    let lastId := rest.foldl max first
    if lastId < firstSrcId then pure []
    else
      let span := (lastId - firstSrcId).toNat + 1
      ackedIds.foldlM (setSackBit firstSrcId) (List.replicate ((span + 7) / 8) 0)

def build (firstSrcId nbMissingSrc nbNotUsedCoded : UInt32) (lossRate : LossRate) (ackedIds : List UInt32) :
    Result FeedbackPacket := do
  let sack ← buildSack firstSrcId ackedIds
  pure { tsi := none, nbMissingSrc, nbNotUsedCoded, firstSrcId, plrRaw := encodePlr lossRate, sack }

/-- The length of the SACK is cast to a byte; the vector itself is written whole. -/
def serialise (self : FeedbackPacket) : Bytes :=
  let sackBytes := self.sack.length
  let hdrWords : UInt8 := 1 + self.tsi.isSome.toUInt8 + 2 + 1
  let hdr := CommonHeader.new .feedback .zero self.tsi.isSome hdrWords
  hdr.toBytes ++ tsiBytes self.tsi ++ toBeBytes self.nbMissingSrc ++ toBeBytes self.nbNotUsedCoded ++
    toBeBytes self.firstSrcId ++ [self.plrRaw, UInt8.ofNat sackBytes, 0, 0] ++
    resize self.sack (pad32 sackBytes)

/-- The packet type is not checked, and the TSI is read at a fixed offset. -/
def parse (buf : Bytes) : Result FeedbackPacket := do
  let header ← CommonHeader.parse buf
  let off := header.bodyOffset
  if buf.length < off + 16 then .err (.bufferTooShort (off + 16) buf.length)
  else do
    let tsi ← if header.hasTsi then do
        let t ← readU32 buf CommonHeader.size
        pure (some t)
      else pure none
    let nbMissingSrc ← readU32 buf off
    let nbNotUsedCoded ← readU32 buf (off + 4)
    let firstSrcId ← readU32 buf (off + 8)
    let plrRaw ← index buf (off + 12)
    let sackSize ← index buf (off + 13)
    let sackStart := off + 16
    if buf.length < sackStart + sackSize.toNat then
      .err (.bufferTooShort (sackStart + sackSize.toNat) buf.length)
    else do
      let sack ← slice buf sackStart (sackStart + sackSize.toNat)
      pure { tsi, nbMissingSrc, nbNotUsedCoded, firstSrcId, plrRaw, sack }

def isAcked (self : FeedbackPacket) (id : UInt32) : Bool :=
  if id < self.firstSrcId then false
  else
    let offset := (id - self.firstSrcId).toNat
    match self.sack[offset / 8]? with
    | none => false
    | some byte => (byte >>> UInt8.ofNat (7 - offset % 8)) &&& 1 == 1

/-- The ids of one SACK byte: `base + byte_idx as u32 * 8 + bit` for its set bits. -/
def ackedOfByte (base byteBase : UInt32) (byte : UInt8) : Result (List UInt32) :=
  ((List.range 8).filter fun bit => (byte >>> UInt8.ofNat (7 - bit)) &&& 1 == 1).mapM fun bit => do
    let start ← addU32 base byteBase
    addU32 start (UInt32.ofNat bit)

/-- Every acknowledged source id. The byte index times 8 fits a `u32` for any SACK in memory. -/
def ackedIds (self : FeedbackPacket) : Result (List UInt32) := do
  let groups ← self.sack.zipIdx.mapM fun (byte, byteIdx) =>
    ackedOfByte self.firstSrcId (UInt32.ofNat (byteIdx * 8)) byte
  pure groups.flatten

end FeedbackPacket

inductive DelpPacket where
  | source (packet : SourcePacket)
  | coded (packet : CodedPacket)
  | feedback (packet : FeedbackPacket)
deriving DecidableEq, Repr

/-- Parse one packet from a raw byte slice, by its `PKT_TYPE`. -/
def DelpPacket.parse (buf : Bytes) : Result DelpPacket := do
  if buf.length < CommonHeader.size then .err (.bufferTooShort CommonHeader.size buf.length)
  else do
    let hdr ← CommonHeader.parse buf
    match ← hdr.packetType with
    | .source => do
      let packet ← SourcePacket.parse buf
      pure (.source packet)
    | .coded => do
      let packet ← CodedPacket.parse buf
      pure (.coded packet)
    | .feedback => do
      let packet ← FeedbackPacket.parse buf
      pure (.feedback packet)

end Delp
