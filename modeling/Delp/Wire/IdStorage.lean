import Delp.Error
import Delp.Lib.Machine

/-! The I-field: four storage formats for the source ids of an encoding vector,
and the bit-level reader and writer of the compressed ones. -/

namespace Delp
open Machine

inductive IdStorageFormat where
  | none
  | uncompressedEdges
  | compressedList
  | compressedEdges
deriving DecidableEq, Repr

structure BitWriter where
  buf : Bytes
  curByte : UInt8
  /-- Bits written into `curByte`, below 8. -/
  bitPos : UInt8
deriving DecidableEq, Repr

namespace BitWriter

def new : BitWriter := ⟨[], 0, 0⟩

/-- One turn of the loop of `write_bits`. -/
def pushBit (self : BitWriter) (bit : UInt8) : BitWriter :=
  let curByte := (self.curByte <<< 1) ||| bit
  let bitPos := self.bitPos + 1
  if bitPos = 8 then ⟨self.buf ++ [curByte], 0, 0⟩ else ⟨self.buf, curByte, bitPos⟩

def writeBits (self : BitWriter) (value : UInt32) : Nat → BitWriter
  | 0 => self
  | i + 1 => (self.pushBit ((value >>> UInt32.ofNat i) &&& 1).toUInt8).writeBits value i

def finish (self : BitWriter) : Bytes :=
  if self.bitPos > 0 then self.buf ++ [self.curByte <<< (8 - self.bitPos)] else self.buf

end BitWriter

structure BitReader where
  buf : Bytes
  byteI : Nat
  /-- Bits consumed of the current byte, below 8. -/
  bitPos : UInt8
deriving DecidableEq, Repr

namespace BitReader

def new (buf : Bytes) : BitReader := ⟨buf, 0, 0⟩

/-- The loop of `read_bits` with its accumulator; it stops early at the end of the buffer. -/
def readBitsFrom (self : BitReader) (val : UInt32) : Nat → UInt32 × BitReader
  | 0 => (val, self)
  | nbits + 1 =>
    match self.buf[self.byteI]? with
    | .none => (val, self)
    | some byte =>
      let bit := (byte >>> (7 - self.bitPos)) &&& 1
      let val := (val <<< 1) ||| bit.toUInt32
      let bitPos := self.bitPos + 1
      if bitPos = 8 then readBitsFrom ⟨self.buf, self.byteI + 1, 0⟩ val nbits
      else readBitsFrom ⟨self.buf, self.byteI, bitPos⟩ val nbits

def readBits (self : BitReader) (nbits : Nat) : UInt32 × BitReader := self.readBitsFrom 0 nbits

def bytesConsumed (self : BitReader) : Nat :=
  if self.bitPos > 0 then self.byteI + 1 else self.byteI

def remainingBits (self : BitReader) : Result Nat :=
  subUsize ((self.buf.length - self.byteI) * 8) self.bitPos.toNat

end BitReader

namespace IdStorageFormat

def fromWire (v : UInt8) : IdStorageFormat :=
  let v := v &&& 0x3
  if v = 0 then .none
  else if v = 1 then .uncompressedEdges
  else if v = 2 then .compressedList
  else .compressedEdges

def wireValue : IdStorageFormat → UInt8
  | .none => 0
  | .uncompressedEdges => 1
  | .compressedList => 2
  | .compressedEdges => 3

end IdStorageFormat

namespace IdStorage

/-- `ids.windows(2).all(|w| w[1] == w[0] + 1)`: the scan stops at the first mismatch. -/
def isContiguous : List UInt32 → Result Bool
  | first :: second :: rest => do
    let expected ← addU32 first 1
    if second = expected then isContiguous (second :: rest) else pure false
  | _ => pure true

/-- The format an encoder chooses for an id set. -/
def bestFor (ids : List UInt32) : Result IdStorageFormat := do
  if ids.isEmpty then pure .none
  else
    let contiguous ← isContiguous ids
    pure (if contiguous then .none else .compressedList)

/-- Deltas of 16 bits; the first id travels in `FIRST_SOURCE_ID`. -/
def encodeCompressedList (ids : List UInt32) : Result Bytes := do
  let prev ← index ids 0
  let step := fun (state : BitWriter × UInt32) (id : UInt32) =>
    (state.1.writeBits (id - state.2) 16, id)
  pure ((ids.drop 1).foldl step (.new, prev)).1.finish

/-- One turn of the loop of `to_blocks`: the blocks so far, and the open block. -/
def extendBlocks (state : List (UInt32 × UInt32) × UInt32 × UInt32) (id : UInt32) :
    Result (List (UInt32 × UInt32) × UInt32 × UInt32) := do
  let (blocks, start, prev) := state
  let next ← addU32 prev 1
  if id ≠ next then pure (blocks ++ [(start, next)], id, id) else pure (blocks, start, id)

/-- Split a sorted id list into contiguous blocks of `(start, end_exclusive)`. -/
def toBlocks (ids : List UInt32) : Result (List (UInt32 × UInt32)) :=
  match ids with
  | [] => pure []
  | first :: rest => do
    let (blocks, start, prev) ← rest.foldlM extendBlocks ([], first, first)
    let last ← addU32 prev 1
    pure (blocks ++ [(start, last)])

def encodeUncompressedEdges (ids : List UInt32) : Result Bytes := do
  let blocks ← toBlocks ids
  let base ← index ids 0
  blocks.foldlM (fun out block => do
    let start ← subU32 block.1 base
    let last ← subU32 block.2 base
    pure (out ++ toBeBytes start ++ toBeBytes last)) []

def encodeCompressedEdges (ids : List UInt32) : Result Bytes := do
  let blocks ← toBlocks ids
  let base ← index ids 0
  let (writer, _) ← blocks.foldlM (fun (state : BitWriter × UInt32) block => do
    let offset ← subU32 block.1 base
    let dStart ← subU32 offset state.2
    let dLen ← subU32 block.2 block.1
    let last ← subU32 block.2 base
    pure ((state.1.writeBits dStart 16).writeBits dLen 16, last)) (.new, 0)
  pure writer.finish

/-- The id bit-field in the given format, not yet padded to 32 bits. -/
def encode (ids : List UInt32) : IdStorageFormat → Result Bytes
  | .none => pure []
  | .compressedList => encodeCompressedList ids
  | .uncompressedEdges => encodeUncompressedEdges ids
  | .compressedEdges => encodeCompressedEdges ids

/-- `(0..nb_ids as u32).map(|i| first_src_id + i)`. -/
def decodeNone (nbIds : Nat) (firstSrcId : UInt32) : Result (List UInt32) :=
  (List.range (UInt32.ofNat nbIds).toNat).mapM fun i => addU32 firstSrcId (UInt32.ofNat i)

/-- The deltas still to read, and the id they continue from. -/
def decodeDeltas (reader : BitReader) (prev : UInt32) : Nat → Result (List UInt32 × BitReader)
  | 0 => pure ([], reader)
  | count + 1 => do
    let (delta, reader) := reader.readBits 16
    let id ← addU32 prev delta
    let (ids, reader) ← decodeDeltas reader id count
    pure (id :: ids, reader)

def decodeCompressedList (buf : Bytes) (nbIds : Nat) (firstSrcId : UInt32) : Result (List UInt32 × Nat) := do
  if nbIds = 1 then pure ([firstSrcId], 0)
  else
    let deltas ← subUsize nbIds 1
    if buf.length < deltas * 2 then
      .err (.malformedEncodingVector "CompressedList buffer too short")
    else
      let (ids, reader) ← decodeDeltas (.new buf) firstSrcId deltas
      pure (firstSrcId :: ids, reader.bytesConsumed)

/-- `for id in start..last { ids.push(id) }`. -/
def idRange (start last : UInt32) : List UInt32 :=
  (List.range (last.toNat - start.toNat)).map fun i => start + UInt32.ofNat i

/-- One turn of the block loop; `fuel` bounds the turns by the blocks the buffer can hold. -/
def decodeUncompressedFrom (buf : Bytes) (nbIds : Nat) (firstSrcId : UInt32) :
    Nat → List UInt32 → Nat → Result (List UInt32 × Nat)
  | 0, _, _ => .panic .diverged
  | fuel + 1, ids, off =>
    if ids.length < nbIds then
      if buf.length < off + 8 then
        .err (.malformedEncodingVector "UncompressedEdges truncated")
      else do
        let startDelta ← readU32 buf off
        let endDelta ← readU32 buf (off + 4)
        let start ← addU32 firstSrcId startDelta
        let last ← addU32 firstSrcId endDelta
        decodeUncompressedFrom buf nbIds firstSrcId fuel (ids ++ idRange start last) (off + 8)
    else pure (ids.take nbIds, off)

def decodeUncompressedEdges (buf : Bytes) (nbIds : Nat) (firstSrcId : UInt32) : Result (List UInt32 × Nat) :=
  decodeUncompressedFrom buf nbIds firstSrcId (buf.length / 8 + 1) [] 0

def decodeCompressedFrom (nbIds : Nat) (firstSrcId : UInt32) :
    Nat → List UInt32 → BitReader → UInt32 → Result (List UInt32 × Nat)
  | 0, _, _, _ => .panic .diverged
  | fuel + 1, ids, reader, abs =>
    if ids.length < nbIds then do
      let remaining ← reader.remainingBits
      if remaining < 32 then
        .err (.malformedEncodingVector "CompressedEdges truncated")
      else
        let (dStart, reader) := reader.readBits 16
        let (dLen, reader) := reader.readBits 16
        let base ← addU32 firstSrcId abs
        let start ← addU32 base dStart
        let offset ← subU32 start firstSrcId
        let abs ← addU32 offset dLen
        let last ← addU32 start dLen
        decodeCompressedFrom nbIds firstSrcId fuel (ids ++ idRange start last) reader abs
    else pure (ids.take nbIds, reader.bytesConsumed)

def decodeCompressedEdges (buf : Bytes) (nbIds : Nat) (firstSrcId : UInt32) : Result (List UInt32 × Nat) :=
  decodeCompressedFrom nbIds firstSrcId (buf.length / 4 + 1) [] (.new buf) 0

/-- The id list and the number of bytes consumed of the id field. -/
def decode (buf : Bytes) (nbIds : Nat) (firstSrcId : UInt32) : IdStorageFormat → Result (List UInt32 × Nat)
  | .none => do
    let ids ← decodeNone nbIds firstSrcId
    pure (ids, 0)
  | .compressedList => decodeCompressedList buf nbIds firstSrcId
  | .uncompressedEdges => decodeUncompressedEdges buf nbIds firstSrcId
  | .compressedEdges => decodeCompressedEdges buf nbIds firstSrcId

end IdStorage
end Delp
