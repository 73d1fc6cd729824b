import Delp.Error
import Delp.Lib.Machine

/-! The four-byte common header. -/

namespace Delp
open Machine

inductive PacketType where
  | source
  | coded
  | feedback
deriving DecidableEq, Repr

namespace PacketType

def toU8 : PacketType → UInt8
  | .source => 0x00
  | .coded => 0x01
  | .feedback => 0x02

def fromU8 (v : UInt8) : Result PacketType :=
  if v = 0x00 then .ok .source
  else if v = 0x01 then .ok .coded
  else if v = 0x02 then .ok .feedback
  else .err (.unknownPacketType v)

end PacketType

/-- Number of 32-bit CCI words immediately after the common header. -/
inductive CciLength where
  | zero
  | one
  | two
  | three
deriving DecidableEq, Repr

namespace CciLength

def fromWords (w : UInt8) : CciLength :=
  let w := w &&& 0x3
  if w = 0 then .zero else if w = 1 then .one else if w = 2 then .two else .three

def words : CciLength → UInt8
  | .zero => 0
  | .one => 1
  | .two => 2
  | .three => 3

end CciLength

/-- `[V:4][C:2][S:1][Rsvd:1]`, a reserved byte, `HDR_LEN` and `PKT_TYPE`. -/
structure CommonHeader where
  flags : UInt8
  reserved : UInt8
  hdrLenWords : UInt8
  pktType : UInt8
deriving DecidableEq, Repr

namespace CommonHeader

def size : Nat := 4
def currentVersion : UInt8 := 1

def new (pktType : PacketType) (cci : CciLength) (hasTsi : Bool) (hdrLenWords : UInt8) : CommonHeader where
  flags := (currentVersion <<< 4) ||| (cci.words <<< 2) ||| (hasTsi.toUInt8 <<< 1)
  reserved := 0
  hdrLenWords := hdrLenWords
  pktType := pktType.toU8

def toBytes (self : CommonHeader) : Bytes := [self.flags, self.reserved, self.hdrLenWords, self.pktType]

def version (self : CommonHeader) : UInt8 := self.flags >>> 4

def cciWords (self : CommonHeader) : UInt8 := (self.flags >>> 2) &&& 0x3

def hasTsi (self : CommonHeader) : Bool := (self.flags >>> 1) &&& 0x1 == 1

def packetType (self : CommonHeader) : Result PacketType := PacketType.fromU8 self.pktType

/-- Byte offset of the type-specific body, after the CCI and the optional TSI. -/
def bodyOffset (self : CommonHeader) : Nat :=
  size + self.cciWords.toNat * 4 + if self.hasTsi then 4 else 0

/-- The four bytes are reinterpreted in place; their length has been checked. -/
def parse (buf : Bytes) : Result CommonHeader := do
  if buf.length < size then
    .err (.bufferTooShort size buf.length)
  else
    let flags ← index buf 0
    let reserved ← index buf 1
    let hdrLenWords ← index buf 2
    let pktType ← index buf 3
    let hdr : CommonHeader := ⟨flags, reserved, hdrLenWords, pktType⟩
    if hdr.version ≠ currentVersion then
      .err (.unsupportedVersion hdr.version)
    else if hdr.hdrLenWords.toNat * 4 > buf.length then
      .err (.invalidHeaderLength hdr.hdrLenWords buf.length)
    else
      pure hdr

end CommonHeader
end Delp
