import Delp.Lib.Outcome

/-! The error values of the crate, and the outcome of its functions. -/

namespace Delp

/-- Every error the codec can produce. `usize` fields are natural numbers. -/
inductive DelpError where
  | invalidSymbolSize (size : Nat)
  | invalidWindowCapacity
  | invalidFecDenom
  | symbolSizeMismatch (expected actual : Nat)
  | windowFull (capacity : Nat)
  | sourceIdExhausted
  | codedIdExhausted (used : UInt32)
  | unrecoverableGap (firstMissing : UInt32)
  | bufferTooShort (needed available : Nat)
  | unsupportedVersion (version : UInt8)
  | unknownPacketType (pktType : UInt8)
  | invalidHeaderLength (hdrLenWords : UInt8) (packetLen : Nat)
  | encodingVectorOverflow (evLenWords : UInt8)
  | malformedEncodingVector (reason : String)
  | coefficientFieldInconsistency
  | divisionByZero
deriving DecidableEq, Repr

/-- A function that may report a `DelpError`, and that may also panic. -/
abbrev Result (α : Type) := Outcome DelpError α

abbrev Bytes := List UInt8

end Delp
