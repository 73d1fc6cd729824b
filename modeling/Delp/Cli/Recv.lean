import Delp.Cli.Send
import Delp.Transport.Receiver

/-! `delp recv`: it waits for a START frame, then collects symbols until the END frame or a timeout. -/

namespace Delp.Recv
open Machine Send

structure Session where
  symbolSize : ℕ
  nSymbols : UInt32
  fileSize : UInt64
  sha256 : Digest
deriving DecidableEq

/-- What `run` fails with, and what its texts mention. -/
inductive RecvError where
  | startTooShort (len : ℕ)
  | missingMagic
  | malformedStart
  | unsupportedStart (version : UInt8)
  /-- "timed out waiting for START" -/
  | noStart
  | inactivity (got : ℕ) (expected : UInt32)
  | missingSymbol (id : SourceSymbolId)
  | digestMismatch
  | codec (error : DelpError)
  | io (error : SocketError)
deriving DecidableEq

def parseStart (buf : Bytes) : Outcome RecvError Session :=
  if short : buf.length < 4 + 4 + 4 + 8 + 32 then .err (.startTooShort buf.length)
  else if buf.take 2 ≠ magic.take 2 then .err .missingMagic
  else if buf[0] ≠ 0x44 ∨ buf[1] ≠ 0x45 ∨ buf[2] ≠ 0x4C ∨ buf[3] ≠ ctrlStart then .err .malformedStart
  else if buf[4] ≠ 1 then .err (.unsupportedStart buf[4])
  else .ok {
    symbolSize := fromBe [buf[6], buf[7]]
    nSymbols := UInt32.ofNat (fromBe ((buf.drop 8).take 4))
    fileSize := UInt64.ofNat (fromBe ((buf.drop 12).take 8))
    sha256 := ⟨(buf.drop 20).take 32, by rw [List.length_take, List.length_drop]; omega⟩ }

/-- What ends a wait for a datagram. `late` says that more than 150 ms pass until the turn of the loop ends. -/
inductive Wake where
  | datagram (raw : Bytes) (late : Bool)
  | timedOut
  | failed (error : SocketError)

/-- `anyhow` takes the errors of the codec. -/
def codec {α : Type} : Result α → Outcome RecvError α
  | .ok value => .ok value
  | .err error => .err (.codec error)
  | .panic reason => .panic reason

/-- The loop that waits for the START frame, `none` while it waits. -/
def awaitStart : List Wake → Outcome RecvError (Option (Session × List Wake))
  | [] => pure none
  | .timedOut :: _ => .err .noStart
  | .failed error :: _ => .err (.io error)
  | .datagram raw _ :: later =>
    if raw.length ≥ 4 ∧ raw.getD 3 0 = ctrlStart then do
      let session ← parseStart raw
      pure (some (session, later))
    else awaitStart later

structure Progress where
  decoder : Decoder ConstantFeedbackPolicy
  symbols : Std.TreeMap SourceSymbolId Bytes

namespace Progress

/-- The loop over the events of a packet: only symbols matter. -/
def collect (symbols : Std.TreeMap SourceSymbolId Bytes) : List DecoderEvent → Std.TreeMap SourceSymbolId Bytes
  | [] => symbols
  | .sourceReady id data :: events => collect (symbols.insert id data) events
  | _ :: events => collect symbols events

/-- `if let Ok(events) = decoder.handle_…` -/
def absorb (self : Progress) (handled : Result (Decoder ConstantFeedbackPolicy × Reply)) : Result Progress := do
  match ← handled with
  | (decoder, .ok events) => pure { decoder, symbols := collect self.symbols events }
  | (decoder, .error _) => pure { self with decoder }

/-- The `match` on byte 3 of a datagram of at least four bytes, and whether it is the END frame. -/
def dispatch (self : Progress) (raw : Bytes) : Result (Progress × Bool) :=
  let tag := raw.getD 3 0
  if tag = ctrlEnd then pure (self, true)
  else if tag = 0x00 then
    unlessMalformed (SourcePacket.parse raw) (self, false) fun sp => do
      let self ← self.absorb (self.decoder.handleSource sp)
      pure (self, false)
  else if tag = 0x01 then
    unlessMalformed (CodedPacket.parse raw) (self, false) fun cp => do
      let self ← self.absorb (self.decoder.handleCoded cp)
      pure (self, false)
  else pure (self, false)

/-- `symbols.len() as u32 >= session.n_symbols` -/
def complete (self : Progress) (session : Session) : Bool := UInt32.ofNat self.symbols.size ≥ session.nSymbols

/-- The receive loop, `none` while it waits. -/
def receive (session : Session) (self : Progress) : List Wake → Outcome RecvError (Option Progress)
  | [] => pure none
  | .failed error :: _ => .err (.io error)
  | .timedOut :: _ =>
    if self.complete session then pure (some self) else .err (.inactivity self.symbols.size session.nSymbols)
  | .datagram raw late :: later =>
    if raw.length < 4 then receive session self later
    else do
      let (self, gotEnd) ← codec (self.dispatch raw)
      if gotEnd ∨ (self.complete session ∧ late) then pure (some self) else receive session self later

/-- Stitch the file together; a capacity beyond `isize::MAX` panics. -/
def stitch (session : Session) (self : Progress) : Outcome RecvError Bytes := do
  Outcome.require (session.fileSize.toNat < 2 ^ 63) .overflow
  let parts ← (List.range session.nSymbols.toNat).mapM fun id => match self.symbols[UInt32.ofNat id]? with
    | some data => pure data
    | none => .err (.missingSymbol (UInt32.ofNat id))
  pure (parts.flatten.take session.fileSize.toNat)

end Progress

/-- What has been written to the output, and how `run` ends. -/
structure Received where
  written : Bytes
  result : Except RecvError Unit

/-- `run`, on what ends its waits, `none` while it waits. -/
def run (sha256 : Bytes → Digest) (wakes : List Wake) : Outcome RecvError (Option Received) := do
  match ← awaitStart wakes with
  | none => pure none
  | some (session, later) =>
    let decCfg ← codec (DecoderConfigBuilder.build { symbolSize := session.symbolSize })
    let policy ← codec (ConstantFeedbackPolicy.new 8)
    match ← Progress.receive session ⟨.new decCfg policy, ∅⟩ later with
    | none => pure none
    | some progress => do
      let written ← progress.stitch session
      pure (some { written, result := if sha256 written = session.sha256 then .ok () else .error .digestMismatch })

end Delp.Recv
