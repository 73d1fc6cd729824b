import Delp.Codec.Defaults
import Delp.Lib.BigEndian
import Delp.Transport

/-! `delp send`: a file as a START frame, the packets of its symbols, and an END frame. -/

namespace Delp.Send
open Machine Delp.Config

def ctrlStart : UInt8 := 0xFF
def ctrlEnd : UInt8 := 0xFE
def magic : Bytes := [0x44, 0x45, 0x4C, 0x50]
def protoVersion : UInt8 := 1

structure Digest where
  bytes : Bytes
  size : bytes.length = 32
deriving DecidableEq

/-- The type tag goes where packets have theirs, over the last letter of the magic. -/
def buildStartFrame (symbolSize : UInt16) (nSymbols : UInt32) (fileSize : UInt64) (sha256 : Digest) : Bytes :=
  (magic ++ [protoVersion] ++ [0] ++ toBe 2 symbolSize.toNat).set 3 ctrlStart ++ toBe 4 nSymbols.toNat ++ toBe 8 fileSize.toNat ++
    sha256.bytes

def buildEndFrame : Bytes := magic.set 3 ctrlEnd

inductive AltcMode where
  | none
  | recent
  | perReceiver
deriving DecidableEq, Repr

structure Config where
  /-- The contents of the file. -/
  file : Bytes
  /-- What `receiver_id_from_addr` makes of the destination. -/
  dest : ReceiverId
  symbolSize : ℕ
  window : ℕ
  fecN : ℕ
  fecD : ℕ
  strategy : MatrixStrategy
  altc : AltcMode
  altcRecent : ℕ

/-- A computation that sends datagrams: those that it sends, also when it fails then. -/
structure Sent (α : Type) where
  raws : List Bytes
  result : Result α

namespace Sent

def bind {α β : Type} (first : Sent α) (next : α → Sent β) : Sent β :=
  match first.result with
  | .ok value => { raws := first.raws ++ (next value).raws, result := (next value).result }
  | .err error => { raws := first.raws, result := .err error }
  | .panic reason => { raws := first.raws, result := .panic reason }

instance : Monad Sent where
  pure value := ⟨[], .ok value⟩
  bind := bind

/-- A call of the codec, with `?`. -/
def call {α : Type} (result : Result α) : Sent α := ⟨[], result⟩

/-- `socket.send_to`; a datagram that the simulated loss drops is one that the network loses. -/
def send (raws : List Bytes) : Sent Unit := ⟨raws, .ok ()⟩

end Sent

/-- The targeted coded packet after a symbol. -/
def targeted (cfg : Config) (encoder : DefaultEncoder) : Result (DefaultEncoder × Option EncoderOutput) :=
  match cfg.altc with
  | .none => pure (encoder, none)
  | .recent => encoder.generateCodedRecent cfg.altcRecent
  | .perReceiver => encoder.generateCodedForReceiver cfg.dest

/-- One turn of the loop over the symbols of the file. -/
def symbol (cfg : Config) (encoder : DefaultEncoder) (chunk : Bytes) : Sent DefaultEncoder := do
  let (encoder, outputs) ← .call (encoder.submitSource chunk)
  Sent.send (outputs.map (·.raw))
  let (encoder, extra) ← .call (targeted cfg encoder)
  Sent.send (extra.toList.map (·.raw))
  pure encoder

/-- The tail flush: coded packets over the last window. -/
def flush (encoder : DefaultEncoder) : ℕ → Sent DefaultEncoder
  | 0 => pure encoder
  | count + 1 => do
    match ← Sent.call encoder.generateCoded with
    | (encoder, some coded) =>
      Sent.send [coded.raw]
      flush encoder count
    | (encoder, none) => pure encoder

namespace Config

/-- `raw.len().div_ceil(cfg.symbol_size)` -/
def nSymbols (cfg : Config) : ℕ := (cfg.file.length + cfg.symbolSize - 1) / cfg.symbolSize

def padded (cfg : Config) : Bytes := cfg.file ++ List.replicate (cfg.nSymbols * cfg.symbolSize - cfg.file.length) 0

/-- `padded[off..off + cfg.symbol_size]` of each symbol. -/
def chunks (cfg : Config) : List Bytes :=
  (List.range cfg.nSymbols).map fun i => (cfg.padded.drop (i * cfg.symbolSize)).take cfg.symbolSize

def encoder (cfg : Config) : EncoderConfigBuilder where
  symbolSize := cfg.symbolSize
  windowCapacity := cfg.window
  fecNumer := cfg.fecN
  fecDenom := cfg.fecD
  matrixStrategy := cfg.strategy
  backpressure := .evictOldest

end Config

/-- `run`, on the contents of the file; `sha256` is the digest that the `sha2` crate computes. -/
def run (sha256 : Bytes → Digest) (cfg : Config) : Sent Unit := do
  -- `div_ceil` panics on a divisor of zero
  .call (Outcome.require (cfg.symbolSize ≠ 0) .assertion)
  let encCfg ← .call cfg.encoder.build
  let fec ← .call (ConstantFecRate.new cfg.fecN cfg.fecD)
  Sent.send [buildStartFrame (UInt16.ofNat cfg.symbolSize) (UInt32.ofNat cfg.nSymbols) (UInt64.ofNat cfg.file.length)
    (sha256 cfg.file)]
  let encoder ← cfg.chunks.foldlM (symbol cfg) (Encoder.new encCfg {} {} fec)
  let _ ← flush encoder (cfg.window * 2)
  Sent.send [buildEndFrame]

end Delp.Send
