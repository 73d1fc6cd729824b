import Delp.Gf.Simd
import Delp.Lib.Lanes

/-! The vector kernels of the bulk arithmetic, the dispatch between them and the
byte-wise reference. -/

namespace Delp.Gf
open Machine Lanes

inductive Dispatch where
  | avx2
  | ssse3
  | neon
  | scalar
deriving DecidableEq, Repr

section Registers
variable {n : Nat}

/-- The nibble split of the x86 kernels: the high nibbles come from a 16-bit shift and a mask. -/
def x86Product (loTbl hiTbl inp : Lanes n) : Lanes n :=
  let mask0f := set1 0x0F
  let loN := Lanes.and inp mask0f
  let hiN := Lanes.and (srliEpi16 inp 4) mask0f
  Lanes.xor (shuffleEpi8 loTbl loN) (shuffleEpi8 hiTbl hiN)

/-- The nibble split of the NEON kernels, which shift every byte by itself. -/
def neonProduct (loTbl hiTbl inp : Lanes n) : Lanes n :=
  let mask0f := set1 0x0F
  let loN := Lanes.and inp mask0f
  let hiN := shr inp 4
  Lanes.xor (tbl loTbl loN) (tbl hiTbl hiN)

def accumulateAt (product : Lanes n → Lanes n) (src : Bytes) (dst : Buffer) (off : Nat) : Result Buffer := do
  let inp ← loadu n src off
  let cur ← loadu n dst.bytes off
  storeu dst off (Lanes.xor cur (product inp))

def scaleAt (product : Lanes n → Lanes n) (dst : Buffer) (off : Nat) : Result Buffer := do
  let inp ← loadu n dst.bytes off
  storeu dst off (product inp)

end Registers

section Scalar

/-- The portable accumulation, which stores a byte at a time. -/
def scalarAccumulate (dst : Buffer) (src : Bytes) (t : NibbleTables) : Buffer :=
  ⟨scalarMulAcc dst.bytes src t, dst.stored ++ List.range (min dst.bytes.length src.length)⟩

def scalarScale (dst : Buffer) (t : NibbleTables) : Buffer :=
  ⟨scalarMulScale dst.bytes t, dst.stored ++ List.range dst.bytes.length⟩

end Scalar

section Ssse3

def ssse3MulAcc (dst : Buffer) (src : Bytes) (t : NibbleTables) : Result Buffer := do
  let loTbl ← loadu 16 t.lo 0
  let hiTbl ← loadu 16 t.hi 0
  let chunks := dst.bytes.length / 16
  let tail := dst.bytes.length % 16
  let dst ← (List.range chunks).foldlM (fun dst i => accumulateAt (x86Product loTbl hiTbl) src dst (i * 16)) dst
  let base := chunks * 16
  updateSlice dst base (base + tail) fun part => do
    let rest ← slice src base (base + tail)
    pure (scalarAccumulate part rest t)

def ssse3MulScale (dst : Buffer) (t : NibbleTables) : Result Buffer := do
  let loTbl ← loadu 16 t.lo 0
  let hiTbl ← loadu 16 t.hi 0
  let chunks := dst.bytes.length / 16
  let tail := dst.bytes.length % 16
  let dst ← (List.range chunks).foldlM (fun dst i => scaleAt (x86Product loTbl hiTbl) dst (i * 16)) dst
  let base := chunks * 16
  updateSlice dst base (base + tail) fun part => pure (scalarScale part t)

end Ssse3

section Avx2

/-- One turn of the unrolled loop: both chains load before either of them stores. -/
def avx2AccumulatePair (loTbl hiTbl : Lanes 32) (src : Bytes) (dst : Buffer) (off : Nat) : Result Buffer := do
  let inpA ← loadu 32 src off
  let curA ← loadu 32 dst.bytes off
  let inpB ← loadu 32 src (off + 32)
  let curB ← loadu 32 dst.bytes (off + 32)
  let dst ← storeu dst off (Lanes.xor curA (x86Product loTbl hiTbl inpA))
  storeu dst (off + 32) (Lanes.xor curB (x86Product loTbl hiTbl inpB))

def avx2ScalePair (loTbl hiTbl : Lanes 32) (dst : Buffer) (off : Nat) : Result Buffer := do
  let inpA ← loadu 32 dst.bytes off
  let inpB ← loadu 32 dst.bytes (off + 32)
  let dst ← storeu dst off (x86Product loTbl hiTbl inpA)
  storeu dst (off + 32) (x86Product loTbl hiTbl inpB)

/-- 64 bytes a turn, and the remainder to the 16-byte kernel. -/
def avx2MulAcc (dst : Buffer) (src : Bytes) (t : NibbleTables) : Result Buffer := do
  let lo128 ← loadu 16 t.lo 0
  let hi128 ← loadu 16 t.hi 0
  let unrolled := dst.bytes.length / 64
  let rem := dst.bytes.length % 64
  let dst ← (List.range unrolled).foldlM
    (fun dst i => avx2AccumulatePair (broadcast lo128) (broadcast hi128) src dst (i * 64)) dst
  let base := unrolled * 64
  updateSlice dst base (base + rem) fun part => do
    let rest ← slice src base (base + rem)
    ssse3MulAcc part rest t

def avx2MulScale (dst : Buffer) (t : NibbleTables) : Result Buffer := do
  let lo128 ← loadu 16 t.lo 0
  let hi128 ← loadu 16 t.hi 0
  let unrolled := dst.bytes.length / 64
  let rem := dst.bytes.length % 64
  let dst ← (List.range unrolled).foldlM
    (fun dst i => avx2ScalePair (broadcast lo128) (broadcast hi128) dst (i * 64)) dst
  let base := unrolled * 64
  updateSlice dst base (base + rem) fun part => ssse3MulScale part t

end Avx2

section Neon

/-- The pointers advance by 16 bytes a turn. -/
def neonMulAcc (dst : Buffer) (src : Bytes) (t : NibbleTables) : Result Buffer := do
  let loTbl ← loadu 16 t.lo 0
  let hiTbl ← loadu 16 t.hi 0
  let chunks := dst.bytes.length / 16
  let tail := dst.bytes.length % 16
  let dst ← (List.range chunks).foldlM (fun dst i => accumulateAt (neonProduct loTbl hiTbl) src dst (i * 16)) dst
  if tail > 0 then do
    let base := chunks * 16
    updateSlice dst base (base + tail) fun part => do
      let rest ← slice src base (base + tail)
      pure (scalarAccumulate part rest t)
  else pure dst

def neonMulScale (dst : Buffer) (t : NibbleTables) : Result Buffer := do
  let loTbl ← loadu 16 t.lo 0
  let hiTbl ← loadu 16 t.hi 0
  let chunks := dst.bytes.length / 16
  let tail := dst.bytes.length % 16
  let dst ← (List.range chunks).foldlM (fun dst i => scaleAt (neonProduct loTbl hiTbl) dst (i * 16)) dst
  if tail > 0 then do
    let base := chunks * 16
    updateSlice dst base (base + tail) fun part => pure (scalarScale part t)
  else pure dst

end Neon

def fillZero (buf : Buffer) : Buffer :=
  ⟨List.replicate buf.bytes.length 0, buf.stored ++ List.range buf.bytes.length⟩

namespace Dispatch

/-- Accumulate with a table and a dispatch that the caller holds. -/
def mulAccRaw (self : Dispatch) (dst : Buffer) (src : Bytes) (t : NibbleTables) : Result Buffer :=
  match self with
  | .avx2 => avx2MulAcc dst src t
  | .ssse3 => ssse3MulAcc dst src t
  | .neon => neonMulAcc dst src t
  | .scalar => pure (scalarAccumulate dst src t)

/-- The `match dispatch()` that ends both scaling functions. -/
def mulScaleRaw (self : Dispatch) (dst : Buffer) (t : NibbleTables) : Result Buffer :=
  match self with
  | .avx2 => avx2MulScale dst t
  | .ssse3 => ssse3MulScale dst t
  | .neon => neonMulScale dst t
  | .scalar => pure (scalarScale dst t)

def mulAccGf2_8 (self : Dispatch) (dst : Buffer) (src : Bytes) (coef : UInt8) : Result Buffer := do
  Outcome.require (dst.bytes.length = src.length) .assertion
  if coef = 0 then pure dst else self.mulAccRaw dst src (.forGf2_8 coef)

def mulScaleGf2_8 (self : Dispatch) (buf : Buffer) (coef : UInt8) : Result Buffer :=
  if coef = 0 then pure (fillZero buf)
  else if coef = 1 then pure buf
  else self.mulScaleRaw buf (.forGf2_8 coef)

def mulAccGf2_4 (self : Dispatch) (dst : Buffer) (src : Bytes) (coef : UInt8) : Result Buffer := do
  Outcome.require (dst.bytes.length = src.length) .assertion
  let c := coef &&& 0x0F
  if c = 0 then pure dst else self.mulAccRaw dst src (.forGf2_4 ((c <<< 4) ||| c))

def mulScaleGf2_4 (self : Dispatch) (buf : Buffer) (coef : UInt8) : Result Buffer :=
  let c := coef &&& 0x0F
  if c = 0 then pure (fillZero buf)
  else self.mulScaleRaw buf (.forGf2_4 ((c <<< 4) ||| c))

/-- The `match field` in front of the bulk accumulation. -/
def mulAcc (self : Dispatch) (field : Config.Field) (dst : Buffer) (src : Bytes) (coef : UInt8) : Result Buffer :=
  match field with
  | .gf2_8 => self.mulAccGf2_8 dst src coef
  | .gf2_4 => self.mulAccGf2_4 dst src coef

def mulScale (self : Dispatch) (field : Config.Field) (buf : Buffer) (coef : UInt8) : Result Buffer :=
  match field with
  | .gf2_8 => self.mulScaleGf2_8 buf coef
  | .gf2_4 => self.mulScaleGf2_4 buf coef

end Dispatch

section References

def mulAccGf2_8Reference (dst src : Bytes) (coef : UInt8) : Bytes :=
  dst.zipWith (fun d s => d ^^^ Gf2_8.mulRaw s coef) src ++ dst.drop src.length

def mulScaleGf2_8Reference (buf : Bytes) (coef : UInt8) : Bytes := buf.map fun b => Gf2_8.mulRaw b coef

/-- The product of both nibbles of a byte by the low nibble of a coefficient. -/
def mulNibbles (s coef : UInt8) : UInt8 :=
  let c := coef &&& 0x0F
  let hi := Gf2_4.mulRaw ((s >>> 4) &&& 0x0F) c <<< 4
  let lo := Gf2_4.mulRaw (s &&& 0x0F) c
  hi ||| lo

def mulAccGf2_4Reference (dst src : Bytes) (coef : UInt8) : Bytes :=
  dst.zipWith (fun d s => d ^^^ mulNibbles s coef) src ++ dst.drop src.length

end References

end Delp.Gf
