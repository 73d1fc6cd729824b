import Delp.Config
import Delp.Gf.Element

/-! Bulk arithmetic through split-nibble tables, in the portable kernel that
every host can dispatch to. -/

namespace Delp.Gf

/-- `lo[x] = coef * x` and `hi[x] = coef * (x << 4)` for one coefficient. -/
structure NibbleTables where
  lo : List UInt8
  hi : List UInt8

namespace NibbleTables

def forGf2_8 (coef : UInt8) : NibbleTables where
  lo := (List.range 16).map fun x => Gf2_8.mulRaw (UInt8.ofNat x) coef
  hi := (List.range 16).map fun x => Gf2_8.mulRaw (UInt8.ofNat x <<< 4) coef

/-- `coef` packs one coefficient for each nibble. -/
def forGf2_4 (coef : UInt8) : NibbleTables where
  lo := (List.range 16).map fun x => Gf2_4.mulRaw (UInt8.ofNat x) (coef &&& 0x0F)
  hi := (List.range 16).map fun x => Gf2_4.mulRaw (UInt8.ofNat x) (coef >>> 4) <<< 4

def product (t : NibbleTables) (s : UInt8) : UInt8 :=
  t.lo.getD (s &&& 0x0F).toNat 0 ^^^ t.hi.getD (s >>> 4).toNat 0

end NibbleTables

def scalarMulAcc (dst src : Bytes) (t : NibbleTables) : Bytes :=
  dst.zipWith (fun d s => d ^^^ t.product s) src ++ dst.drop src.length

def scalarMulScale (dst : Bytes) (t : NibbleTables) : Bytes := dst.map t.product

/-- `dst[i] ^= coef * src[i]` over GF(2⁸). -/
def mulAccGf2_8 (dst src : Bytes) (coef : UInt8) : Result Bytes := do
  Outcome.require (dst.length = src.length) .assertion
  if coef = 0 then pure dst else pure (scalarMulAcc dst src (.forGf2_8 coef))

def mulScaleGf2_8 (buf : Bytes) (coef : UInt8) : Bytes :=
  if coef = 0 then List.replicate buf.length 0
  else if coef = 1 then buf
  else scalarMulScale buf (.forGf2_8 coef)

/-- `dst[i] ^= coef * src[i]` over GF(2⁴), two packed elements a byte. -/
def mulAccGf2_4 (dst src : Bytes) (coef : UInt8) : Result Bytes := do
  Outcome.require (dst.length = src.length) .assertion
  let c := coef &&& 0x0F
  if c = 0 then pure dst else pure (scalarMulAcc dst src (.forGf2_4 ((c <<< 4) ||| c)))

def mulScaleGf2_4 (buf : Bytes) (coef : UInt8) : Bytes :=
  let c := coef &&& 0x0F
  if c = 0 then List.replicate buf.length 0
  else scalarMulScale buf (.forGf2_4 ((c <<< 4) ||| c))

/-- The `match field` that every bulk accumulation of the codec goes through. -/
def mulAcc (field : Config.Field) (dst src : Bytes) (coef : UInt8) : Result Bytes :=
  match field with
  | .gf2_8 => mulAccGf2_8 dst src coef
  | .gf2_4 => mulAccGf2_4 dst src coef

def mulScale (field : Config.Field) (buf : Bytes) (coef : UInt8) : Bytes :=
  match field with
  | .gf2_8 => mulScaleGf2_8 buf coef
  | .gf2_4 => mulScaleGf2_4 buf coef

end Delp.Gf
