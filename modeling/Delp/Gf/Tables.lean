import Mathlib.Data.UInt
import Mathlib.Logic.Function.Iterate

/-! The log and exp tables, built by the same loops as the constant
initialisers of the source. -/

namespace Delp.Gf

/-- The first `count` values of a running `x`, each stored before it is doubled. -/
def powers (double : UInt8 → UInt8) : Nat → UInt8 → List UInt8
  | 0, _ => []
  | count + 1, x => x :: powers double count (double x)

/-- `log[exp[i]] = i` for the `count` first entries; the other entries keep the sentinel. -/
def logTable (order count : Nat) (exp : List UInt8) : List UInt8 :=
  (List.range count).foldl (fun log i => log.set (exp.getD i 0).toNat (UInt8.ofNat i))
    (List.replicate order 0xFF)

def gf2_4Order : Nat := 16
def gf2_4Poly : UInt8 := 0x13

/-- One round of the GF(2⁴) loop: `x <<= 1`, reduced when bit 4 is set. -/
def gf2_4Double (x : UInt8) : UInt8 :=
  let x := x <<< 1
  if x &&& 0x10 ≠ 0 then (x ^^^ (gf2_4Poly &&& 0x0F) ^^^ 0x10) &&& 0x0F else x

def gf2_4Exp : List UInt8 := powers gf2_4Double (gf2_4Order - 1) 1 ++ [1]

def gf2_4Log : List UInt8 := logTable gf2_4Order (gf2_4Order - 1) gf2_4Exp

def gf2_8Order : Nat := 256
def gf2_8Poly : UInt16 := 0x11D

/-- One round of the GF(2⁸) loop, whose running value is a `u16` below 256. -/
def gf2_8Double (x : UInt8) : UInt8 :=
  let x := x.toUInt16 <<< 1
  (if x &&& 0x100 ≠ 0 then x ^^^ gf2_8Poly else x).toUInt8

/-- 512 entries: the 255 powers twice, one more for the edge case, and an unused zero. -/
def gf2_8Exp : List UInt8 :=
  let exp := powers gf2_8Double 255 1
  exp ++ exp ++ [exp.getD 0 0] ++ [0]

def gf2_8Log : List UInt8 := logTable gf2_8Order 255 gf2_8Exp

end Delp.Gf
