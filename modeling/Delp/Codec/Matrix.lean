import Delp.Gf.Simd
import Delp.Policy.Traits
import Delp.Wire.CoefGen

/-! Incremental Gaussian elimination on dense coefficient rows. -/

namespace Delp
open Machine

/-- `coefs[i]` is the coefficient of source `base_id + i`. -/
structure DenseCoefs where
  baseId : SourceSymbolId
  coefs : Bytes
deriving DecidableEq, Repr

namespace DenseCoefs

/-- Fill a zero row over `min ..= max` from the entries of a map. -/
def fromMap (map : Std.TreeMap SourceSymbolId UInt8) : DenseCoefs :=
  match map.keys.head?, map.keys.getLast? with
  | some min, some max =>
    let len := (max - min).toNat + 1
    let coefs := map.toList.foldl (fun coefs (id, coef) => coefs.set (id - min).toNat coef)
      (List.replicate len 0)
    ⟨min, coefs⟩
  | _, _ => ⟨0, []⟩

def get (self : DenseCoefs) (id : SourceSymbolId) : UInt8 :=
  if id < self.baseId then 0 else self.coefs.getD (id - self.baseId).toNat 0

/-- Grow the row at the front or at the back until it has an entry for `id`. -/
def ensureCovers (self : DenseCoefs) (id : SourceSymbolId) : DenseCoefs :=
  if self.coefs.isEmpty then ⟨id, [0]⟩
  else if id < self.baseId then
    ⟨id, List.replicate (self.baseId - id).toNat 0 ++ self.coefs⟩
  else
    let needed := (id - self.baseId).toNat + 1
    if needed > self.coefs.length then
      ⟨self.baseId, self.coefs ++ List.replicate (needed - self.coefs.length) 0⟩
    else self

/-- `self ^= factor * other`. The end of `other` is a `u32` sum. -/
def subtractScaled (self other : DenseCoefs) (factor : UInt8) (field : Config.Field) : Result DenseCoefs :=
  if other.coefs.isEmpty ∨ factor = 0 then pure self
  else do
    let otherEnd ← addU32 other.baseId (UInt32.ofNat other.coefs.length)
    let self := self.ensureCovers other.baseId
    let self := self.ensureCovers (if otherEnd = 0 then 0 else otherEnd - 1)
    let dstOff ← subU32 other.baseId self.baseId
    let len := other.coefs.length
    let dst ← slice self.coefs dstOff.toNat (dstOff.toNat + len)
    let dst ← Gf.mulAcc field dst other.coefs factor
    pure { self with coefs := self.coefs.take dstOff.toNat ++ dst ++ self.coefs.drop (dstOff.toNat + len) }

def scale (self : DenseCoefs) (factor : UInt8) (field : Config.Field) : DenseCoefs :=
  { self with coefs := Gf.mulScale field self.coefs factor }

/-- The only id with a nonzero coefficient, when there is exactly one. The scan of the
source stops at the second nonzero entry, before it computes that entry's id. -/
def isSolved (self : DenseCoefs) : Result (Option SourceSymbolId) :=
  match self.coefs.zipIdx.filter fun (c, _) => c != 0 with
  | [] => pure none
  | (_, i) :: rest => do
    let id ← addU32 self.baseId (UInt32.ofNat i)
    pure (if rest.isEmpty then some id else none)

def pivotId (self : DenseCoefs) : Result (Option SourceSymbolId) :=
  match self.coefs.zipIdx.find? fun (c, _) => c != 0 with
  | none => pure none
  | some (_, i) => do
    let id ← addU32 self.baseId (UInt32.ofNat i)
    pure (some id)

def pivotCoef (self : DenseCoefs) : Option UInt8 := self.coefs.find? (· != 0)

def remove (self : DenseCoefs) (id : SourceSymbolId) : DenseCoefs :=
  if id < self.baseId then self else { self with coefs := self.coefs.set (id - self.baseId).toNat 0 }

def isZero (self : DenseCoefs) : Bool := self.coefs.all (· == 0)

end DenseCoefs

/-- `Gf2_8::new(v).inv()` or `Gf2_4::new(v & 0x0F).inv()`; only the unmasked byte is
checked for zero. -/
def gfInv (v : UInt8) (field : Config.Field) : Result UInt8 :=
  if v = 0 then .err .divisionByZero
  else match field with
    | .gf2_8 => do
      let inv ← Gf2_8.inv ⟨v⟩
      pure inv.value
    | .gf2_4 => do
      let inv ← Gf2_4.inv (.fromU8 v)
      pure inv.value

structure MatrixRow where
  coefs : DenseCoefs
  payload : Bytes
deriving DecidableEq, Repr

namespace MatrixRow

def subtractScaled (self other : MatrixRow) (factor : UInt8) (field : Config.Field) : Result MatrixRow := do
  let coefs ← self.coefs.subtractScaled other.coefs factor field
  let payload ← Gf.mulAcc field self.payload other.payload factor
  pure ⟨coefs, payload⟩

def normalize (self : MatrixRow) (field : Config.Field) : Result MatrixRow :=
  match self.coefs.pivotCoef with
  | none => .err (.malformedEncodingVector "zero pivot")
  | some pivotC =>
    if pivotC = 1 then pure self
    else do
      let inv ← gfInv pivotC field
      pure ⟨self.coefs.scale inv field, Gf.mulScale field self.payload inv⟩

/-- Take a known symbol out of a row that mentions it with coefficient `c`. -/
def substitute (self : MatrixRow) (id : SourceSymbolId) (data : Bytes) (c : UInt8) (field : Config.Field) :
    Result MatrixRow := do
  let coefs := self.coefs.remove id
  let payload ← Gf.mulAcc field self.payload data c
  pure ⟨coefs, payload⟩

end MatrixRow

abbrev KnownSources := Std.TreeMap SourceSymbolId Bytes

/-- Rows keyed by pivot id. -/
structure DecodingMatrix where
  rows : Std.TreeMap SourceSymbolId MatrixRow := ∅
  field : Config.Field
  maxRows : Nat

namespace DecodingMatrix

def new (field : Config.Field) (maxRows : Nat) : DecodingMatrix := { field, maxRows }

def rowCount (self : DecodingMatrix) : Nat := self.rows.size

/-- The coefficient that the decoder reads for one listed source id. -/
def coefAt (ev : EncodingVector) (i : Nat) (id : SourceSymbolId) : Result UInt8 :=
  if ev.hasExplicitCoefs then index ev.coefficients i
  else CoefGen.vandermondeCoef ev.field id ev.codedId

def coefMap (ev : EncodingVector) : Result (Std.TreeMap SourceSymbolId UInt8) :=
  ev.sourceIds.zipIdx.foldlM (fun map (id, i) => do
    let c ← coefAt ev i id
    pure (if c ≠ 0 then map.insert id c else map)) ∅

/-- One turn of the substitution of the known symbols into a new row. -/
def substituteKnown (field : Config.Field) (row : MatrixRow) (known : SourceSymbolId × Bytes) : Result MatrixRow :=
  let c := row.coefs.get known.1
  if c = 0 then pure row else row.substitute known.1 known.2 c field

/-- One turn of forward elimination, against the row stored under `pid`. -/
def eliminateWith (self : DecodingMatrix) (row : MatrixRow) (pid : SourceSymbolId) : Result MatrixRow :=
  let c := row.coefs.get pid
  if c = 0 then pure row
  else do
    let existing ← Outcome.get .bounds self.rows[pid]?
    row.subtractScaled existing c self.field

def forwardEliminate (self : DecodingMatrix) (row : MatrixRow) : Result MatrixRow :=
  self.rows.keys.foldlM self.eliminateWith row

/-- One turn of back-substitution: reduce the row stored under `pid` against the new row. -/
def reduceRow (newPivot : SourceSymbolId) (newRow : MatrixRow) (self : DecodingMatrix) (pid : SourceSymbolId) :
    Result DecodingMatrix := do
  let row ← Outcome.get .bounds self.rows[pid]?
  let c := row.coefs.get newPivot
  if c = 0 then pure self
  else do
    let row ← row.subtractScaled newRow c self.field
    pure { self with rows := self.rows.insert pid row }

def backSubstitute (self : DecodingMatrix) (newPivot : SourceSymbolId) (newRow : MatrixRow) :
    Result DecodingMatrix :=
  self.rows.keys.foldlM (reduceRow newPivot newRow) self

/-- One turn of the loop over the rows in `add_known_source`: the rows so far, and the ids
found solved. -/
def substituteInRow (field : Config.Field) (symId : SourceSymbolId) (symData : Bytes)
    (state : Std.TreeMap SourceSymbolId MatrixRow × List SourceSymbolId) (pid : SourceSymbolId) :
    Result (Std.TreeMap SourceSymbolId MatrixRow × List SourceSymbolId) := do
  let row ← Outcome.get .bounds state.1[pid]?
  let c := row.coefs.get symId
  if c = 0 then pure state
  else do
    let row ← row.substitute symId symData c field
    match ← row.coefs.isSolved with
    | some solvedId => pure (state.1.insert pid row, state.2 ++ [solvedId])
    | none => pure (state.1.insert pid row, state.2)

structure Cascade where
  rows : Std.TreeMap SourceSymbolId MatrixRow
  queue : List (SourceSymbolId × Bytes)
  localKnown : KnownSources
  recovered : List (SourceSymbolId × Bytes)

/-- Extract the row stored under a solved id and enqueue its symbol unless it is known. -/
def Cascade.extract (state : Cascade) (solvedId : SourceSymbolId) : Cascade :=
  match state.rows[solvedId]? with
  | none => state
  | some row => { state with
      rows := state.rows.erase solvedId
      recovered := state.recovered ++ [(solvedId, row.payload)]
      queue := if state.localKnown.contains solvedId then state.queue
        else state.queue ++ [(solvedId, row.payload)] }

/-- The `while let` loop over the work queue. Every symbol enqueued after the first comes
with a row removed, so the number of rows bounds the turns. -/
def Cascade.run (field : Config.Field) : Nat → Cascade → Result Cascade
  | 0, _ => .panic .diverged
  | fuel + 1, state =>
    match state.queue with
    | [] => pure state
    | (symId, symData) :: queue => do
      let (rows, newlySolved) ← state.rows.keys.foldlM (substituteInRow field symId symData) (state.rows, [])
      let state : Cascade := { state with rows, queue, localKnown := state.localKnown.insert symId symData }
      (newlySolved.foldl Cascade.extract state).run field fuel

/-- Substitute a received or recovered symbol into all rows, and cascade. -/
def addKnownSource (self : DecodingMatrix) (id : SourceSymbolId) (data : Bytes) (knownSources : KnownSources) :
    Result (DecodingMatrix × List (SourceSymbolId × Bytes)) := do
  let final ← Cascade.run self.field (self.rows.size + 2)
    { rows := self.rows, queue := [(id, data)], localKnown := knownSources, recovered := [] }
  pure ({ self with rows := final.rows }, final.recovered)

def enforceMaxRows (self : DecodingMatrix) : DecodingMatrix :=
  if self.rows.size ≥ self.maxRows then
    match self.rows.keys.head? with
    | some oldest => { self with rows := self.rows.erase oldest }
    | none => self
  else self

structure Extraction where
  matrix : DecodingMatrix
  extraKnown : KnownSources
  recovered : List (SourceSymbolId × Bytes)

def solvedPivots (self : DecodingMatrix) : Result (List SourceSymbolId) := do
  let marked ← self.rows.toList.mapM fun (pid, row) => do
    let solved ← row.coefs.isSolved
    pure (pid, solved.isSome)
  pure ((marked.filter (·.2)).map (·.1))

/-- Remove the row under `pid`; when it is solved, report its symbol and substitute it. -/
def Extraction.take (state : Extraction) (pid : SourceSymbolId) : Result Extraction :=
  match state.matrix.rows[pid]? with
  | none => pure state
  | some row => do
    let matrix := { state.matrix with rows := state.matrix.rows.erase pid }
    match ← row.coefs.isSolved with
    | none => pure { state with matrix }
    | some solvedId => do
      let extraKnown := state.extraKnown.insert solvedId row.payload
      let (matrix, more) ← matrix.addKnownSource solvedId row.payload extraKnown
      pure {
        matrix
        extraKnown := more.foldl (fun known (rid, rdata) => known.insert rid rdata) extraKnown
        recovered := state.recovered ++ [(solvedId, row.payload)] ++ more }

/-- The extraction loop. Every turn that goes on removes a row. -/
def Extraction.run : Nat → Extraction → Result Extraction
  | 0, _ => .panic .diverged
  | fuel + 1, state => do
    let solved ← state.matrix.solvedPivots
    if solved.isEmpty then pure state
    else do
      let state ← solved.foldlM Extraction.take state
      state.run fuel

/-- Insert a reduced, normalised row and collect what it solves. -/
def insertReduced (self : DecodingMatrix) (row : MatrixRow) (knownSources : KnownSources) :
    Result (DecodingMatrix × List (SourceSymbolId × Bytes)) := do
  match ← row.coefs.pivotId with
  | none => .err (.malformedEncodingVector "no pivot after elimination")
  | some pivotId => do
    let self ← self.backSubstitute pivotId row
    let self := self.enforceMaxRows
    let self := { self with rows := self.rows.insert pivotId row }
    let final ← Extraction.run (self.rows.size + 1)
      { matrix := self, extraKnown := knownSources, recovered := [] }
    pure (final.matrix, final.recovered)

/-- The row of a coded packet, with the known symbols substituted. -/
def reducedRow (self : DecodingMatrix) (ev : EncodingVector) (payload : Bytes) (knownSources : KnownSources) :
    Result MatrixRow := do
  let map ← coefMap ev
  knownSources.toList.foldlM (substituteKnown self.field) ⟨.fromMap map, payload⟩

/-- Add a coded equation to the matrix; returns every newly recovered symbol. An error is
reported before the matrix changes. -/
def addCoded (self : DecodingMatrix) (ev : EncodingVector) (payload : Bytes) (knownSources : KnownSources) :
    Result (DecodingMatrix × List (SourceSymbolId × Bytes)) := do
  let row ← self.reducedRow ev payload knownSources
  if row.coefs.isZero then pure (self, [])
  else do
    let row ← self.forwardEliminate row
    if row.coefs.isZero then pure (self, [])
    else do
      let row ← row.normalize self.field
      self.insertReduced row knownSources

end DecodingMatrix
end Delp
