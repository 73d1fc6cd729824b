import Delp.Policy.Traits

/-! The encoder's elastic window of source symbols. -/

namespace Delp
open Machine

structure WindowSymbol where
  id : SourceSymbolId
  data : Bytes
deriving DecidableEq, Repr

structure EncodingWindow where
  /-- Oldest symbol first. -/
  symbols : List WindowSymbol
  capacity : Nat
  /-- Id of the next submitted symbol. -/
  nextId : SourceSymbolId
  /-- Whether the ids are taken to form a contiguous range. -/
  isContiguous : Bool
deriving DecidableEq, Repr

/-- `b.id == a.id.wrapping_add(1)` for every two neighbours. -/
def checkContiguous (symbols : List WindowSymbol) : Bool :=
  (symbols.zip (symbols.drop 1)).all fun (a, b) => b.id == a.id + 1

namespace EncodingWindow

def new (capacity : Nat) : EncodingWindow := ⟨[], capacity, 0, true⟩

def len (self : EncodingWindow) : Nat := self.symbols.length

def isEmpty (self : EncodingWindow) : Bool := self.symbols.isEmpty

def isFull (self : EncodingWindow) : Bool := self.symbols.length ≥ self.capacity

def firstId (self : EncodingWindow) : Option SourceSymbolId := self.symbols.head?.map (·.id)

def lastId (self : EncodingWindow) : Option SourceSymbolId := self.symbols.getLast?.map (·.id)

def idSlice (self : EncodingWindow) : List SourceSymbolId := self.symbols.map (·.id)

/-- Append a symbol under the next id, which wraps. -/
def push (self : EncodingWindow) (data : Bytes) : Result (EncodingWindow × SourceSymbolId) := do
  Outcome.require (self.isFull = false) .assertion
  let id := self.nextId
  let broken := match self.lastId with
    | some last => id != last + 1
    | none => false
  pure ({ self with
    symbols := self.symbols ++ [⟨id, data⟩]
    nextId := self.nextId + 1
    isContiguous := if broken then false else self.isContiguous }, id)

def evictOldest (self : EncodingWindow) : EncodingWindow := { self with symbols := self.symbols.drop 1 }

/-- Remove the given ids; the contiguity flag is recomputed only when something was removed. -/
def removeIds (self : EncodingWindow) (ids : List SourceSymbolId) : EncodingWindow :=
  if ids.isEmpty then self
  else
    let symbols := self.symbols.filter fun s => !ids.contains s.id
    { self with
      symbols
      isContiguous := if symbols.length < self.symbols.length then checkContiguous symbols
        else self.isContiguous }

/-- The payload of an id: by offset in a contiguous window, by a scan otherwise. -/
def get (self : EncodingWindow) (id : SourceSymbolId) : Option Bytes :=
  match self.symbols with
  | [] => none
  | front :: _ =>
    if self.isContiguous then
      if id < front.id then none
      else (self.symbols[(id - front.id).toNat]?).map (·.data)
    else (self.symbols.find? fun s => s.id == id).map (·.data)

end EncodingWindow
end Delp
