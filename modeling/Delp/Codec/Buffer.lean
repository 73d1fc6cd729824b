import Delp.Policy.Traits

/-! The in-order delivery buffer of the decoder. -/

namespace Delp

structure SymbolBuffer where
  symbols : Std.TreeMap SourceSymbolId Bytes := ∅
  /-- Next id the application expects. -/
  nextDeliveryId : SourceSymbolId

namespace SymbolBuffer

def new (startId : SourceSymbolId) : SymbolBuffer := { nextDeliveryId := startId }

/-- Store a symbol; ids below the delivery pointer and duplicates are dropped. -/
def insert (self : SymbolBuffer) (id : SourceSymbolId) (data : Bytes) : SymbolBuffer :=
  if id ≥ self.nextDeliveryId then { self with symbols := self.symbols.insertIfNew id data } else self

def contains (self : SymbolBuffer) (id : SourceSymbolId) : Bool := self.symbols.contains id

def highestId (self : SymbolBuffer) : Option SourceSymbolId := self.symbols.keys.getLast?

/-- The `while let` loop of `drain_deliverable`. Every turn removes one symbol, so the
size of the buffer bounds the turns. -/
def drainFrom : Nat → SymbolBuffer → SymbolBuffer × List (SourceSymbolId × Bytes)
  | 0, self => (self, [])
  | fuel + 1, self =>
    match self.symbols[self.nextDeliveryId]? with
    | none => (self, [])
    | some data =>
      let (final, out) := drainFrom fuel
        { symbols := self.symbols.erase self.nextDeliveryId, nextDeliveryId := self.nextDeliveryId + 1 }
      (final, (self.nextDeliveryId, data) :: out)

def drainDeliverable (self : SymbolBuffer) : SymbolBuffer × List (SourceSymbolId × Bytes) :=
  drainFrom self.symbols.size self

def pruneBelow (self : SymbolBuffer) (floor : SourceSymbolId) : SymbolBuffer where
  symbols := self.symbols.filter fun id _ => decide (id ≥ floor)
  nextDeliveryId := if self.nextDeliveryId < floor then floor else self.nextDeliveryId

def idsFrom (self : SymbolBuffer) (start : SourceSymbolId) : List SourceSymbolId :=
  self.symbols.keys.filter fun id => decide (start ≤ id)

end SymbolBuffer
end Delp
