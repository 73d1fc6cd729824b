import Delp.Wire.Packet
import Std.Data.TreeMap
import Std.Data.TreeSet

/-! Per-receiver acknowledgement tracking. -/

namespace Delp
open Machine

abbrev SourceSymbolId := UInt32
abbrev CodedSymbolId := UInt32
abbrev ReceiverId := UInt64

structure ReceiverEntry where
  /-- All ids below this value are acknowledged. -/
  cumulativeAck : SourceSymbolId := 0
  /-- Ids acknowledged individually. -/
  sack : Std.TreeSet SourceSymbolId := ∅

namespace ReceiverEntry

/-- Advance the cumulative acknowledgement through contiguous SACK entries. Every turn
takes one entry out of the set, whose size bounds the turns. -/
def promote : Nat → ReceiverEntry → Result ReceiverEntry
  | 0, _ => .panic .diverged
  | fuel + 1, entry =>
    if entry.sack.contains entry.cumulativeAck then do
      let sack := entry.sack.erase entry.cumulativeAck
      let cumulativeAck ← addU32 entry.cumulativeAck 1
      promote fuel { cumulativeAck, sack }
    else pure entry

def update (entry : ReceiverEntry) (pkt : FeedbackPacket) : Result ReceiverEntry := do
  let entry := if pkt.firstSrcId > entry.cumulativeAck then
      { cumulativeAck := pkt.firstSrcId, sack := entry.sack.filter fun id => decide (id ≥ pkt.firstSrcId) }
    else entry
  let acked ← pkt.ackedIds
  let sack := acked.foldl (fun sack id => sack.insert id) entry.sack
  promote (sack.size + 1) { entry with sack := sack }

def isAcked (entry : ReceiverEntry) (id : SourceSymbolId) : Bool :=
  id < entry.cumulativeAck || entry.sack.contains id

end ReceiverEntry

/-- Which source ids each receiver has acknowledged. The order of the hash map of the
source is never observed. -/
structure ReceiverAckState where
  receivers : Std.TreeMap ReceiverId ReceiverEntry := ∅

namespace ReceiverAckState

def update (self : ReceiverAckState) (receiverId : ReceiverId) (pkt : FeedbackPacket) : Result ReceiverAckState := do
  let entry ← (self.receivers[receiverId]?.getD {}).update pkt
  pure { receivers := self.receivers.insert receiverId entry }

def isAcked (self : ReceiverAckState) (receiverId : ReceiverId) (id : SourceSymbolId) : Bool :=
  self.receivers[receiverId]?.any fun entry => entry.isAcked id

def receiverIds (self : ReceiverAckState) : List ReceiverId := self.receivers.keys

def numReceivers (self : ReceiverAckState) : Nat := self.receivers.size

end ReceiverAckState
end Delp
