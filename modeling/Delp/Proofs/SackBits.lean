import Delp.Lib.Bitmap
import Delp.Wire.Packet

/-! The two readings of a SACK: whether it acknowledges an id, and the ids that it acknowledges. -/

namespace Delp
open Machine

namespace FeedbackPacket
variable {pkt : FeedbackPacket}

/-- The SACK has a set bit for a number, which need not be an id. -/
def Names (pkt : FeedbackPacket) (n : ℕ) : Prop :=
  pkt.firstSrcId.toNat ≤ n ∧ Bitmap.isSet pkt.sack (n - pkt.firstSrcId.toNat) = true

theorem isAcked_iff {id : UInt32} : pkt.isAcked id = true ↔ pkt.Names id.toNat := by
  unfold isAcked
  split
  next below =>
    have below := (lt_iff _ _).mp below
    simp only [Names, Nat.not_le.mpr below, false_and, Bool.false_eq_true]
  next above =>
    have low := UInt32.not_lt.mp above
    have ordered := (le_iff _ _).mp low
    dsimp only
    rw [Names, ← toNat_sub low, and_iff_right ordered, Bitmap.isSet, List.getD_eq_getElem?_getD]
    split
    next nothing =>
      rw [nothing, Option.getD_none, UInt8.toNat_zero, Nat.zero_testBit]
    next byte here =>
      rw [here, Option.getD_some, Bitmap.testBit_eq byte (Nat.mod_lt _ (by decide))]

theorem ackedIds_eq (fits : ∀ p ∈ Bitmap.positions pkt.sack, pkt.firstSrcId.toNat + p < 4294967296) :
    pkt.ackedIds = .ok ((Bitmap.positions pkt.sack).map fun p => pkt.firstSrcId + UInt32.ofNat p) := by
  have group (item : UInt8 × ℕ) (member : item ∈ pkt.sack.zipIdx) :
      ackedOfByte pkt.firstSrcId (UInt32.ofNat (item.2 * 8)) item.1 =
        .ok ((Bitmap.positionsOfByte item.1 item.2).map fun p => pkt.firstSrcId + UInt32.ofNat p) := by
    have bits : ((List.range 8).filter fun bit => (item.1 >>> UInt8.ofNat (7 - bit)) &&& 1 == 1) =
        (List.range 8).filter fun bit => item.1.toNat.testBit (7 - bit) :=
      List.filter_congr fun bit within => Bitmap.testBit_eq item.1 (List.mem_range.mp within)
    rw [ackedOfByte, bits, Bitmap.positionsOfByte, List.map_map]
    refine Outcome.mapM_of fun bit listed => ?_
    have inside : 8 * item.2 + bit ∈ Bitmap.positions pkt.sack :=
      List.mem_flatMap.mpr ⟨item, member, List.mem_map.mpr ⟨bit, listed, rfl⟩⟩
    have room := fits _ inside
    have start : (UInt32.ofNat (item.2 * 8)).toNat = item.2 * 8 := toNat_ofNat (by omega)
    have offset : (UInt32.ofNat bit).toNat = bit := toNat_ofNat (by omega)
    have based : (pkt.firstSrcId + UInt32.ofNat (item.2 * 8)).toNat = pkt.firstSrcId.toNat + item.2 * 8 := by
      rw [toNat_add (by omega), start]
    rw [addU32_eq_ok.mpr ⟨by omega, rfl⟩, Outcome.ok_bind]
    refine addU32_eq_ok.mpr ⟨by omega, ?_⟩
    rw [Function.comp_apply, UInt32.add_assoc, ← UInt32.ofNat_add, Nat.mul_comm]
  rw [ackedIds, Outcome.mapM_of group, Outcome.ok_bind, Bitmap.positions, List.map_flatMap]
  rfl

/-- Both readings say the same: the list holds the acknowledged ids, in ascending order. -/
def Agrees (pkt : FeedbackPacket) : Prop :=
  ∃ ids, pkt.ackedIds = .ok ids ∧ ids.Pairwise (· < ·) ∧ ∀ id, id ∈ ids ↔ pkt.isAcked id = true

theorem agrees_of (bounded : ∀ n, pkt.Names n → n < 4294967296) : pkt.Agrees := by
  have fits (p : ℕ) (set : p ∈ Bitmap.positions pkt.sack) : pkt.firstSrcId.toNat + p < 4294967296 := by
    apply bounded
    refine ⟨Nat.le_add_right _ _, ?_⟩
    rw [Nat.add_sub_cancel_left]
    exact Bitmap.mem_positions.mp set
  have number (p : ℕ) (set : p ∈ Bitmap.positions pkt.sack) :
      (pkt.firstSrcId + UInt32.ofNat p).toNat = pkt.firstSrcId.toNat + p := by
    have room := fits p set
    rw [toNat_add (by rw [toNat_ofNat (by omega)]; exact room), toNat_ofNat (by omega)]
  refine ⟨_, ackedIds_eq fits, ?_, ?_⟩
  · apply List.pairwise_map.mpr
    refine (Bitmap.ascending_positions _).imp_of_mem fun {p q} left right less => ?_
    rw [lt_iff, number p left, number q right]
    exact Nat.add_lt_add_left less _
  · intro id
    rw [isAcked_iff, List.mem_map]
    constructor
    · rintro ⟨p, set, rfl⟩
      rw [number p set]
      refine ⟨Nat.le_add_right _ _, ?_⟩
      rw [Nat.add_sub_cancel_left]
      exact Bitmap.mem_positions.mp set
    · intro named
      have set := Bitmap.mem_positions.mpr named.2
      refine ⟨_, set, (eq_iff _ _).mpr ?_⟩
      rw [number _ set]
      exact Nat.add_sub_cancel' named.1

theorem names_bounded (short : pkt.sack.length ≤ 255) {ids : List UInt32} (listed : pkt.ackedIds = .ok ids) {n : ℕ}
    (named : pkt.Names n) : n < 4294967296 := by
  obtain ⟨groups, made, _⟩ := Outcome.bind_eq_ok.mp listed
  obtain ⟨item, member, inByte⟩ := List.mem_flatMap.mp (Bitmap.mem_positions.mpr named.2)
  obtain ⟨r, selected, place⟩ := List.mem_map.mp inByte
  obtain ⟨within, set⟩ := List.mem_filter.mp selected
  have within := List.mem_range.mp within
  have inside : item.2 < pkt.sack.length :=
    (List.getElem?_eq_some_iff.mp (List.mem_zipIdx_iff_getElem?.mp member)).1
  obtain ⟨group, _, here⟩ := Outcome.ok_of_mapM made member
  have selected : r ∈ (List.range 8).filter fun bit => (item.1 >>> UInt8.ofNat (7 - bit)) &&& 1 == 1 := by
    apply List.mem_filter.mpr
    exact ⟨List.mem_range.mpr within, (Bitmap.testBit_eq item.1 within).trans set⟩
  obtain ⟨id, _, added⟩ := Outcome.ok_of_mapM here selected
  obtain ⟨start, first, added⟩ := Outcome.bind_eq_ok.mp added
  obtain ⟨fits, rfl⟩ := addU32_eq_ok.mp first
  have room := (addU32_eq_ok.mp added).1
  rw [toNat_ofNat (by omega)] at fits
  rw [toNat_add (by rw [toNat_ofNat (by omega)]; exact fits), toNat_ofNat (by omega), toNat_ofNat (by omega)] at room
  have low := named.1
  omega

/-- A parsed SACK is read the same way both times exactly if it names nothing but ids. -/
theorem agrees_iff (short : pkt.sack.length ≤ 255) : pkt.Agrees ↔ ∀ n, pkt.Names n → n < 4294967296 := by
  refine ⟨fun agrees n named => ?_, agrees_of⟩
  obtain ⟨ids, listed, _⟩ := agrees
  exact names_bounded short listed named

end FeedbackPacket
end Delp
