import Delp.Codec.Buffer

/-! What draining and pruning do to the delivery buffer. Every buffered id is at or
ahead of the delivery pointer, so a drain that reaches `u32::MAX` empties the buffer. -/

namespace Delp.SymbolBuffer
open Machine

/-- No buffered symbol lies behind the delivery pointer. -/
def Ahead (buffer : SymbolBuffer) : Prop := ∀ id ∈ buffer.symbols, buffer.nextDeliveryId ≤ id

theorem new_ahead (start : SourceSymbolId) : (new start).Ahead := by
  intro id member
  simp [new] at member

@[simp] theorem insert_next (buffer : SymbolBuffer) (id : SourceSymbolId) (data : Bytes) :
    (buffer.insert id data).nextDeliveryId = buffer.nextDeliveryId := by
  unfold insert
  split <;> rfl

theorem mem_insert {buffer : SymbolBuffer} {id other : SourceSymbolId} {data : Bytes} :
    other ∈ (buffer.insert id data).symbols ↔
      other ∈ buffer.symbols ∨ other = id ∧ buffer.nextDeliveryId ≤ id := by
  unfold insert
  split
  next room => simp only [Std.TreeMap.mem_insertIfNew, Std.LawfulEqCmp.compare_eq_iff_eq]; grind
  next late => simp only [ge_iff_le] at late; grind

theorem insert_source {buffer : SymbolBuffer} {id other : SourceSymbolId} {data found : Bytes}
    (stored : (buffer.insert id data).symbols[other]? = some found) :
    buffer.symbols[other]? = some found ∨ other = id ∧ found = data := by
  unfold insert at stored
  split at stored
  · rw [Std.TreeMap.getElem?_insertIfNew] at stored
    split at stored
    next fresh => exact .inr ⟨(Std.LawfulEqCmp.eq_of_compare fresh.1).symm, by cases stored; rfl⟩
    next => exact .inl stored
  · exact .inl stored

theorem insert_ahead {buffer : SymbolBuffer} (ahead : buffer.Ahead) (id : SourceSymbolId) (data : Bytes) :
    (buffer.insert id data).Ahead := by
  intro other member
  rw [insert_next]
  rcases mem_insert.mp member with member | ⟨rfl, room⟩
  · exact ahead other member
  · exact room

structure Drains (buffer final : SymbolBuffer) (out : List (SourceSymbolId × Bytes)) : Prop where
  ids : out.map (·.1.toNat) = List.range' buffer.nextDeliveryId.toNat out.length
  stored : ∀ symbol ∈ out, buffer.symbols[symbol.1]? = some symbol.2
  fits : buffer.nextDeliveryId.toNat + out.length ≤ 4294967296
  pointer : final.nextDeliveryId.toNat = (buffer.nextDeliveryId.toNat + out.length) % 4294967296
  rest : ∀ id : SourceSymbolId, final.symbols[id]? =
    if buffer.nextDeliveryId.toNat + out.length ≤ id.toNat then buffer.symbols[id]? else none

namespace Drains

theorem nothing {buffer : SymbolBuffer} (ahead : buffer.Ahead) : Drains buffer buffer [] where
  ids := rfl
  stored := by simp
  fits := Nat.le_of_lt (toNat_lt _)
  pointer := (Nat.mod_eq_of_lt (toNat_lt _)).symm
  rest id := by
    split
    · rfl
    next behind =>
      by_contra present
      have member : id ∈ buffer.symbols := by
        rw [Std.TreeMap.mem_iff_isSome_getElem?]
        exact Option.isSome_iff_ne_none.mpr present
      have ordered := ahead id member
      rw [le_iff] at ordered
      simp only [List.length_nil] at behind
      omega

theorem more {buffer final : SymbolBuffer} {data : Bytes} {out : List (SourceSymbolId × Bytes)}
    (ahead : buffer.Ahead) (found : buffer.symbols[buffer.nextDeliveryId]? = some data)
    (later : Drains { symbols := buffer.symbols.erase buffer.nextDeliveryId,
                      nextDeliveryId := buffer.nextDeliveryId + 1 } final out) :
    Drains buffer final ((buffer.nextDeliveryId, data) :: out) := by
  have kept {id : SourceSymbolId} {value : Bytes}
      (left : (buffer.symbols.erase buffer.nextDeliveryId)[id]? = some value) :
      buffer.symbols[id]? = some value ∧ buffer.nextDeliveryId.toNat < id.toNat := by
    rw [Std.TreeMap.getElem?_erase] at left
    split at left
    · cases left
    next other =>
      have ordered := ahead id (Std.TreeMap.mem_iff_isSome_getElem?.mpr (by simp [left]))
      simp only [Std.LawfulEqCmp.compare_eq_iff_eq, eq_iff] at other
      rw [le_iff] at ordered
      exact ⟨left, by omega⟩
  -- past the last id nothing is left to deliver
  have inside : out ≠ [] → buffer.nextDeliveryId.toNat + 1 < 4294967296 := by
    intro more
    obtain ⟨symbol, rest, rfl⟩ := List.exists_cons_of_ne_nil more
    have behind := (kept (later.stored symbol List.mem_cons_self)).2
    have bounded := toNat_lt symbol.1
    omega
  have pointer := later.pointer
  have fits := later.fits
  have bounded := toNat_lt buffer.nextDeliveryId
  simp only [UInt32.toNat_add, UInt32.toNat_one] at pointer fits
  refine ⟨?_, ?_, ?_, ?_, ?_⟩
  · rw [List.map_cons, List.length_cons, List.range'_succ]
    congr 1
    by_cases empty : out = []
    · simp [empty]
    · rw [later.ids]
      simp only [UInt32.toNat_add, UInt32.toNat_one, Nat.mod_eq_of_lt (inside empty)]
  · intro symbol member
    rcases List.mem_cons.mp member with rfl | member
    · exact found
    · exact (kept (later.stored symbol member)).1
  · rw [List.length_cons]
    by_cases empty : out = []
    · simp only [empty, List.length_nil]
      omega
    · have := inside empty
      omega
  · rw [List.length_cons, pointer]
    omega
  · intro id
    rw [later.rest id, List.length_cons]
    simp only [UInt32.toNat_add, UInt32.toNat_one]
    rw [Std.TreeMap.getElem?_erase]
    simp only [Std.LawfulEqCmp.compare_eq_iff_eq, eq_iff]
    have range := toNat_lt id
    by_cases last : buffer.nextDeliveryId.toNat + 1 < 4294967296
    · rw [Nat.mod_eq_of_lt last]
      split <;> split <;> first | rfl | omega | (split <;> first | rfl | omega)
    · have empty : out = [] := by_contra fun more => last (inside more)
      rw [if_neg (show ¬ buffer.nextDeliveryId.toNat + (out.length + 1) ≤ id.toNat by omega)]
      cases held : buffer.symbols[id]? with
      | none => simp only [ite_self]
      | some value =>
        have ordered := ahead id (Std.TreeMap.mem_iff_isSome_getElem?.mpr (by simp [held]))
        rw [le_iff] at ordered
        rw [if_pos (show buffer.nextDeliveryId.toNat = id.toNat by omega), ite_self]

end Drains

private theorem advance {buffer : SymbolBuffer} (ahead : buffer.Ahead) :
    Ahead { symbols := buffer.symbols.erase buffer.nextDeliveryId,
            nextDeliveryId := buffer.nextDeliveryId + 1 } := by
  intro id member
  dsimp only at member ⊢
  rw [Std.TreeMap.mem_erase] at member
  have behind := ahead id member.2
  have other : buffer.nextDeliveryId ≠ id := fun same => member.1 (by simp [same])
  have bounded := toNat_lt id
  rw [le_iff] at *
  rw [ne_eq, eq_iff] at other
  rw [toNat_add (by simp only [UInt32.toNat_one]; omega), UInt32.toNat_one]
  omega

theorem drainFrom_drains (fuel : Nat) {buffer : SymbolBuffer} (ahead : buffer.Ahead) :
    Drains buffer (drainFrom fuel buffer).1 (drainFrom fuel buffer).2 := by
  induction fuel generalizing buffer with
  | zero => exact .nothing ahead
  | succ fuel ih =>
    unfold drainFrom
    split
    · exact .nothing ahead
    next data found =>
      exact .more ahead found (ih (advance ahead))

theorem drainFrom_stuck (fuel : Nat) (buffer : SymbolBuffer) (enough : buffer.symbols.size ≤ fuel) :
    (drainFrom fuel buffer).1.symbols[(drainFrom fuel buffer).1.nextDeliveryId]? = none := by
  induction fuel generalizing buffer with
  | zero =>
    have empty : buffer.symbols.isEmpty := by
      rw [Std.TreeMap.isEmpty_eq_size_eq_zero]
      simpa using enough
    exact Std.TreeMap.getElem?_of_isEmpty empty
  | succ fuel ih =>
    unfold drainFrom
    split
    next missing => exact missing
    next data found =>
      refine ih _ ?_
      have member : buffer.nextDeliveryId ∈ buffer.symbols :=
        Std.TreeMap.mem_iff_isSome_getElem?.mpr (by simp [found])
      dsimp only
      rw [Std.TreeMap.size_erase, if_pos (Std.TreeMap.contains_iff_mem.mpr member)]
      omega

theorem drain_drains {buffer : SymbolBuffer} (ahead : buffer.Ahead) :
    Drains buffer buffer.drainDeliverable.1 buffer.drainDeliverable.2 :=
  drainFrom_drains buffer.symbols.size ahead

theorem drain_stuck (buffer : SymbolBuffer) :
    buffer.drainDeliverable.1.nextDeliveryId ∉ buffer.drainDeliverable.1.symbols := by
  rw [Std.TreeMap.mem_iff_isSome_getElem?, drainDeliverable, drainFrom_stuck _ _ (Nat.le_refl _)]
  simp

def Unbroken (buffer : SymbolBuffer) (id : SourceSymbolId) : Prop :=
  ∀ other, buffer.nextDeliveryId ≤ other → other ≤ id → other ∈ buffer.symbols

namespace Drains
variable {buffer final : SymbolBuffer} {out : List (SourceSymbolId × Bytes)}

theorem mem_rest (drains : Drains buffer final out) {id : SourceSymbolId} :
    id ∈ final.symbols ↔ buffer.nextDeliveryId.toNat + out.length ≤ id.toNat ∧ id ∈ buffer.symbols := by
  rw [Std.TreeMap.mem_iff_isSome_getElem?, drains.rest id, Std.TreeMap.mem_iff_isSome_getElem?]
  split <;> simp_all

theorem mem_out (drains : Drains buffer final out) {id : SourceSymbolId} :
    id ∈ out.map (·.1) ↔
      buffer.nextDeliveryId ≤ id ∧ id.toNat < buffer.nextDeliveryId.toNat + out.length := by
  have same : id ∈ out.map (·.1) ↔ id.toNat ∈ out.map (·.1.toNat) := by
    simp only [List.mem_map]
    exact ⟨fun ⟨symbol, member, found⟩ => ⟨symbol, member, by rw [found]⟩,
      fun ⟨symbol, member, found⟩ => ⟨symbol, member, UInt32.toNat_inj.mp found⟩⟩
  rw [same, drains.ids, List.mem_range'_1, le_iff]

theorem out_subset (drains : Drains buffer final out) {id : SourceSymbolId} (member : id ∈ out.map (·.1)) :
    id ∈ buffer.symbols := by
  obtain ⟨symbol, delivered, rfl⟩ := List.mem_map.mp member
  rw [Std.TreeMap.mem_iff_isSome_getElem?, drains.stored symbol delivered]
  rfl

theorem pointer_of_lt (drains : Drains buffer final out)
    (inside : buffer.nextDeliveryId.toNat + out.length < 4294967296) :
    final.nextDeliveryId.toNat = buffer.nextDeliveryId.toNat + out.length := by
  rw [drains.pointer, Nat.mod_eq_of_lt inside]

theorem wrapped (drains : Drains buffer final out)
    (beyond : ¬ buffer.nextDeliveryId.toNat + out.length < 4294967296) :
    final.nextDeliveryId = 0 ∧ ∀ id, id ∉ final.symbols := by
  have fits := drains.fits
  constructor
  · rw [eq_iff, drains.pointer, show buffer.nextDeliveryId.toNat + out.length = 4294967296 by omega]
    rfl
  · intro id member
    have bounded := toNat_lt id
    have ordered := (drains.mem_rest.mp member).1
    omega

theorem ahead (drains : Drains buffer final out) : final.Ahead := by
  intro id member
  by_cases inside : buffer.nextDeliveryId.toNat + out.length < 4294967296
  · rw [le_iff, drains.pointer_of_lt inside]
    exact (drains.mem_rest.mp member).1
  · exact absurd member ((drains.wrapped inside).2 id)

/-- The pointer passes an id exactly when nothing is missing up to it. -/
theorem delivered_iff (drains : Drains buffer final out) (stuck : final.nextDeliveryId ∉ final.symbols)
    {id : SourceSymbolId} :
    id.toNat < buffer.nextDeliveryId.toNat + out.length ↔ buffer.Unbroken id := by
  constructor
  · intro delivered other start upTo
    refine drains.out_subset (drains.mem_out.mpr ⟨start, ?_⟩)
    rw [le_iff] at upTo
    omega
  · intro unbroken
    by_contra short
    have bounded := toNat_lt id
    have pointer := drains.pointer_of_lt (by omega)
    refine stuck (drains.mem_rest.mpr ⟨by omega, unbroken _ ?_ ?_⟩)
    · rw [le_iff]; omega
    · rw [le_iff]; omega

end Drains

theorem mem_pruneBelow {buffer : SymbolBuffer} {floor id : SourceSymbolId} :
    id ∈ (buffer.pruneBelow floor).symbols ↔ id ∈ buffer.symbols ∧ floor ≤ id := by
  simp [pruneBelow, Std.TreeMap.mem_filter, and_comm]

theorem pruneBelow_ahead {buffer : SymbolBuffer} (ahead : buffer.Ahead) (floor : SourceSymbolId) :
    (buffer.pruneBelow floor).Ahead := by
  intro id member
  obtain ⟨member, room⟩ := mem_pruneBelow.mp member
  have ordered := ahead id member
  simp only [pruneBelow]
  split <;> assumption

end Delp.SymbolBuffer
