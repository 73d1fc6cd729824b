import Std.Data.TreeMap
import Delp.Lib.Machine

/-! The keys of an ordered map of 32-bit ids, smallest first. -/

namespace OrderedKeys
variable {β : Type} {map : Std.TreeMap UInt32 β}

theorem mem_keys_iff {id : UInt32} : id ∈ map.keys ↔ map[id]?.isSome := by
  rw [Std.TreeMap.mem_keys, Std.TreeMap.mem_iff_isSome_getElem?]

theorem getElem?_insert (map : Std.TreeMap UInt32 β) (id : UInt32) (value : β) (other : UInt32) :
    (map.insert id value)[other]? = if other = id then some value else map[other]? := by
  simp only [Std.TreeMap.getElem?_insert, Std.LawfulEqCmp.compare_eq_iff_eq, eq_comm (a := id)]

theorem getElem?_erase (map : Std.TreeMap UInt32 β) (id other : UInt32) :
    (map.erase id)[other]? = if other = id then none else map[other]? := by
  simp only [Std.TreeMap.getElem?_erase, Std.LawfulEqCmp.compare_eq_iff_eq, eq_comm (a := id)]

theorem sorted (map : Std.TreeMap UInt32 β) : map.keys.Pairwise (· < ·) :=
  map.ordered_keys.imp Std.compare_eq_lt.mp

theorem head_le {first id : UInt32} (head : map.keys.head? = some first) (member : id ∈ map) : first ≤ id := by
  have sorted := sorted map
  obtain ⟨rest, keys⟩ := List.head?_eq_some_iff.mp head
  have listed := Std.TreeMap.mem_keys.mpr member
  rw [keys] at sorted listed
  rcases List.mem_cons.mp listed with rfl | later
  · exact UInt32.le_refl _
  · exact UInt32.le_of_lt ((List.pairwise_cons.mp sorted).1 id later)

theorem le_last {last id : UInt32} (final : map.keys.getLast? = some last) (member : id ∈ map) : id ≤ last := by
  have sorted := sorted map
  obtain ⟨rest, keys⟩ := List.getLast?_eq_some_iff.mp final
  have listed := Std.TreeMap.mem_keys.mpr member
  rw [keys] at sorted listed
  rcases List.mem_append.mp listed with earlier | same
  · exact UInt32.le_of_lt ((List.pairwise_append.mp sorted).2.2 id earlier last (List.mem_singleton.mpr rfl))
  · rw [List.mem_singleton.mp same]
    exact UInt32.le_refl _

theorem head_mem {first : UInt32} (head : map.keys.head? = some first) : first ∈ map :=
  Std.TreeMap.mem_keys.mp (List.mem_of_head? head)

theorem last_mem {last : UInt32} (final : map.keys.getLast? = some last) : last ∈ map :=
  Std.TreeMap.mem_keys.mp (List.mem_of_getLast? final)

theorem distinct (map : Std.TreeMap UInt32 β) : map.toList.Pairwise (·.1 ≠ ·.1) :=
  map.distinct_keys_toList.imp fun {first second} apart same => apart (by simp [same])

end OrderedKeys
