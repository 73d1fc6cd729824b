import Delp.Codec.Window
import Mathlib.Data.List.Chain
import Mathlib.Data.List.Nodup
import Mathlib.Data.List.Range

/-! What the encoder's window holds after any number of submissions and removals: symbols that
were submitted, oldest first, under the ids that they were given. -/

namespace Delp
open Machine

/-- The symbol of the submission of rank `k`, under the id that the counter had then. -/
def submittedSymbol (submitted : List Bytes) (k : ℕ) : WindowSymbol := ⟨UInt32.ofNat k, submitted.getD k []⟩

/-- The window holds the submissions of the ascending ranks `ks`. Ids repeat once the counter
has wrapped; a held symbol is never older than a symbol of its id that has been removed. -/
structure EncodingWindow.Tracks (window : EncodingWindow) (submitted : List Bytes) (ks : List ℕ) : Prop where
  ascending : ks.Pairwise (· < ·)
  below : ∀ k ∈ ks, k < submitted.length
  symbols : window.symbols = ks.map (submittedSymbol submitted)
  next : window.nextId = UInt32.ofNat submitted.length
  latest : ∀ k ∈ ks, ∀ later, k < later → later < submitted.length → UInt32.ofNat later = UInt32.ofNat k → later ∈ ks
  contiguous : window.isContiguous = true → window.symbols.IsChain fun a b => b.id = a.id + 1

theorem isChain_of_checkContiguous {symbols : List WindowSymbol} (checked : checkContiguous symbols = true) :
    symbols.IsChain fun a b => b.id = a.id + 1 := by
  induction symbols with
  | nil => exact .nil
  | cons first rest ih =>
    cases rest with
    | nil => exact .singleton first
    | cons second rest =>
      simp only [checkContiguous, List.drop_one, List.tail_cons, List.zip_cons_cons, List.all_cons, Bool.and_eq_true,
        beq_iff_eq] at checked
      exact List.isChain_cons_cons.mpr ⟨checked.1, ih (by simpa only [checkContiguous, List.drop_one, List.tail_cons] using checked.2)⟩

namespace EncodingWindow
variable {window after : EncodingWindow} {submitted : List Bytes} {ks : List ℕ}

theorem new_tracks (capacity : ℕ) : (new capacity).Tracks [] [] :=
  ⟨.nil, fun _ member => (List.not_mem_nil member).elim, rfl, rfl, fun _ member => (List.not_mem_nil member).elim, fun _ => .nil⟩

theorem push_eq {data : Bytes} {id : SourceSymbolId} (pushed : window.push data = .ok (after, id)) :
    window.symbols.length < window.capacity ∧ id = window.nextId ∧ after.symbols = window.symbols ++ [⟨window.nextId, data⟩] ∧
      after.capacity = window.capacity ∧ after.nextId = window.nextId + 1 ∧
      (after.isContiguous = true → window.isContiguous = true ∧ ∀ last ∈ window.lastId, window.nextId = last + 1) := by
  obtain ⟨_, room, pushed⟩ := Outcome.bind_eq_ok.mp pushed
  have room : window.isFull = false := Outcome.require_eq_ok.mp room
  simp only [isFull, decide_eq_false_iff_not, ge_iff_le, Nat.not_le] at room
  cases pushed
  refine ⟨room, rfl, rfl, rfl, rfl, fun kept => ?_⟩
  cases found : window.lastId with
  | none => exact ⟨by simpa [found] using kept, fun last impossible => by cases impossible⟩
  | some last =>
    simp only [found, bne_iff_ne, ne_eq, ite_not, Bool.if_false_right, Bool.and_eq_true, decide_eq_true_eq] at kept
    exact ⟨kept.2, fun other same => by cases same; exact kept.1⟩

theorem Tracks.push (tracks : window.Tracks submitted ks) {data : Bytes} {id : SourceSymbolId}
    (pushed : window.push data = .ok (after, id)) : after.Tracks (submitted ++ [data]) (ks ++ [submitted.length]) := by
  obtain ⟨_, _, symbols, _, next, kept⟩ := push_eq pushed
  have same (k : ℕ) (member : k ∈ ks) : submittedSymbol (submitted ++ [data]) k = submittedSymbol submitted k := by
    simp only [submittedSymbol, List.getD_append _ _ _ _ (tracks.below k member)]
  refine ⟨?_, ?_, ?_, ?_, ?_, ?_⟩
  · exact List.pairwise_append.mpr ⟨tracks.ascending, List.pairwise_singleton _ _, fun k member later last => by
      rw [List.mem_singleton.mp last]
      exact tracks.below k member⟩
  · intro k member
    rw [List.length_append, List.length_singleton]
    rcases List.mem_append.mp member with old | new
    · exact Nat.lt_succ_of_lt (tracks.below k old)
    · rw [List.mem_singleton.mp new]
      exact Nat.lt_succ_self _
  · rw [symbols, List.map_append, List.map_congr_left same, ← tracks.symbols, List.map_singleton, submittedSymbol,
      List.getD_append_right _ _ _ _ le_rfl, Nat.sub_self, tracks.next]
    rfl
  · rw [next, tracks.next, List.length_append, List.length_singleton, UInt32.ofNat_add]
    rfl
  · intro k member later after inside sameId
    rw [List.length_append, List.length_singleton] at inside
    rcases Nat.lt_succ_iff_lt_or_eq.mp inside with old | rfl
    · rcases List.mem_append.mp member with held | new
      · exact List.mem_append_left _ (tracks.latest k held later after old sameId)
      · rw [List.mem_singleton.mp new] at after
        omega
    · exact List.mem_append_right _ (List.mem_singleton.mpr rfl)
  · intro contiguous
    obtain ⟨before, joined⟩ := kept contiguous
    rw [symbols]
    refine (tracks.contiguous before).append (.singleton _) ?_
    intro last found new here
    rw [List.head?_cons, Option.mem_some_iff] at here
    rw [← here]
    exact joined last.id (by rw [lastId, Option.mem_def.mp found]; rfl)

theorem Tracks.evictOldest (tracks : window.Tracks submitted ks) : window.evictOldest.Tracks submitted (ks.drop 1) := by
  refine ⟨tracks.ascending.drop, fun k member => tracks.below k (List.mem_of_mem_drop member), ?_, tracks.next, ?_,
    fun contiguous => (tracks.contiguous contiguous).drop 1⟩
  · rw [EncodingWindow.evictOldest, tracks.symbols, List.map_drop]
  · intro k member later after inside sameId
    have held := tracks.latest k (List.mem_of_mem_drop member) later after inside sameId
    cases ks with
    | nil => cases member
    | cons first rest =>
      rw [List.drop_one, List.tail_cons] at member ⊢
      rcases List.mem_cons.mp held with rfl | kept
      · exact absurd ((List.pairwise_cons.mp tracks.ascending).1 k member) (by omega)
      · exact kept

theorem Tracks.removeIds (tracks : window.Tracks submitted ks) (ids : List SourceSymbolId) :
    (window.removeIds ids).Tracks submitted (ks.filter fun k => !ids.contains (UInt32.ofNat k)) := by
  have symbols : (window.symbols.filter fun s => !ids.contains s.id) =
      (ks.filter fun k => !ids.contains (UInt32.ofNat k)).map (submittedSymbol submitted) := by
    rw [tracks.symbols, List.filter_map]
    rfl
  have held (k : ℕ) (member : k ∈ ks.filter fun k => !ids.contains (UInt32.ofNat k)) : k ∈ ks := List.mem_of_mem_filter member
  have ranks (next : EncodingWindow) (same : next.symbols = window.symbols.filter fun s => !ids.contains s.id)
      (counter : next.nextId = window.nextId)
      (contiguous : next.isContiguous = true → next.symbols.IsChain fun a b => b.id = a.id + 1) :
      next.Tracks submitted (ks.filter fun k => !ids.contains (UInt32.ofNat k)) := by
    refine ⟨tracks.ascending.filter _, fun k member => tracks.below k (held k member), same.trans symbols,
      counter.trans tracks.next, fun k member later after inside sameId => ?_, contiguous⟩
    refine List.mem_filter.mpr ⟨tracks.latest k (held k member) later after inside sameId, ?_⟩
    rw [sameId]
    exact (List.mem_filter.mp member).2
  unfold EncodingWindow.removeIds
  split
  next none =>
    have all : (window.symbols.filter fun s => !ids.contains s.id) = window.symbols := by
      rw [List.isEmpty_iff.mp none]
      exact List.filter_eq_self.mpr fun _ _ => rfl
    exact ranks window all.symm rfl tracks.contiguous
  next =>
    refine ranks _ rfl rfl fun contiguous => ?_
    dsimp only at contiguous ⊢
    split at contiguous
    next => exact isChain_of_checkContiguous contiguous
    next all =>
      rw [List.filter_eq_self.mpr (List.length_filter_eq_length_iff.mp
        (Nat.le_antisymm (List.length_filter_le _ _) (Nat.le_of_not_lt all)))]
      exact tracks.contiguous contiguous

theorem removeIds_capacity {ids : List SourceSymbolId} : (window.removeIds ids).capacity = window.capacity := by
  unfold EncodingWindow.removeIds
  split <;> rfl

theorem removeIds_length {ids : List SourceSymbolId} : (window.removeIds ids).symbols.length ≤ window.symbols.length := by
  unfold EncodingWindow.removeIds
  split
  · exact le_rfl
  · exact List.length_filter_le _ _

/-- A symbol that is found has the id that was asked for, whichever way the window looks it up. -/
theorem Tracks.get_some (tracks : window.Tracks submitted ks) {id : SourceSymbolId} {data : Bytes}
    (found : window.get id = some data) : ⟨id, data⟩ ∈ window.symbols := by
  unfold EncodingWindow.get at found
  split at found
  · cases found
  next front rest held =>
    split at found
    next contiguous =>
      split at found
      · cases found
      obtain ⟨⟨sid, sdata⟩, at_, rfl⟩ := Option.map_eq_some_iff.mp found
      obtain ⟨inside, here⟩ := List.getElem?_eq_some_iff.mp at_
      -- a contiguous window numbers its symbols from its front
      have numbered (i : ℕ) (inside : i < window.symbols.length) : window.symbols[i].id = front.id + UInt32.ofNat i := by
        induction i with
        | zero => simp [held]
        | succ i ih =>
          rw [List.isChain_iff_getElem.mp (tracks.contiguous contiguous) i inside, ih (by omega), UInt32.ofNat_add, UInt32.add_assoc]
          rfl
      have same : sid = id := by
        have place := numbered _ inside
        rw [here, UInt32.ofNat_toNat] at place
        rw [show sid = front.id + (id - front.id) from place, UInt32.add_comm, UInt32.sub_add_cancel]
      rw [← same]
      exact List.mem_of_getElem? at_
    next =>
      obtain ⟨⟨sid, sdata⟩, at_, rfl⟩ := Option.map_eq_some_iff.mp found
      have same : sid = id := by simpa using List.find?_some at_
      rw [← same]
      exact List.mem_of_find?_eq_some at_

theorem Tracks.idSlice_eq (tracks : window.Tracks submitted ks) : window.idSlice = ks.map UInt32.ofNat := by
  rw [idSlice, tracks.symbols, List.map_map]
  rfl

end EncodingWindow

/-- The symbol last submitted under each id, and none where there was none. -/
def symbolsOf (submitted : List Bytes) : SourceSymbolId → Bytes :=
  submitted.zipIdx.foldl (fun x entry => Function.update x (UInt32.ofNat entry.2) entry.1) fun _ => []

theorem symbolsOf_append (submitted : List Bytes) (data : Bytes) :
    symbolsOf (submitted ++ [data]) = Function.update (symbolsOf submitted) (UInt32.ofNat submitted.length) data := by
  rw [symbolsOf, List.zipIdx_append, List.foldl_append, Nat.zero_add]
  rfl

theorem symbolsOf_latest {submitted : List Bytes} {k : ℕ} (below : k < submitted.length)
    (latest : ∀ later, k < later → later < submitted.length → UInt32.ofNat later ≠ UInt32.ofNat k) :
    symbolsOf submitted (UInt32.ofNat k) = submitted.getD k [] := by
  induction submitted using List.reverseRecOn with
  | nil => cases below
  | append_singleton submitted data ih =>
    rw [List.length_append, List.length_singleton] at below latest
    rw [symbolsOf_append]
    rcases Nat.lt_succ_iff_lt_or_eq.mp below with old | rfl
    · rw [Function.update_of_ne (latest _ old (Nat.lt_succ_self _)).symm,
        ih old fun later after inside => latest later after (by omega), List.getD_append _ _ _ _ old]
    · rw [Function.update_self, List.getD_append_right _ _ _ _ le_rfl, Nat.sub_self]
      rfl

namespace EncodingWindow

theorem Tracks.symbolsOf_eq {window : EncodingWindow} {submitted : List Bytes} {ks : List ℕ}
    (tracks : window.Tracks submitted ks) (distinct : window.idSlice.Nodup) {s : WindowSymbol} (held : s ∈ window.symbols) :
    symbolsOf submitted s.id = s.data := by
  rw [tracks.symbols] at held
  obtain ⟨k, member, rfl⟩ := List.mem_map.mp held
  refine symbolsOf_latest (tracks.below k member) fun later after inside sameId => ?_
  rw [tracks.idSlice_eq] at distinct
  have again := tracks.latest k member later after inside sameId
  exact absurd (List.inj_on_of_nodup_map distinct again member sameId) (by omega)

end EncodingWindow
end Delp
