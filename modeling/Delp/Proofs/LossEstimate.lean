import Delp.Policy.Defaults
import Delp.Proofs.DecoderRun
import Mathlib.Data.List.Sort
import Mathlib.Data.Finset.Card
import Mathlib.Data.Finset.Range

/-! What the loss tracker makes of the order in which source packets arrive. -/

namespace Delp
open Machine

namespace LossTracker

/-- From one id forward to the next, around the `u32` range. -/
def distance (prev id : ℕ) : ℕ := if prev ≤ id then id - prev else 4294967296 - (prev - id)

/-- What the capped distances between ids add up to beyond the raise of the highest id. -/
def detour (high prev : ℕ) : List ℕ → ℕ
  | [] => 0
  | id :: ids => min (distance prev id) 1000 - (max high id - high) + detour (max high id) id ids

/-- No id exceeds `high` and the ids before it by more than 1000. -/
def Steady (high : ℕ) : List ℕ → Prop
  | [] => True
  | id :: ids => id ≤ high + 1000 ∧ Steady (max high id) ids

def highest (ids : List ℕ) : ℕ := ids.foldl max 0

def missing (ids : List ℕ) : ℕ := if ids = [] then 0 else (Finset.range (highest ids + 1) \ ids.toFinset).card

private theorem le_foldl (start : ℕ) (ids : List ℕ) : start ≤ ids.foldl max start ∧ ∀ id ∈ ids, id ≤ ids.foldl max start := by
  induction ids generalizing start with
  | nil => exact ⟨Nat.le_refl _, fun _ none => (List.not_mem_nil none).elim⟩
  | cons id ids ih =>
    obtain ⟨above, each⟩ := ih (max start id)
    rw [List.foldl_cons]
    refine ⟨by omega, fun other member => ?_⟩
    rcases List.mem_cons.mp member with rfl | member
    · omega
    · exact each other member

private theorem foldl_mem (start : ℕ) (ids : List ℕ) : ids.foldl max start = start ∨ ids.foldl max start ∈ ids := by
  induction ids generalizing start with
  | nil => exact .inl rfl
  | cons id ids ih =>
    rw [List.foldl_cons]
    rcases ih (max start id) with same | member
    · rw [same]
      rcases Nat.le_total id start with below | above
      · exact .inl (Nat.max_eq_left below)
      · rw [Nat.max_eq_right above]
        exact .inr List.mem_cons_self
    · exact .inr (List.mem_cons_of_mem _ member)

theorem distance_eq (prev id : UInt32) : (id - prev).toNat = distance prev.toNat id.toNat := by
  have first := toNat_lt prev
  have second := toNat_lt id
  rw [UInt32.toNat_sub, distance]
  split <;> omega

/-- The tracker counts every arrival, and expects the raise of the highest id and the detours. -/
theorem foldl_onSource (ids : List UInt32) (tracker : LossTracker) {high : ℕ} (behind : tracker.lastSeen.toNat ≤ high)
    (steady : Steady high (ids.map UInt32.toNat)) :
    (ids.foldl onSource tracker).received = tracker.received + ids.length ∧
      (ids.foldl onSource tracker).expected + high = tracker.expected + (ids.map UInt32.toNat).foldl max high +
        detour high tracker.lastSeen.toNat (ids.map UInt32.toNat) := by
  induction ids generalizing tracker high with
  | nil => exact ⟨rfl, rfl⟩
  | cons id ids ih =>
    obtain ⟨near, steady⟩ := steady
    have ahead : (tracker.onSource id).lastSeen.toNat ≤ max high id.toNat := Nat.le_max_right _ _
    obtain ⟨received, expected⟩ := ih (tracker.onSource id) ahead steady
    have gap := distance_eq tracker.lastSeen id
    have raise : max high id.toNat - high ≤ min (distance tracker.lastSeen.toNat id.toNat) 1000 := by
      unfold distance
      split <;> omega
    have counted : (tracker.onSource id).received = tracker.received + 1 := rfl
    have added : (tracker.onSource id).expected = tracker.expected + min (id - tracker.lastSeen).toNat 1000 := rfl
    have seen : (tracker.onSource id).lastSeen = id := rfl
    rw [added, seen, gap] at expected
    rw [List.foldl_cons, List.map_cons, List.foldl_cons, detour, List.length_cons]
    exact ⟨by omega, by omega⟩

/-- Every id that does not raise the highest one is a detour of at least one. -/
theorem countP_le_detour {high prev : ℕ} {ids : List ℕ} (distinct : (prev :: ids).Nodup)
    (small : ∀ id ∈ prev :: ids, id < 4294967296) : ids.countP (· ≤ high) ≤ detour high prev ids := by
  induction ids generalizing high prev with
  | nil => exact Nat.zero_le _
  | cons id ids ih =>
    obtain ⟨fresh, distinct⟩ := List.nodup_cons.mp distinct
    have later : ids.countP (· ≤ max high id) ≤ detour (max high id) id ids := ih distinct fun other member => small other (List.mem_cons_of_mem _ member)
    have more : ids.countP (· ≤ high) ≤ ids.countP (· ≤ max high id) :=
      List.countP_mono_left fun other _ below => by simp only [decide_eq_true_eq] at *; omega
    have apart : prev ≠ id := fun same => fresh (same ▸ List.mem_cons_self)
    have bounded := small id (List.mem_cons_of_mem _ List.mem_cons_self)
    have bounded' := small prev List.mem_cons_self
    have positive : 1 ≤ distance prev id := by
      unfold distance
      split <;> omega
    rw [List.countP_cons, detour]
    split
    next below =>
      rw [decide_eq_true_eq] at below
      omega
    next => omega

/-- Ascending up to the last id of all, and then the first of all: to the tracker, one more step ahead. -/
def Wraps (ids : List ℕ) : Prop :=
  ids.dropLast.Pairwise (· < ·) ∧ ids.dropLast.getLast? = some 4294967295 ∧ ids.getLast? = some 0

/-- The way to a new highest id is no detour, and the way back from it is one. -/
theorem detour_cons {high id : ℕ} (ids : List ℕ) (near : id ≤ high + 1000) :
    (high < id → detour high high (id :: ids) = detour id id ids) ∧
      (id < high → high < 4294967296 →
        detour high high (id :: ids) = min (4294967296 - (high - id)) 1000 + detour high id ids) := by
  constructor
  · intro up
    rw [detour, distance, if_pos (by omega), Nat.max_eq_right (by omega)]
    omega
  · intro down bounded
    rw [detour, distance, if_neg (by omega), Nat.max_eq_left (by omega)]
    omega

private theorem ascending_cons {high id : ℕ} (ids : List ℕ) (ahead : high < id) :
    (high :: id :: ids).Pairwise (· < ·) ↔ (id :: ids).Pairwise (· < ·) := by
  constructor
  · exact fun ascending => (List.pairwise_cons.mp ascending).2
  · intro ascending
    refine List.pairwise_cons.mpr ⟨fun other member => ?_, ascending⟩
    rcases List.mem_cons.mp member with rfl | member
    · exact ahead
    · exact Nat.lt_trans ahead ((List.pairwise_cons.mp ascending).1 other member)

theorem detour_eq_zero {high : ℕ} {ids : List ℕ} (distinct : (high :: ids).Nodup) (steady : Steady high ids)
    (small : ∀ id ∈ high :: ids, id < 4294967296) : detour high high ids = 0 ↔ (high :: ids).Pairwise (· < ·) := by
  induction ids generalizing high with
  | nil => exact iff_of_true rfl (List.pairwise_singleton _ _)
  | cons id ids ih =>
    obtain ⟨fresh, distinct⟩ := List.nodup_cons.mp distinct
    obtain ⟨near, steady⟩ := steady
    obtain ⟨up, down⟩ := detour_cons ids near
    rcases Nat.lt_trichotomy id high with back | same | ahead
    · rw [down back (small high List.mem_cons_self)]
      have bounded := small high List.mem_cons_self
      refine iff_of_false (by omega) fun ascending => ?_
      have above := (List.pairwise_cons.mp ascending).1 id List.mem_cons_self
      omega
    · exact absurd (same ▸ List.mem_cons_self) fresh
    · rw [Nat.max_eq_right (by omega)] at steady
      rw [up ahead, ascending_cons ids ahead]
      exact ih distinct steady fun other member => small other (List.mem_cons_of_mem _ member)

theorem detour_eq_one {high : ℕ} {ids : List ℕ} (distinct : (high :: ids).Nodup) (steady : Steady high ids)
    (small : ∀ id ∈ high :: ids, id < 4294967296) : detour high high ids = 1 ↔ Wraps (high :: ids) := by
  induction ids generalizing high with
  | nil => exact iff_of_false (by simp [detour]) (by simp [Wraps])
  | cons id ids ih =>
    have bounded := small high List.mem_cons_self
    have rest := fun other member => small other (List.mem_cons_of_mem _ member)
    obtain ⟨fresh, distinct⟩ := List.nodup_cons.mp distinct
    obtain ⟨near, steady⟩ := steady
    obtain ⟨up, down⟩ := detour_cons ids near
    rcases Nat.lt_trichotomy id high with back | same | ahead
    · rw [down back bounded]
      have many : ids.countP (· ≤ high) ≤ detour high id ids := countP_le_detour distinct rest
      cases ids with
      | nil =>
        have none : detour high id [] = 0 := rfl
        have wraps : Wraps [high, id] ↔ high = 4294967295 ∧ id = 0 := by simp [Wraps]
        rw [none, wraps]
        omega
      | cons next ids =>
        have visited : next ≤ high → 1 ≤ (next :: ids).countP (· ≤ high) := fun below => by
          rw [List.countP_cons_of_pos (by simpa using below)]
          omega
        have last := rest next (List.mem_cons_of_mem _ List.mem_cons_self)
        refine iff_of_false (by omega) fun wraps => ?_
        have ascending : (high :: id :: (next :: ids).dropLast).Pairwise (· < ·) := wraps.1
        have above := (List.pairwise_cons.mp ascending).1 id List.mem_cons_self
        omega
    · exact absurd (same ▸ List.mem_cons_self) fresh
    · rw [Nat.max_eq_right (by omega)] at steady
      rw [up ahead, ih distinct steady rest]
      cases ids with
      | nil =>
        have wraps : Wraps [high, id] ↔ high = 4294967295 ∧ id = 0 := by simp [Wraps]
        rw [wraps]
        exact iff_of_false (by simp [Wraps]) (by omega)
      | cons next ids =>
        have longer : (high :: id :: next :: ids).dropLast = high :: id :: (next :: ids).dropLast := rfl
        have shorter : (id :: next :: ids).dropLast = id :: (next :: ids).dropLast := rfl
        simp only [Wraps, longer, shorter, ascending_cons _ ahead, List.getLast?_cons_cons]

theorem missing_add_length {ids : List ℕ} (some : ids ≠ []) (distinct : ids.Nodup) :
    missing ids + ids.length = highest ids + 1 := by
  have within : ids.toFinset ⊆ Finset.range (highest ids + 1) := by
    intro id member
    have below := (le_foldl 0 ids).2 id (List.mem_toFinset.mp member)
    rw [Finset.mem_range, highest]
    omega
  have count := Finset.card_sdiff_add_card_eq_card within
  rw [missing, if_neg some]
  rwa [List.toFinset_card_of_nodup distinct, Finset.card_range] at count

theorem inOrder_iff {ids : List ℕ} (some : ids ≠ []) :
    ids = List.range ids.length ↔ ids.Pairwise (· < ·) ∧ ids.length = highest ids + 1 := by
  have positive := List.length_pos_iff.mpr some
  have distinct (ascending : ids.Pairwise (· < ·)) : ids.Nodup := ascending.imp fun less => Nat.ne_of_lt less
  constructor
  · intro range
    have ascending : ids.Pairwise (· < ·) := range ▸ List.pairwise_lt_range
    have last : ids.length - 1 ∈ ids := by
      rw [range, List.mem_range, List.length_range]
      omega
    have reached := (le_foldl 0 ids).2 _ last
    have below : ids.foldl max 0 < ids.length := by
      rcases foldl_mem 0 ids with zero | member
      · omega
      · exact List.mem_range.mp (range ▸ member)
    rw [highest]
    exact ⟨ascending, by omega⟩
  · rintro ⟨ascending, full⟩
    have within : ids ⊆ List.range ids.length := by
      intro id member
      have below := (le_foldl 0 ids).2 id member
      rw [highest] at full
      rw [List.mem_range]
      omega
    have same := (List.subperm_of_subset (distinct ascending) within).perm_of_length_le (by rw [List.length_range])
    exact same.eq_of_pairwise (fun first second _ _ less more => by omega) ascending List.pairwise_lt_range

theorem le_detour_of_missing {first : ℕ} {rest : List ℕ} (distinct : (first :: rest).Nodup)
    (small : ∀ id ∈ first :: rest, id < 4294967296) (none : missing (first :: rest) = 0) :
    first ≤ detour first first rest := by
  have all : Finset.range (highest (first :: rest) + 1) ⊆ (first :: rest).toFinset := by
    rw [missing, if_neg (List.cons_ne_nil _ _), Finset.card_eq_zero] at none
    exact Finset.sdiff_eq_empty_iff_subset.mp none
  have top := (le_foldl 0 (first :: rest)).2 first List.mem_cons_self
  have inside : List.range first ⊆ rest.filter (· ≤ first) := by
    intro id member
    rw [List.mem_range] at member
    have listed : id ∈ (first :: rest).toFinset := all (by rw [Finset.mem_range, highest]; omega)
    have behind : id ∈ rest := (List.mem_cons.mp (List.mem_toFinset.mp listed)).resolve_left (by omega)
    exact List.mem_filter.mpr ⟨behind, by simp only [decide_eq_true_eq]; omega⟩
  have many := (List.subperm_of_subset List.nodup_range inside).length_le
  rw [List.length_range, ← List.countP_eq_length_filter] at many
  exact Nat.le_trans many (countP_le_detour distinct small)

/-- From a start beyond the cap: later detours that add up to the ids which the cap hides, and one. -/
def MakesUp (ids : List ℕ) : Prop :=
  ∃ first rest, ids = first :: rest ∧ 1000 < first ∧ detour first first rest + 999 = first

theorem steady_of {front rest : List ℕ} (some : front ≠ [])
    (bounded : ∀ earlier id later, front ++ rest = earlier ++ id :: later → earlier ≠ [] → id ≤ highest earlier + 1000) :
    Steady (highest front) rest := by
  induction rest generalizing front with
  | nil => trivial
  | cons id rest ih =>
    have raised : highest (front ++ [id]) = max (highest front) id := by
      rw [highest, List.foldl_append]
      rfl
    refine ⟨bounded front id rest rfl some, ?_⟩
    rw [← raised]
    apply ih (by simp)
    intro earlier next later split
    rw [List.append_assoc] at split
    exact bounded earlier next later split

/-- The estimate of a tracker is the number of missing ids when everything arrives in order from id 0,
and otherwise by coincidence only. -/
theorem estimate_eq_iff {ids : List UInt32} (distinct : (ids.map UInt32.toNat).Nodup)
    (steady : ∀ first rest, ids.map UInt32.toNat = first :: rest → Steady first rest) :
    (ids.foldl onSource {}).expected - (ids.foldl onSource {}).received = missing (ids.map UInt32.toNat) ↔
      ids.map UInt32.toNat = List.range ids.length ∨
        (Wraps (ids.map UInt32.toNat) ∧ ∀ first ∈ ids.head?, first ≤ 1000) ∨ MakesUp (ids.map UInt32.toNat) := by
  cases ids with
  | nil => exact iff_of_true rfl (.inl rfl)
  | cons first rest =>
    have small : ∀ id ∈ first.toNat :: rest.map UInt32.toNat, id < 4294967296 := by
      intro id member
      obtain ⟨word, _, rfl⟩ := List.mem_map.mp (List.map_cons ▸ member)
      exact toNat_lt word
    have steady := steady _ _ rfl
    obtain ⟨received, expected⟩ := foldl_onSource rest (onSource {} first) (Nat.le_refl _) steady
    have top : highest (first.toNat :: rest.map UInt32.toNat) = (rest.map UInt32.toNat).foldl max first.toNat := by
      rw [highest, List.foldl_cons, Nat.zero_max]
    have start : (onSource {} first).expected = min first.toNat 1000 := by
      have gap : (first - 0).toNat = first.toNat := by rw [UInt32.sub_zero]
      rw [← gap]
      exact Nat.zero_add _
    have one : (onSource {} first).received = 1 := rfl
    have seen : (onSource {} first).lastSeen.toNat = first.toNat := rfl
    have count := missing_add_length (List.cons_ne_nil _ _) distinct
    have reached := (le_foldl first.toNat (rest.map UInt32.toNat)).1
    have zero := detour_eq_zero distinct steady small
    have wraps := detour_eq_one distinct steady small
    have full := le_detour_of_missing distinct small
    have inOrder := inOrder_iff (List.cons_ne_nil first.toNat (rest.map UInt32.toNat))
    have ordered (inside : first.toNat :: rest.map UInt32.toNat = List.range (first.toNat :: rest.map UInt32.toNat).length) :
        first.toNat = 0 := by
      rw [List.length_cons, List.range_succ_eq_map] at inside
      exact (List.cons.inj inside).1
    rw [one] at received
    rw [start, seen] at expected
    rw [top] at count inOrder
    rw [List.length_cons, List.length_map] at count
    have makesUp : MakesUp (first.toNat :: rest.map UInt32.toNat) ↔
        1000 < first.toNat ∧ detour first.toNat first.toNat (rest.map UInt32.toNat) + 999 = first.toNat := by
      constructor
      · rintro ⟨_, _, same, beyond, sum⟩
        cases same
        exact ⟨beyond, sum⟩
      · exact fun both => ⟨_, _, rfl, both.1, both.2⟩
    have near : (∀ id ∈ (first :: rest).head?, id ≤ 1000) ↔ first.toNat ≤ 1000 := by
      simp only [List.head?_cons, Option.mem_some_iff, forall_eq', le_iff]
      rfl
    have length : (first :: rest).length = (first.toNat :: rest.map UInt32.toNat).length := by
      rw [List.length_cons, List.length_cons, List.length_map]
    rw [List.map_cons, List.foldl_cons, near, makesUp, length]
    by_cases low : first.toNat ≤ 1000
    · -- the raise of the highest id is counted in full, and the detours come on top
      rw [inOrder, ← zero, ← wraps, List.length_cons, List.length_map]
      clear makesUp near inOrder zero wraps
      omega
    · -- the cap has hidden the ids below the first one
      have never : ¬ first.toNat :: rest.map UInt32.toNat = List.range (first.toNat :: rest.map UInt32.toNat).length := by
        intro inside
        have := ordered inside
        omega
      have far : ¬ (Wraps (first.toNat :: rest.map UInt32.toNat) ∧ first.toNat ≤ 1000) := fun both => low both.2
      rw [iff_false_intro never, iff_false_intro far, false_or, false_or]
      clear makesUp near inOrder zero wraps
      omega

def onArrival (self : LossTracker) (size : ℕ) : Arrival → LossTracker
  | .source packet => if packet.payload.length = size then self.onSource packet.sourceSymbolId else self
  | .coded packet => if packet.payload.length = size then self.onCoded else self

/-- A tracker of the same arrivals and of coded packets between them, which count as received and as expected. -/
structure Ahead (base tracker : LossTracker) : Prop where
  seen : tracker.lastSeen = base.lastSeen
  counts : tracker.received + base.expected = tracker.expected + base.received

theorem Ahead.onSource {base tracker : LossTracker} (ahead : Ahead base tracker) (id : UInt32) :
    Ahead (base.onSource id) (tracker.onSource id) := by
  refine ⟨rfl, ?_⟩
  have counts := ahead.counts
  simp only [LossTracker.onSource, ahead.seen]
  omega

theorem Ahead.onCoded {base tracker : LossTracker} (ahead : Ahead base tracker) : Ahead base tracker.onCoded := by
  refine ⟨ahead.seen, ?_⟩
  have counts := ahead.counts
  simp only [LossTracker.onCoded]
  omega

theorem Ahead.estimate {base tracker : LossTracker} (ahead : Ahead base tracker) :
    tracker.expected - tracker.received = base.expected - base.received := by
  have counts := ahead.counts
  omega

end LossTracker

namespace Decoder
variable {P : Type} [FeedbackPolicy P]

/-- The ids of the source packets of the right size among the arrivals of a run, in the order of arrival. -/
def heard (config : DecoderConfig) (calls : List (Call (Decoder P) Arrival Reply)) : List UInt32 :=
  calls.flatMap fun call => match call.input with
    | .source packet => if packet.payload.length = config.symbolSize then [packet.sourceSymbolId] else []
    | .coded _ => []

omit [FeedbackPolicy P] in
private theorem noted_loss {self : Decoder P} {arrival : Arrival} (sized : arrival.payload.length = self.config.symbolSize) :
    (self.noted arrival).config = self.config ∧
      (self.noted arrival).loss = self.loss.onArrival self.config.symbolSize arrival := by
  cases arrival with
  | source packet | coded packet => exact ⟨rfl, (if_pos sized).symm⟩

theorem handle_loss {before after : Decoder P} {arrival : Arrival} {reply : Reply}
    (handled : before.handle arrival = .ok (after, reply)) :
    after.config = before.config ∧ after.loss = before.loss.onArrival before.config.symbolSize arrival := by
  cases handled_of handled with
  | missized wrong =>
    cases arrival with
    | source packet | coded packet => exact ⟨rfl, (if_neg wrong).symm⟩
  | finished sized added rest =>
    obtain ⟨_, _, _, rfl, _⟩ := finish_ok rest
    exact noted_loss sized
  | failed sized failed => exact noted_loss sized

section Runs
variable {config : DecoderConfig} {policy : P} {calls : List (Call (Decoder P) Arrival Reply)} {final : Decoder P}

theorem run_loss (run : Run handle (new config policy) calls final) :
    final.config = config ∧ LossTracker.Ahead ((heard config calls).foldl LossTracker.onSource {}) final.loss := by
  refine run.preserves
    (fun calls state => state.config = config ∧ LossTracker.Ahead ((heard config calls).foldl LossTracker.onSource {}) state.loss)
    (fun _ => True) ⟨rfl, rfl, rfl⟩ ?_ fun _ _ => trivial
  intro calls state input after output tracked stepped _
  obtain ⟨same, ahead⟩ := tracked
  obtain ⟨kept, loss⟩ := handle_loss stepped
  refine ⟨kept.trans same, ?_⟩
  rw [same] at loss
  rw [heard, List.flatMap_append, List.foldl_append, ← heard, loss, List.flatMap_singleton]
  cases input with
  | source packet =>
    simp only [LossTracker.onArrival]
    split
    · exact ahead.onSource packet.sourceSymbolId
    · exact ahead
  | coded packet =>
    simp only [LossTracker.onArrival]
    split
    · exact ahead.onCoded
    · exact ahead

/-- Of distinct ids, none more than 1000 above those before it, the loss estimate counts the missing ones exactly
when they arrive as 0, 1, 2 and so on. Otherwise it does so by coincidence only: when they ascend to the last id
of all and end with 0, or when they start beyond the cap and the detours make up for it. -/
theorem loss_counted_iff (run : Run handle (new config policy) calls final) (distinct : (heard config calls).Nodup)
    (bounded : ∀ earlier id later, heard config calls = earlier ++ id :: later → earlier ≠ [] →
      id.toNat ≤ LossTracker.highest (earlier.map UInt32.toNat) + 1000) :
    final.loss.expected - final.loss.received = LossTracker.missing ((heard config calls).map UInt32.toNat) ↔
      (heard config calls).map UInt32.toNat = List.range (heard config calls).length ∨
        (LossTracker.Wraps ((heard config calls).map UInt32.toNat) ∧ ∀ first ∈ (heard config calls).head?, first ≤ 1000) ∨
        LossTracker.MakesUp ((heard config calls).map UInt32.toNat) := by
  rw [(run_loss run).2.estimate]
  refine LossTracker.estimate_eq_iff (distinct.map fun _ _ same => UInt32.toNat_inj.mp same) ?_
  intro first rest same
  have alone : LossTracker.highest [first] = first := Nat.zero_max first
  rw [← alone]
  apply LossTracker.steady_of (by simp)
  intro earlier id later split some
  rw [List.singleton_append, ← same] at split
  obtain ⟨front, back, ids, rfl, tail⟩ := List.map_eq_append_iff.mp split
  obtain ⟨word, behind, rfl, rfl, rfl⟩ := List.map_eq_cons_iff.mp tail
  exact bounded front word behind ids fun empty => some (by rw [empty]; rfl)

theorem loss_counted_iff_two : ∃ (calls : List (Call (Decoder ImmediateFeedbackPolicy) Arrival Reply)) (final : _),
    Run handle (new ⟨1, .gf2_8, 512, 16⟩ ImmediateFeedbackPolicy.mk) calls final ∧
      heard ⟨1, .gf2_8, 512, 16⟩ calls = [0, 1] ∧
      final.loss.expected - final.loss.received = LossTracker.missing [0, 1] := by
  obtain ⟨calls, final, run, check⟩ := Run.exists_of_check handle (new ⟨1, .gf2_8, 512, 16⟩ ImmediateFeedbackPolicy.mk)
    [.source (.plain 0 [7]), .source (.plain 1 [8])]
    (fun reached => decide (heard ⟨1, .gf2_8, 512, 16⟩ reached.1 = [0, 1])) (by decide +kernel)
  have ids := of_decide_eq_true check
  have bounded : ∀ earlier id later, heard ⟨1, .gf2_8, 512, 16⟩ calls = earlier ++ id :: later → earlier ≠ [] →
      id.toNat ≤ LossTracker.highest (earlier.map UInt32.toNat) + 1000 := by
    intro earlier id later split _
    have listed : id ∈ heard ⟨1, .gf2_8, 512, 16⟩ calls := split ▸ List.mem_append_right _ List.mem_cons_self
    have small : ∀ id ∈ ([0, 1] : List UInt32), id.toNat ≤ 1000 := by simp
    have below := small id (ids ▸ listed)
    omega
  have counted := (loss_counted_iff run (by rw [ids]; decide) bounded).mpr (.inl (by rw [ids]; rfl))
  rw [ids] at counted
  exact ⟨calls, final, run, ids, counted⟩

/-- Two packets that change places, with nothing lost. -/
theorem loss_counted_fails : ¬ ∀ (calls : List (Call (Decoder ImmediateFeedbackPolicy) Arrival Reply)) (final : _),
    Run handle (new ⟨1, .gf2_8, 512, 16⟩ ImmediateFeedbackPolicy.mk) calls final →
      heard ⟨1, .gf2_8, 512, 16⟩ calls = [1, 0] →
      final.loss.expected - final.loss.received = LossTracker.missing [1, 0] := by
  intro claim
  obtain ⟨calls, final, run, check⟩ := Run.exists_of_check handle (new ⟨1, .gf2_8, 512, 16⟩ ImmediateFeedbackPolicy.mk)
    [.source (.plain 1 [8]), .source (.plain 0 [7])]
    (fun reached => decide (heard ⟨1, .gf2_8, 512, 16⟩ reached.1 = [1, 0] ∧
      reached.2.loss.expected - reached.2.loss.received = 999)) (by decide +kernel)
  obtain ⟨ids, lost⟩ := of_decide_eq_true check
  have none : LossTracker.missing [1, 0] = 0 := by decide
  have counted := claim calls final run ids
  rw [lost, none] at counted
  cases counted

end Runs

end Decoder
end Delp
