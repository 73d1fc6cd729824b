import Mathlib.Data.List.Range
import Mathlib.Data.List.Chain
import Mathlib.Algebra.Ring.Nat

/-! Ascending numbers as runs of consecutive ones, from the start of each to before its end, and
the runs as the steps from one to the next. -/

namespace Runs

def expand (runs : List (ℕ × ℕ)) : List ℕ := runs.flatMap fun run => List.range' run.1 (run.2 - run.1)

/-- The runs of numbers that follow a run from `start` to `last`. -/
def splitFrom (start last : ℕ) : List ℕ → List (ℕ × ℕ)
  | [] => [(start, last + 1)]
  | n :: ns => if n = last + 1 then splitFrom start n ns else (start, last + 1) :: splitFrom n n ns

def steps (reached : ℕ) : List (ℕ × ℕ) → List (ℕ × ℕ)
  | [] => []
  | run :: runs => (run.1 - reached, run.2 - run.1) :: steps run.2 runs

def walk (reached : ℕ) : List (ℕ × ℕ) → List (ℕ × ℕ)
  | [] => []
  | step :: rest => (reached + step.1, reached + step.1 + step.2) :: walk (reached + step.1 + step.2) rest

/-- The first `wanted` numbers of runs behind those already found, and how many runs these take. -/
def gather (wanted : ℕ) (found : List ℕ) : List (ℕ × ℕ) → Option (List ℕ × ℕ)
  | [] => if found.length < wanted then none else some (found.take wanted, 0)
  | run :: runs =>
    if found.length < wanted then
      (gather wanted (found ++ List.range' run.1 (run.2 - run.1)) runs).map fun result => (result.1, result.2 + 1)
    else some (found.take wanted, 0)

@[simp] theorem expand_nil : expand [] = [] := rfl

@[simp] theorem expand_cons (run : ℕ × ℕ) (runs : List (ℕ × ℕ)) :
    expand (run :: runs) = List.range' run.1 (run.2 - run.1) ++ expand runs := List.flatMap_cons

theorem expand_splitFrom {start last : ℕ} (ordered : start ≤ last) (ns : List ℕ) :
    expand (splitFrom start last ns) = List.range' start (last + 1 - start) ++ ns := by
  induction ns generalizing start last with
  | nil => simp [splitFrom]
  | cons n ns ih =>
    rw [splitFrom]
    split
    next next =>
      subst next
      have longer : last + 1 + 1 - start = last + 1 - start + 1 := by omega
      have reaches : start + (last + 1 - start) = last + 1 := by omega
      rw [ih (by omega), longer, List.range'_concat, Nat.one_mul, reaches, List.append_assoc]
      rfl
    next =>
      rw [expand_cons, ih (Nat.le_refl n), Nat.add_sub_cancel_left]
      rfl

def Ordered (reached : ℕ) : List (ℕ × ℕ) → Prop
  | [] => True
  | run :: runs => reached ≤ run.1 ∧ run.1 < run.2 ∧ Ordered run.2 runs

theorem Ordered.of_mem {reached : ℕ} {runs : List (ℕ × ℕ)} (ordered : Ordered reached runs) {run : ℕ × ℕ} (member : run ∈ runs) :
    reached ≤ run.1 ∧ run.1 < run.2 := by
  induction runs generalizing reached with
  | nil => cases member
  | cons front runs ih =>
    obtain ⟨behind, nonempty, rest⟩ := ordered
    rcases List.mem_cons.mp member with rfl | later
    · exact ⟨behind, nonempty⟩
    · obtain ⟨above, some⟩ := ih rest later
      exact ⟨by omega, some⟩

theorem splitFrom_ordered {reached start last : ℕ} (behind : reached ≤ start) (ordered : start ≤ last) {ns : List ℕ}
    (ascending : (last :: ns).IsChain (· < ·)) : Ordered reached (splitFrom start last ns) := by
  induction ns generalizing reached start last with
  | nil => exact ⟨behind, Nat.lt_succ_of_le ordered, trivial⟩
  | cons n ns ih =>
    obtain ⟨less, rest⟩ := List.isChain_cons_cons.mp ascending
    rw [splitFrom]
    split
    · exact ih behind (by omega) rest
    · exact ⟨behind, Nat.lt_succ_of_le ordered, ih less (Nat.le_refl n) rest⟩

theorem of_mem_splitFrom {start last : ℕ} (ordered : start ≤ last) {ns : List ℕ} {run : ℕ × ℕ}
    (member : run ∈ splitFrom start last ns) : run.1 ∈ start :: ns ∧ run.1 < run.2 := by
  induction ns generalizing start last with
  | nil =>
    obtain rfl := List.mem_singleton.mp member
    exact ⟨List.mem_cons_self, Nat.lt_succ_of_le ordered⟩
  | cons n ns ih =>
    rw [splitFrom] at member
    split at member
    · obtain ⟨starts, nonempty⟩ := ih (by omega) member
      exact ⟨List.cons_subset_cons start (List.subset_cons_self n ns) starts, nonempty⟩
    · rcases List.mem_cons.mp member with rfl | later
      · exact ⟨List.mem_cons_self, Nat.lt_succ_of_le ordered⟩
      · obtain ⟨starts, nonempty⟩ := ih (Nat.le_refl n) later
        exact ⟨List.mem_cons_of_mem start starts, nonempty⟩

/-- The gaps between runs are those between the numbers. -/
theorem gaps_lt_iff {reached start last width : ℕ} (positive : 0 < width) {ns : List ℕ} :
    (∀ step ∈ steps reached (splitFrom start last ns), step.1 < width) ↔
      start - reached < width ∧ (last :: ns).IsChain fun a b => b - (a + 1) < width := by
  induction ns generalizing reached start last with
  | nil => simp [splitFrom, steps]
  | cons n ns ih =>
    rw [splitFrom, List.isChain_cons_cons]
    split
    next next =>
      rw [ih, next, Nat.sub_self]
      simp [positive]
    next =>
      rw [steps, List.forall_mem_cons, ih]

theorem steps_lengths (reached : ℕ) (runs : List (ℕ × ℕ)) :
    (steps reached runs).map Prod.snd = runs.map fun run => run.2 - run.1 := by
  induction runs generalizing reached with
  | nil => rfl
  | cons run runs ih => rw [steps, List.map_cons, ih, List.map_cons]

theorem walk_steps {reached : ℕ} {runs : List (ℕ × ℕ)} (ordered : Ordered reached runs) : walk reached (steps reached runs) = runs := by
  induction runs generalizing reached with
  | nil => rfl
  | cons run runs ih =>
    obtain ⟨behind, nonempty, rest⟩ := ordered
    have start : reached + (run.1 - reached) = run.1 := Nat.add_sub_cancel' behind
    have last : run.1 + (run.2 - run.1) = run.2 := Nat.add_sub_cancel' nonempty.le
    rw [steps, walk, start, last, ih rest]

theorem length_expand_walk (reached : ℕ) (moves : List (ℕ × ℕ)) :
    (expand (walk reached moves)).length = (moves.map Prod.snd).sum := by
  induction moves generalizing reached with
  | nil => rfl
  | cons step rest ih =>
    rw [walk, expand_cons, List.length_append, List.length_range', ih, Nat.add_sub_cancel_left, List.map_cons, List.sum_cons]

theorem le_of_mem_expand {runs : List (ℕ × ℕ)} {lower n : ℕ} (above : ∀ run ∈ runs, lower ≤ run.1) (member : n ∈ expand runs) :
    lower ≤ n := by
  obtain ⟨run, listed, inside⟩ := List.mem_flatMap.mp member
  exact (above run listed).trans (List.mem_range'_1.mp inside).1

theorem Ordered.ascending {reached : ℕ} {runs : List (ℕ × ℕ)} (ordered : Ordered reached runs) :
    (expand runs).Pairwise (· < ·) := by
  induction runs generalizing reached with
  | nil => exact .nil
  | cons run runs ih =>
    obtain ⟨_, _, rest⟩ := ordered
    rw [expand_cons]
    refine List.pairwise_append.mpr ⟨List.pairwise_lt_range', ih rest, fun n here m later => ?_⟩
    have below := (List.mem_range'_1.mp here).2
    have above := le_of_mem_expand (fun run member => (rest.of_mem member).1) later
    omega

theorem le_of_mem_walk {reached : ℕ} {moves : List (ℕ × ℕ)} {run : ℕ × ℕ} (member : run ∈ walk reached moves) : reached ≤ run.1 := by
  induction moves generalizing reached with
  | nil => cases member
  | cons step rest ih =>
    rcases List.mem_cons.mp member with rfl | later
    · exact Nat.le_add_right _ _
    · exact le_trans (by omega) (ih later)

@[simp] theorem length_steps (reached : ℕ) (runs : List (ℕ × ℕ)) : (steps reached runs).length = runs.length := by
  induction runs generalizing reached with
  | nil => rfl
  | cons run runs ih => rw [steps, List.length_cons, ih, List.length_cons]

@[simp] theorem length_walk (reached : ℕ) (moves : List (ℕ × ℕ)) : (walk reached moves).length = moves.length := by
  induction moves generalizing reached with
  | nil => rfl
  | cons step rest ih => rw [walk, List.length_cons, ih, List.length_cons]

/-- Steps through runs that are not empty can be told from the numbers. -/
theorem walk_inj (reached : ℕ) {first second : List (ℕ × ℕ)} (lengths : first.map Prod.snd = second.map Prod.snd)
    (positive : ∀ step ∈ first, 0 < step.2) (same : expand (walk reached first) = expand (walk reached second)) :
    first = second := by
  induction first generalizing reached second with
  | nil => exact (List.map_eq_nil_iff.mp lengths.symm).symm
  | cons step rest ih =>
    cases second with
    | nil => cases lengths
    | cons other later =>
      obtain ⟨gap, length⟩ := step
      obtain ⟨gap', length'⟩ := other
      obtain ⟨rfl, others⟩ := List.cons_eq_cons.mp lengths
      have some : 0 < length := positive _ List.mem_cons_self
      simp only [walk, expand_cons, Nat.add_sub_cancel_left] at same
      obtain ⟨here, there⟩ := List.append_inj same (by rw [List.length_range', List.length_range'])
      have gaps : gap = gap' := by
        have heads := congrArg List.head? here
        rw [List.head?_range', List.head?_range', if_neg (by omega), if_neg (by omega)] at heads
        exact Nat.add_left_cancel (Option.some.inj heads)
      subst gaps
      rw [ih _ others (fun step member => positive step (List.mem_cons_of_mem _ member)) there]

theorem gather_enough {wanted : ℕ} {found : List ℕ} (enough : ¬ found.length < wanted) (runs : List (ℕ × ℕ)) :
    gather wanted found runs = some (found.take wanted, 0) := by
  cases runs with
  | nil => exact if_neg enough
  | cons run runs => exact if_neg enough

/-- Gathering yields the first numbers of all. -/
theorem gather_eq_some {wanted used : ℕ} {found ns : List ℕ} {runs : List (ℕ × ℕ)}
    (gathered : gather wanted found runs = some (ns, used)) :
    ns = (found ++ expand runs).take wanted ∧ wanted ≤ (found ++ expand runs).length ∧ used ≤ runs.length := by
  induction runs generalizing found used with
  | nil =>
    rw [gather] at gathered
    split at gathered
    · cases gathered
    next enough =>
      cases gathered
      rw [expand_nil, List.append_nil]
      exact ⟨rfl, Nat.le_of_not_lt enough, Nat.le_refl 0⟩
  | cons run runs ih =>
    rw [gather] at gathered
    split at gathered
    next =>
      obtain ⟨⟨ms, count⟩, later, same⟩ := Option.map_eq_some_iff.mp gathered
      cases same
      have rest := ih later
      rw [List.append_assoc, ← expand_cons] at rest
      exact ⟨rest.1, rest.2.1, Nat.succ_le_succ rest.2.2⟩
    next enough =>
      cases gathered
      have enough := Nat.le_of_not_lt enough
      refine ⟨(List.take_append_of_le_length enough).symm, ?_, Nat.zero_le _⟩
      rw [List.length_append]
      exact Nat.le_add_right_of_le enough

/-- How many runs of these lengths it takes to get a number of numbers. -/
def taken (wanted : ℕ) : List ℕ → ℕ
  | [] => 0
  | length :: lengths => if wanted = 0 then 0 else taken (wanted - length) lengths + 1

theorem taken_zero (lengths : List ℕ) : taken 0 lengths = 0 := by
  cases lengths with
  | nil => rfl
  | cons => rfl

theorem taken_of_gather {wanted used : ℕ} {found ns : List ℕ} {runs : List (ℕ × ℕ)}
    (gathered : gather wanted found runs = some (ns, used)) :
    used = taken (wanted - found.length) (runs.map fun run => run.2 - run.1) := by
  induction runs generalizing found used with
  | nil =>
    rw [gather] at gathered
    split at gathered
    · cases gathered
    · cases gathered
      rfl
  | cons run runs ih =>
    rw [gather] at gathered
    split at gathered
    next missing =>
      obtain ⟨⟨ms, count⟩, later, same⟩ := Option.map_eq_some_iff.mp gathered
      cases same
      rw [List.map_cons, taken, if_neg (by omega), ih later, List.length_append, List.length_range', Nat.sub_add_eq]
    next enough =>
      cases gathered
      rw [Nat.sub_eq_zero_of_le (Nat.le_of_not_lt enough), taken_zero]

theorem walk_lengths (reached : ℕ) (moves : List (ℕ × ℕ)) :
    (walk reached moves).map (fun run => run.2 - run.1) = moves.map Prod.snd := by
  induction moves generalizing reached with
  | nil => rfl
  | cons step rest ih => rw [walk, List.map_cons, ih, List.map_cons, Nat.add_sub_cancel_left]

theorem gather_all {wanted : ℕ} {found : List ℕ} {runs : List (ℕ × ℕ)} (nonempty : ∀ run ∈ runs, run.1 < run.2)
    (total : (found ++ expand runs).length = wanted) : gather wanted found runs = some (found ++ expand runs, runs.length) := by
  induction runs generalizing found with
  | nil =>
    rw [expand_nil, List.append_nil] at total ⊢
    rw [gather, if_neg (by omega), ← total, List.take_length]
    rfl
  | cons run runs ih =>
    have here := nonempty run List.mem_cons_self
    have missing : found.length < wanted := by
      rw [List.length_append, expand_cons, List.length_append, List.length_range'] at total
      omega
    rw [expand_cons, ← List.append_assoc] at total ⊢
    rw [gather, if_pos missing, ih (fun run member => nonempty run (List.mem_cons_of_mem _ member)) total]
    rfl

end Runs
