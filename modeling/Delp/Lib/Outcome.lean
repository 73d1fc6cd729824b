import Mathlib.Data.List.Basic
import Mathlib.Data.List.Forall2
import Mathlib.Tactic.Common

/-! Computations that return a value, fail with a reported error, or panic.
The three endings stay apart, so that "never panics" and "never fails" are
different statements about the same definition. -/

universe u v w

/-- What stopped a computation that neither returned nor reported an error.
`diverged` marks a loop that ran past the bound its model was given. -/
inductive Panic where
  | overflow
  | bounds
  | assertion
  | unwrap
  | diverged
deriving DecidableEq, Repr

inductive Outcome (ε : Type u) (α : Type v) where
  | ok (value : α)
  | err (error : ε)
  | panic (reason : Panic)
deriving DecidableEq, Repr

namespace Outcome
variable {ε : Type u} {α : Type v} {β : Type v} {σ : Type v}

@[inline] def bind (first : Outcome ε α) (next : α → Outcome ε β) : Outcome ε β :=
  match first with
  | ok value => next value
  | err error => err error
  | panic reason => panic reason

instance : Monad (Outcome ε) where
  pure := ok
  bind := bind

@[simp] theorem pure_def (value : α) : (pure value : Outcome ε α) = ok value := rfl

@[simp] theorem ok_bind (value : α) (next : α → Outcome ε β) : (ok value >>= next) = next value := rfl

@[simp] theorem err_bind (error : ε) (next : α → Outcome ε β) : (err error >>= next) = err error := rfl

@[simp] theorem panic_bind (reason : Panic) (next : α → Outcome ε β) :
    (panic reason >>= next) = panic reason := rfl

instance : LawfulMonad (Outcome ε) :=
  LawfulMonad.mk' (Outcome ε) (fun first => by cases first <;> rfl) (fun _ _ => rfl)
    (fun first _ _ => by cases first <;> rfl)

/-- A sequence returns exactly when both of its halves do. -/
theorem bind_eq_ok {first : Outcome ε α} {next : α → Outcome ε β} {result : β} :
    (first >>= next) = ok result ↔ ∃ value, first = ok value ∧ next value = ok result := by
  cases first <;> simp

theorem bind_congr {first : Outcome ε α} {next other : α → Outcome ε β} (same : ∀ value, first = ok value → next value = other value) :
    (first >>= next) = (first >>= other) := by
  cases first with
  | ok value => exact same value rfl
  | err | panic => rfl

theorem bind_eq_err {first : Outcome ε α} {next : α → Outcome ε β} {error : ε} :
    (first >>= next) = err error ↔
      first = err error ∨ ∃ value, first = ok value ∧ next value = err error := by
  cases first <;> simp

/-- The computation ends with a value or a reported error. -/
def Returns (outcome : Outcome ε α) : Prop := ∀ reason, outcome ≠ panic reason

instance : DecidablePred (Returns : Outcome ε α → Prop) := fun outcome =>
  match outcome with
  | ok _ => isTrue (fun _ impossible => by cases impossible)
  | err _ => isTrue (fun _ impossible => by cases impossible)
  | panic reason => isFalse (fun returns => returns reason rfl)

@[simp] theorem returns_ok (value : α) : Returns (ok value : Outcome ε α) := by
  intro reason impossible
  cases impossible

@[simp] theorem returns_err (error : ε) : Returns (err error : Outcome ε α) := by
  intro reason impossible
  cases impossible

@[simp] theorem not_returns_panic (reason : Panic) : ¬ Returns (panic reason : Outcome ε α) :=
  fun returns => returns reason rfl

theorem not_returns {outcome : Outcome ε α} : ¬ Returns outcome ↔ ∃ reason, outcome = panic reason := by
  simp [Returns]

theorem returns_bind {first : Outcome ε α} {next : α → Outcome ε β} :
    Returns (first >>= next) ↔ Returns first ∧ ∀ value, first = ok value → Returns (next value) := by
  cases first <;> simp

/-- The computation returns a value or panics. -/
def NoError (outcome : Outcome ε α) : Prop := ∀ error, outcome ≠ err error

@[simp] theorem noError_ok (value : α) : NoError (ok value : Outcome ε α) := by
  intro error impossible
  cases impossible

@[simp] theorem noError_panic (reason : Panic) : NoError (panic reason : Outcome ε α) := by
  intro error impossible
  cases impossible

theorem noError_bind {first : Outcome ε α} {next : α → Outcome ε β} (quiet : NoError first)
    (later : ∀ value, first = ok value → NoError (next value)) : NoError (first >>= next) := by
  cases first with
  | ok value => exact later value rfl
  | err error => exact absurd rfl (quiet error)
  | panic reason => exact noError_panic reason

/-- Continue when a condition holds and panic otherwise. -/
def require (condition : Prop) [Decidable condition] (reason : Panic) : Outcome ε PUnit.{v + 1} :=
  if condition then ok ⟨⟩ else panic reason

@[simp] theorem require_eq_ok {condition : Prop} [Decidable condition] {reason : Panic} {value : PUnit.{v + 1}} :
    (require condition reason : Outcome ε PUnit.{v + 1}) = ok value ↔ condition := by
  unfold require
  split <;> simp_all

theorem require_of {condition : Prop} [Decidable condition] (holds : condition) (reason : Panic) :
    (require condition reason : Outcome ε PUnit.{v + 1}) = ok ⟨⟩ := if_pos holds

@[simp] theorem returns_require {condition : Prop} [Decidable condition] {reason : Panic} :
    Returns (require condition reason : Outcome ε PUnit.{v + 1}) ↔ condition := by
  unfold require
  split <;> simp_all

theorem guarded_eq_ok {condition : Prop} [Decidable condition] {reason : Panic} {value result : α} :
    (if condition then ok value else panic reason : Outcome ε α) = ok result ↔ condition ∧ result = value := by
  split <;> simp_all [eq_comm]

theorem returns_guarded {condition : Prop} [Decidable condition] {reason : Panic} {value : α} :
    Returns (if condition then ok value else panic reason : Outcome ε α) ↔ condition := by
  split <;> simp_all

/-- Unwrap an optional value, as an index or an `expect` does. -/
def get (reason : Panic) : Option α → Outcome ε α
  | some value => ok value
  | none => panic reason

@[simp] theorem get_eq_ok {reason : Panic} {found : Option α} {value : α} :
    (get reason found : Outcome ε α) = ok value ↔ found = some value := by
  cases found <;> simp [get]

@[simp] theorem get_some (reason : Panic) (value : α) : (get reason (some value) : Outcome ε α) = ok value := rfl

@[simp] theorem returns_get {reason : Panic} {found : Option α} :
    Returns (get reason found : Outcome ε α) ↔ found.isSome := by
  cases found <;> simp [get]

def passes (check : α → Bool) : Outcome ε α → Bool
  | ok value => check value
  | _ => false

theorem passes_iff {check : α → Bool} {outcome : Outcome ε α} :
    outcome.passes check = true ↔ ∃ value, outcome = ok value ∧ check value = true := by
  cases outcome <;> simp [passes]

@[simp] theorem noError_require {condition : Prop} [Decidable condition] {reason : Panic} :
    NoError (require condition reason : Outcome ε PUnit.{v + 1}) := by
  unfold require
  split <;> simp

@[simp] theorem noError_guarded {condition : Prop} [Decidable condition] {reason : Panic} {value : α} :
    NoError (if condition then ok value else panic reason : Outcome ε α) := by
  split <;> simp

@[simp] theorem noError_get {reason : Panic} {found : Option α} : NoError (get reason found : Outcome ε α) := by
  cases found <;> simp [get]

section Loops
variable {ι : Type w} {step : σ → ι → Outcome ε σ}

@[simp] theorem foldlM_nil (state : σ) : List.foldlM step state [] = ok state := rfl

@[simp] theorem foldlM_cons (state : σ) (item : ι) (items : List ι) :
    List.foldlM step state (item :: items) = step state item >>= fun next => List.foldlM step next items := rfl

/-- What every iteration of a loop that returns preserves, its result satisfies.
The invariant may mention the items already visited. -/
theorem foldlM_preserves (items : List ι) (invariant : List ι → σ → Prop)
    (preserved : ∀ visited item rest state next, visited ++ item :: rest = items →
      invariant visited state → step state item = ok next → invariant (visited ++ [item]) next)
    (initial final : σ) (start : invariant [] initial) (returned : items.foldlM step initial = ok final) :
    invariant items final := by
  suffices loop : ∀ rest visited state, visited ++ rest = items → invariant visited state →
      rest.foldlM step state = ok final → invariant items final from
    loop items [] initial rfl start returned
  intro rest
  induction rest with
  | nil =>
    intro visited state split kept finished
    rw [List.append_nil] at split
    subst split
    cases finished
    exact kept
  | cons item rest ih =>
    intro visited state split kept finished
    obtain ⟨next, stepped, finished⟩ := bind_eq_ok.mp finished
    exact ih (visited ++ [item]) next (by simpa using split)
      (preserved visited item rest state next split kept stepped) finished

/-- A loop whose every iteration returns and keeps the invariant returns. -/
theorem foldlM_returns (step : σ → ι → Outcome ε σ) (items : List ι) (invariant : List ι → σ → Prop)
    (advances : ∀ visited item rest state, visited ++ item :: rest = items → invariant visited state →
      ∃ next, step state item = ok next ∧ invariant (visited ++ [item]) next)
    (initial : σ) (start : invariant [] initial) :
    ∃ final, items.foldlM step initial = ok final ∧ invariant items final := by
  suffices loop : ∀ rest visited state, visited ++ rest = items → invariant visited state →
      ∃ final, rest.foldlM step state = ok final ∧ invariant items final from
    loop items [] initial rfl start
  intro rest
  induction rest with
  | nil =>
    intro visited state split kept
    rw [List.append_nil] at split
    exact ⟨state, rfl, split ▸ kept⟩
  | cons item rest ih =>
    intro visited state split kept
    obtain ⟨next, stepped, kept⟩ := advances visited item rest state split kept
    obtain ⟨final, finished, kept⟩ := ih (visited ++ [item]) next (by simpa using split) kept
    exact ⟨final, by rw [foldlM_cons, stepped, ok_bind, finished], kept⟩

theorem foldlM_noError (quiet : ∀ state item, NoError (step state item)) (items : List ι) (initial : σ) :
    NoError (items.foldlM step initial) := by
  induction items generalizing initial with
  | nil => exact noError_ok initial
  | cons item rest ih => exact noError_bind (quiet initial item) fun next _ => ih next

theorem mapM_congr {f g : α → Outcome ε β} {items : List α} (same : ∀ item ∈ items, f item = g item) :
    items.mapM f = items.mapM g := by
  induction items with
  | nil => rfl
  | cons item rest ih =>
    rw [List.mapM_cons, List.mapM_cons, same item List.mem_cons_self, ih fun other member => same other (List.mem_cons_of_mem _ member)]

theorem mapM_noError {f : α → Outcome ε β} (quiet : ∀ item, NoError (f item)) (items : List α) : NoError (items.mapM f) := by
  induction items with
  | nil => exact noError_ok _
  | cons item rest ih =>
    rw [List.mapM_cons]
    exact noError_bind (quiet item) fun _ _ => noError_bind ih fun _ _ => noError_ok _

theorem mapM_of {f : α → Outcome ε β} {g : α → β} {items : List α} (each : ∀ item ∈ items, f item = ok (g item)) :
    items.mapM f = ok (items.map g) := by
  induction items with
  | nil => rfl
  | cons item rest ih =>
    rw [List.mapM_cons, each item List.mem_cons_self, ok_bind, ih fun other member => each other (List.mem_cons_of_mem _ member)]
    rfl

theorem mapM_eq_ok {f : α → Outcome ε β} {items : List α} {results : List β} :
    items.mapM f = ok results ↔ List.Forall₂ (fun item result => f item = ok result) items results := by
  induction items generalizing results with
  | nil => simp [eq_comm]
  | cons item rest ih =>
    rw [List.mapM_cons, bind_eq_ok, List.forall₂_cons_left_iff]
    refine exists_congr fun value => ?_
    rw [bind_eq_ok, exists_and_left]
    refine and_congr_right fun _ => exists_congr fun values => and_congr ih ?_
    rw [pure_def, ok.injEq, eq_comm]

theorem length_mapM {f : α → Outcome ε β} {items : List α} {results : List β} (returned : items.mapM f = ok results) :
    results.length = items.length :=
  (mapM_eq_ok.mp returned).length_eq.symm

theorem mem_of_mapM {f : α → Outcome ε β} {items : List α} {results : List β} (returned : items.mapM f = ok results)
    {result : β} (member : result ∈ results) : ∃ item ∈ items, f item = ok result := by
  induction mapM_eq_ok.mp returned with
  | nil => cases member
  | cons here rest ih =>
    rcases List.mem_cons.mp member with rfl | later
    · exact ⟨_, List.mem_cons_self, here⟩
    · obtain ⟨item, inside, same⟩ := ih (mapM_eq_ok.mpr rest) later
      exact ⟨item, List.mem_cons_of_mem _ inside, same⟩

theorem ok_of_mapM {f : α → Outcome ε β} {items : List α} {results : List β} (returned : items.mapM f = ok results)
    {item : α} (member : item ∈ items) : ∃ result ∈ results, f item = ok result := by
  induction mapM_eq_ok.mp returned with
  | nil => cases member
  | cons here rest ih =>
    rcases List.mem_cons.mp member with rfl | later
    · exact ⟨_, List.mem_cons_self, here⟩
    · obtain ⟨result, inside, same⟩ := ih (mapM_eq_ok.mpr rest) later
      exact ⟨result, List.mem_cons_of_mem _ inside, same⟩

theorem returns_mapM {f : α → Outcome ε β} {items : List α} (quiet : ∀ item ∈ items, NoError (f item)) :
    Returns (items.mapM f) ↔ ∀ item ∈ items, Returns (f item) := by
  induction items with
  | nil => simp
  | cons item rest ih =>
    have later := ih fun other member => quiet other (List.mem_cons_of_mem _ member)
    rw [List.mapM_cons, returns_bind]
    simp only [returns_bind, later, List.mem_cons, forall_eq_or_imp, pure_def, returns_ok, implies_true, and_true]
    refine and_congr_right fun first => ?_
    cases ended : f item with
    | ok value => exact ⟨fun each => each value rfl, fun each _ _ => each⟩
    | err error => exact absurd ended (quiet item List.mem_cons_self error)
    | panic reason => exact absurd ended (first reason)

end Loops
end Outcome
