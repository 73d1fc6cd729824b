import Delp.Lib.Outcome

/-! Runs of a machine whose step consumes an input and either returns an output
with the next state, or ends the run. -/

universe u

/-- One completed step, with the states on both sides of it. -/
structure Call (σ : Type u) (α ω : Type) where
  before : σ
  input : α
  after : σ
  output : ω

/-- The runs from an initial state, by the calls completed so far, oldest first. -/
inductive Run {σ : Type u} {ε α ω : Type} (step : σ → α → Outcome ε (σ × ω)) (initial : σ) :
    List (Call σ α ω) → σ → Prop
  | start : Run step initial [] initial
  | call {calls : List (Call σ α ω)} {state after : σ} {input : α} {output : ω}
      (earlier : Run step initial calls state) (stepped : step state input = .ok (after, output)) :
      Run step initial (calls ++ [⟨state, input, after, output⟩]) after

namespace Run
variable {σ : Type u} {ε α ω : Type} {step : σ → α → Outcome ε (σ × ω)} {initial final : σ}
  {calls : List (Call σ α ω)}

/-- What every permitted step preserves holds in every state that permitted steps reach.
The invariant may mention the calls completed so far. -/
theorem preserves (invariant : List (Call σ α ω) → σ → Prop) (allowed : Call σ α ω → Prop)
    (start : invariant [] initial)
    (preserved : ∀ calls state input after output, invariant calls state →
      step state input = .ok (after, output) → allowed ⟨state, input, after, output⟩ →
      invariant (calls ++ [⟨state, input, after, output⟩]) after)
    (run : Run step initial calls final) (permitted : ∀ call ∈ calls, allowed call) :
    invariant calls final := by
  induction run with
  | start => exact start
  | call _ stepped ih =>
    exact preserved _ _ _ _ _ (ih fun call member => permitted call (List.mem_append_left _ member)) stepped
      (permitted _ (List.mem_append_right _ (List.mem_singleton.mpr rfl)))

/-- The state before each call of a run is the last state of a shorter run. -/
theorem at_call (run : Run step initial calls final) {call : Call σ α ω} (member : call ∈ calls) :
    ∃ earlier, Run step initial earlier call.before ∧ (earlier ++ [call]) <+: calls ∧
      step call.before call.input = .ok (call.after, call.output) := by
  induction run with
  | start => cases member
  | @call calls _ _ _ _ earlier stepped ih =>
    rcases List.mem_append.mp member with member | member
    · obtain ⟨shorter, run, shorterPrefix, stepped⟩ := ih member
      exact ⟨shorter, run, shorterPrefix.trans (List.prefix_append _ _), stepped⟩
    · cases List.mem_singleton.mp member
      exact ⟨calls, earlier, List.prefix_rfl, stepped⟩

/-- Every prefix of a run is a run, up to the state before its last call. -/
theorem at_prefix (run : Run step initial calls final) {earlier : List (Call σ α ω)} {call : Call σ α ω}
    (inside : earlier ++ [call] <+: calls) :
    Run step initial earlier call.before ∧ step call.before call.input = .ok (call.after, call.output) := by
  induction run with
  | start => exact absurd (List.prefix_nil.mp inside) (by simp)
  | call before stepped ih =>
    rcases List.prefix_concat_iff.mp inside with same | inside
    · obtain ⟨rfl, rfl⟩ := List.append_singleton_inj.mp same
      exact ⟨before, stepped⟩
    · exact ih inside

theorem append {middle : σ} {later : List (Call σ α ω)} (run : Run step initial calls middle) (rest : Run step middle later final) :
    Run step initial (calls ++ later) final := by
  induction rest with
  | start => rwa [List.append_nil]
  | call _ stepped ih =>
    rw [← List.append_assoc]
    exact .call ih stepped

theorem always (invariant : σ → Prop) (start : invariant initial)
    (preserved : ∀ state input after output, invariant state →
      step state input = .ok (after, output) → invariant after)
    (run : Run step initial calls final) : invariant final :=
  run.preserves (fun _ => invariant) (fun _ => True) start
    (fun _ state input after output kept stepped _ => preserved state input after output kept stepped)
    (fun _ _ => trivial)

/-- A step of a component that is one of its calls, or leaves it alone when it is none. -/
def Moves {τ : Type u} {ε' β ρ : Type} (step' : τ → β → Outcome ε' (τ × ρ)) (before after : τ) : Option (Call τ β ρ) → Prop
  | none => after = before
  | some own => own.before = before ∧ own.after = after ∧ step' own.before own.input = .ok (own.after, own.output)

/-- What a run does to one component of its states is a run of that component, when every step is a step of
the component or leaves it alone. -/
theorem project {τ : Type u} {ε' β ρ : Type} {step' : τ → β → Outcome ε' (τ × ρ)} (component : σ → τ)
    (part : Call σ α ω → Option (Call τ β ρ))
    (moves : ∀ state input after output, step state input = .ok (after, output) →
      Moves step' (component state) (component after) (part ⟨state, input, after, output⟩))
    (run : Run step initial calls final) : Run step' (component initial) (calls.filterMap part) (component final) := by
  induction run with
  | start => exact .start
  | @call calls state after input output _ stepped ih =>
    have moved := moves state input after output stepped
    rw [List.filterMap_append]
    cases found : part ⟨state, input, after, output⟩ with
    | none =>
      rw [found] at moved
      rw [List.filterMap_cons_none found, List.filterMap_nil, List.append_nil, show component after = component state from moved]
      exact ih
    | some own =>
      rw [found] at moved
      obtain ⟨before, ownInput, next, ownOutput⟩ := own
      obtain ⟨same, last, stepped⟩ := moved
      dsimp only at same last stepped
      subst same last
      rw [List.filterMap_cons_some found]
      exact .call ih stepped

/-- Execute a list of inputs, and collect the calls. -/
def execute (step : σ → α → Outcome ε (σ × ω)) (state : σ) : List α → Outcome ε (List (Call σ α ω) × σ)
  | [] => .ok ([], state)
  | input :: inputs => do
    let (after, output) ← step state input
    let (calls, final) ← execute step after inputs
    pure (⟨state, input, after, output⟩ :: calls, final)

private theorem cons {first : Call σ α ω} (stepped : step initial first.input = .ok (first.after, first.output))
    (before : first.before = initial) (run : Run step first.after calls final) :
    Run step initial (first :: calls) final := by
  subst before
  induction run with
  | start => exact .call .start stepped
  | call _ later ih => exact .call ih later

theorem of_execute {inputs : List α} (executed : execute step initial inputs = .ok (calls, final)) :
    Run step initial calls final := by
  induction inputs generalizing initial calls with
  | nil =>
    cases executed
    exact .start
  | cons input inputs ih =>
    obtain ⟨⟨after, output⟩, stepped, executed⟩ := Outcome.bind_eq_ok.mp executed
    obtain ⟨⟨later, final⟩, executed, same⟩ := Outcome.bind_eq_ok.mp executed
    cases same
    exact cons stepped rfl (ih executed)

/-- A check of a concrete execution finds a run that passes it. -/
theorem exists_of_check (step : σ → α → Outcome ε (σ × ω)) (initial : σ) (inputs : List α)
    (check : List (Call σ α ω) × σ → Bool)
    (passed : (execute step initial inputs).passes check = true) :
    ∃ calls final, Run step initial calls final ∧ check (calls, final) = true := by
  obtain ⟨⟨calls, final⟩, executed, passed⟩ := Outcome.passes_iff.mp passed
  exact ⟨calls, final, of_execute executed, passed⟩

end Run
