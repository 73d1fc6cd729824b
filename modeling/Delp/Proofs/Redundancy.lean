import Delp.Codec.Defaults
import Delp.Lib.Remainder
import Delp.Proofs.SourceIds

/-! How many coded packets the submissions of a session emit. -/

namespace Delp
open Config Remainder

def EncoderOutput.isCoded : EncoderOutput → Bool
  | .source _ => false
  | .coded _ => true

def EncoderAction.submitted : EncoderAction → Bytes
  | .submit data => data
  | _ => []

namespace DefaultEncoder
open Encoder

abbrev Reply := Except DelpError (List EncoderOutput)

/-- The coded packets that a successful submission returns; other calls count for nothing. -/
def redundancyBy : EncoderAction → Reply → ℕ
  | .submit _, .ok outputs => outputs.countP EncoderOutput.isCoded
  | _, _ => 0

def redundancy (calls : List (Call DefaultEncoder EncoderAction Reply)) : ℕ :=
  (calls.map fun call => redundancyBy call.input call.output).sum

/-- The rate controller of an encoder, after some submissions and the coded packets they emitted. -/
structure Keeps (config : EncoderConfig) (state : DefaultEncoder) (submissions emitted : ℕ) : Prop where
  numer : state.fec.numer = config.fecNumer
  denom : state.fec.denom = config.fecDenom
  paced : Paced config.fecNumer config.fecDenom submissions emitted state.fec.acc

theorem withDefaults_eq {config : EncoderConfig} {start : DefaultEncoder} (built : withDefaults config = .ok start) :
    start = Encoder.new config {} {} ⟨config.fecNumer, config.fecDenom, 0⟩ ∧ 0 < config.fecDenom := by
  obtain ⟨fec, made, built⟩ := Outcome.bind_eq_ok.mp built
  obtain ⟨_, positive, made⟩ := Outcome.bind_eq_ok.mp made
  cases made
  cases built
  exact ⟨rfl, Outcome.require_eq_ok.mp positive⟩

private theorem generates_fec {state after : DefaultEncoder} {action : EncoderAction} {reply : Reply}
    (generates : action.Generates) (acts : Acts state action reply after) : after.fec = state.fec := by
  cases acts with
  | refused | submitted | fed => exact generates.elim
  | idle => rfl
  | coded _ codes =>
    obtain ⟨next, cc, advanced, rfl⟩ := codes.advanced
    have frame := advanceCodedId_frame advanced
    have fec : next.fec = state.fec := by rw [frame]
    exact fec

theorem Keeps.same {config : EncoderConfig} {state after : DefaultEncoder} {submissions emitted : ℕ}
    (keeps : Keeps config state submissions emitted) (fec : after.fec = state.fec) : Keeps config after submissions emitted :=
  ⟨fec ▸ keeps.numer, fec ▸ keeps.denom, fec ▸ keeps.paced⟩

theorem Keeps.submitted {config : EncoderConfig} {state after : DefaultEncoder} {submissions emitted : ℕ}
    (keeps : Keeps config state submissions emitted) {data : Bytes} {outputs : List EncoderOutput}
    (submitted : state.submitSource data = .ok (after, outputs)) :
    Keeps config after (submissions + 1) (emitted + redundancyBy (.submit data) (.ok outputs)) := by
  obtain ⟨_, pkt, coded, rfl, each, rate⟩ := submitSource_rate submitted
  have counted : (EncoderOutput.source pkt :: coded).countP EncoderOutput.isCoded = coded.length := by
    rw [List.countP_cons_of_neg (by simp [EncoderOutput.isCoded]), List.countP_eq_length]
    intro output member
    obtain ⟨bytes, rfl⟩ := each output member
    rfl
  have length : coded.length = (state.fec.acc + state.fec.numer) / state.fec.denom := congrArg Prod.fst rate
  have fec : after.fec = { state.fec with acc := (state.fec.acc + state.fec.numer) % state.fec.denom } :=
    congrArg Prod.snd rate
  have next := keeps.paced.step
  rw [keeps.numer, keeps.denom] at length fec
  rw [redundancyBy, counted, length]
  exact ⟨fec ▸ keeps.numer, fec ▸ keeps.denom, fec ▸ next⟩

/-- Every call that returns keeps the rate, whether it is a submission or not, refused or not. -/
theorem Keeps.act {config : EncoderConfig} {state after : DefaultEncoder} {submissions emitted : ℕ}
    (keeps : Keeps config state submissions emitted) {action : EncoderAction} {reply : Reply}
    (called : state.act action = .ok (after, reply)) :
    Keeps config after (submissions + (acceptedBy action reply).length) (emitted + redundancyBy action reply) := by
  cases action with
  | submit data =>
    rw [Encoder.act] at called
    split at called
    next next outputs submitted =>
      cases called
      exact keeps.submitted submitted
    next error refusal =>
      cases called
      exact keeps
    · cases called
  | feedback receiverId pkt =>
    obtain ⟨next, handled, called⟩ := Outcome.bind_eq_ok.mp called
    obtain ⟨ackState, _, handled⟩ := Outcome.bind_eq_ok.mp handled
    cases called
    cases handled
    exact keeps.same rfl
  | coded | targeted | recent | forReceiver =>
    refine keeps.same (generates_fec ?_ (act_ok called))
    trivial

theorem run_keeps {config : EncoderConfig} {start final : DefaultEncoder} (built : withDefaults config = .ok start)
    {calls : List (Call DefaultEncoder EncoderAction Reply)} (run : Run act start calls final) :
    Keeps config final (accepted calls).length (redundancy calls) := by
  obtain ⟨rfl, positive⟩ := withDefaults_eq built
  refine run.preserves (fun calls state => Keeps config state (accepted calls).length (redundancy calls)) (fun _ => True)
    ⟨rfl, rfl, .start positive⟩ ?_ fun _ _ => trivial
  intro calls state input after output keeps stepped _
  have next := keeps.act stepped
  rw [accepted_append, List.length_append, redundancy, List.map_append, List.sum_append]
  exact next

/-- A refused call is a submission of the wrong size or to a full window, and leaves the accumulator. -/
theorem refused {state after : DefaultEncoder} {action : EncoderAction} {error : DelpError}
    (called : state.act action = .ok (after, .error error)) :
    (error = .symbolSizeMismatch state.config.symbolSize action.submitted.length ∨
      error = .windowFull state.config.windowCapacity) ∧ after.fec = state.fec := by
  have acts := act_ok called
  cases acts with
  | refused refusal => exact ⟨submitSource_err refusal, rfl⟩

/-- After any session the submissions have emitted `numer` coded packets for every `denom` symbols
accepted, rounded down. Their running sum has stayed a `usize`, and refused ones have not moved it. -/
theorem redundancy_exact {config : EncoderConfig} (addressable : config.fecNumer + config.fecDenom - 1 < 2 ^ 64)
    {start final : DefaultEncoder} (built : withDefaults config = .ok start)
    {calls : List (Call DefaultEncoder EncoderAction Reply)} (run : Run act start calls final) :
    redundancy calls = (accepted calls).length * config.fecNumer / config.fecDenom ∧
      ∀ call ∈ calls, call.before.fec.acc + call.before.fec.numer < 2 ^ 64 ∧
        ∀ error, call.output = .error error →
          (error = .symbolSizeMismatch call.before.config.symbolSize call.input.submitted.length ∨
            error = .windowFull call.before.config.windowCapacity) ∧ call.after.fec = call.before.fec := by
  refine ⟨(run_keeps built run).paced.emitted_eq, fun call member => ?_⟩
  obtain ⟨earlier, shorter, _, stepped⟩ := run.at_call member
  have keeps := run_keeps built shorter
  have small := keeps.paced.small
  have numer := keeps.numer
  refine ⟨by omega, fun error same => ?_⟩
  rw [same] at stepped
  exact refused stepped

/-- Two packets in three, over a window of two that refuses a third symbol. -/
def twoInThree : EncoderConfig := ⟨1, 2, .gf2_8, 2, 3, .reject, .vandermonde⟩

theorem redundancy_exact_rejections :
    ∃ (start final : DefaultEncoder) (calls : List (Call DefaultEncoder EncoderAction Reply)),
      withDefaults twoInThree = .ok start ∧ Run act start calls final ∧
        calls.map (·.input) = [.submit [1], .submit [2, 3], .coded, .submit [4], .submit [5]] ∧ redundancy calls = 1 := by
  have built : withDefaults twoInThree = .ok (Encoder.new twoInThree {} {} ⟨2, 3, 0⟩) := rfl
  obtain ⟨calls, final, run, check⟩ := Run.exists_of_check act (Encoder.new twoInThree {} {} ⟨2, 3, 0⟩ : DefaultEncoder)
    [.submit [1], .submit [2, 3], .coded, .submit [4], .submit [5]]
    (fun result => decide (result.1.map (·.input) = [.submit [1], .submit [2, 3], .coded, .submit [4], .submit [5]] ∧
      (accepted result.1).length = 2)) (by decide +kernel)
  obtain ⟨inputs, count⟩ := of_decide_eq_true check
  refine ⟨_, final, calls, built, run, inputs, ?_⟩
  rw [(redundancy_exact (by decide) built run).1, count]
  rfl

end DefaultEncoder
end Delp
