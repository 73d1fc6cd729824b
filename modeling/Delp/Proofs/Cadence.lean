import Delp.Codec.Defaults
import Delp.Lib.Remainder
import Delp.Proofs.DecoderShape

/-! How often a decoder sends feedback. -/

namespace Delp
open Machine Remainder

def DecoderEvent.isFeedback : DecoderEvent → Bool
  | .sendFeedback _ => true
  | .sourceReady _ _ => false
  | .unrecoverableGap _ _ => false

namespace Decoder

section Policies
variable {P : Type} [FeedbackPolicy P]

/-- The policy is asked once, and its answer tells whether one feedback packet is sent or none. -/
def Consults (before : P) (events : List DecoderEvent) (after : P) : Prop :=
  ∃ state send, FeedbackPolicy.shouldSendFeedback before state = (send, after) ∧
    events.countP DecoderEvent.isFeedback = send.toNat

private theorem maybeSendFeedback_consults {self after : Decoder P} {feedback : List DecoderEvent}
    (sent : self.maybeSendFeedback = .ok (after, feedback)) : Consults self.feedbackPolicy feedback after.feedbackPolicy := by
  obtain ⟨state, _, sent⟩ := Outcome.bind_eq_ok.mp sent
  cases asked : FeedbackPolicy.shouldSendFeedback self.feedbackPolicy state with
  | mk send policy =>
    simp only [asked] at sent
    cases send with
    | true =>
      obtain ⟨nbMissing, _, sent⟩ := Outcome.bind_eq_ok.mp sent
      obtain ⟨pkt, _, sent⟩ := Outcome.bind_eq_ok.mp sent
      cases sent
      exact ⟨state, true, asked, rfl⟩
    | false =>
      cases sent
      exact ⟨state, false, asked, rfl⟩

private theorem finish_consults {self after : Decoder P} {gained : List (SourceSymbolId × Bytes)} {events : List DecoderEvent}
    (finished : self.finish gained = .ok (after, .ok events)) : Consults self.feedbackPolicy events after.feedbackPolicy := by
  simp only [finish, foldl_absorbRecovered, drainToEvents] at finished
  obtain ⟨⟨sender, feedback⟩, sent, finished⟩ := Outcome.bind_eq_ok.mp finished
  obtain ⟨state, send, asked, count⟩ := maybeSendFeedback_consults sent
  -- neither deliveries nor gaps are feedback
  have ready (delivered : List (SourceSymbolId × Bytes)) :
      (delivered.map fun symbol => DecoderEvent.sourceReady symbol.1 symbol.2).countP DecoderEvent.isFeedback = 0 := by
    rw [List.countP_map, List.countP_eq_zero]
    intro symbol _
    exact Bool.false_ne_true
  simp only [checkGap] at finished
  split at finished
  next =>
    cases finished
    refine ⟨state, send, asked, ?_⟩
    rw [List.countP_append, List.countP_append, ready, count]
    exact Nat.zero_add _
  next =>
    cases finished
    refine ⟨state, send, asked, ?_⟩
    rw [List.countP_append, List.countP_append, ready, count]
    exact Nat.zero_add _

omit [FeedbackPolicy P] in
private theorem noted_policy (self : Decoder P) (arrival : Arrival) :
    (self.noted arrival).feedbackPolicy = self.feedbackPolicy := by
  cases arrival <;> rfl

theorem handle_consults {before after : Decoder P} {arrival : Arrival} {events : List DecoderEvent}
    (handled : before.handle arrival = .ok (after, .ok events)) :
    Consults before.feedbackPolicy events after.feedbackPolicy := by
  cases handled_of handled with
  | finished _ _ rest =>
    have consults := finish_consults rest
    rwa [← noted_policy before arrival]

theorem handle_refused {before after : Decoder P} {arrival : Arrival} {error : DelpError}
    (handled : before.handle arrival = .ok (after, .error error)) : after.feedbackPolicy = before.feedbackPolicy := by
  cases handled_of handled with
  | missized => rfl
  | finished _ _ rest =>
    obtain ⟨_, _, _, _, replied⟩ := finish_ok rest
    cases replied
  | failed => exact noted_policy before arrival

/-- Errors are replies: the call itself ends in a reply or a panic. -/
theorem handle_noError (before : Decoder P) (arrival : Arrival) : (before.handle arrival).NoError := by
  have count (self : Decoder P) : self.countMissing.NoError := by
    unfold countMissing
    dsimp only
    split
    · exact Outcome.noError_ok _
    · exact Outcome.noError_bind noError_addU32 fun _ _ => Outcome.noError_ok _
  have send (self : Decoder P) : self.maybeSendFeedback.NoError := by
    refine Outcome.noError_bind (Outcome.noError_bind (count self) fun _ _ => Outcome.noError_ok _) fun state _ => ?_
    dsimp only
    split
    · refine Outcome.noError_bind (count _) fun nbMissing _ => ?_
      obtain ⟨pkt, built⟩ := FeedbackPacket.build_returns self.buffer.nextDeliveryId nbMissing
        (UInt32.ofNat self.matrix.rowCount) self.loss.lossRate
        ((self.buffer.idsFrom self.buffer.nextDeliveryId).take 256)
      rw [built]
      exact Outcome.noError_ok _
    · exact Outcome.noError_ok _
  have finish (self : Decoder P) (gained : List (SourceSymbolId × Bytes)) : (self.finish gained).NoError :=
    Outcome.noError_bind (send _) fun _ _ => Outcome.noError_ok _
  rw [handle_eq]
  split
  · exact Outcome.noError_ok _
  · cases before.offered arrival with
    | ok result => exact finish _ result.2
    | err error => exact Outcome.noError_ok _
    | panic reason => exact Outcome.noError_panic reason

theorem handle_source_accepts {config : DecoderConfig} {before : Decoder P} (shaped : before.Shaped config)
    {packet : SourcePacket} (sized : packet.payload.length = config.symbolSize) (fits : before.Survives (.source packet)) :
    ∃ after events, before.handle (.source packet) = .ok (after, .ok events) := by
  have complete : Arrival.Complete (.source packet) := trivial
  have returns := handle_returns shaped complete fits
  cases handled : before.handle (.source packet) with
  | panic reason => exact absurd handled (returns reason)
  | err error => exact absurd handled (handle_noError before _ error)
  | ok result =>
    obtain ⟨after, reply⟩ := result
    cases reply with
    | ok events => exact ⟨after, events, rfl⟩
    | error error =>
      obtain ⟨matrix, gained, gains, _⟩ := accept_survives shaped complete fits sized
      exact absurd gains.accepted ((handle_error handled).refused _)

end Policies

end Decoder

namespace DefaultDecoder
open Decoder

/-- The calls of a run that returned events rather than an error. -/
def accepted (calls : List (Call DefaultDecoder Arrival Reply)) : ℕ := calls.countP fun call => call.output.isOk

def sentBy : Reply → ℕ
  | .ok events => events.countP DecoderEvent.isFeedback
  | .error _ => 0

def feedbacks (calls : List (Call DefaultDecoder Arrival Reply)) : ℕ := (calls.map fun call => sentBy call.output).sum

/-- The counter of a decoder's policy, after some accepted packets and the feedback sent for them. -/
structure Ticks (period : UInt32) (state : DefaultDecoder) (accepted sent : ℕ) : Prop where
  every : state.feedbackPolicy.period = period
  paced : Paced 1 period.toNat accepted sent state.feedbackPolicy.counter.toNat

theorem withDefaults_eq {config : DecoderConfig} {start : DefaultDecoder} (built : withDefaults config = .ok start) :
    start = Decoder.new config ⟨16, 0⟩ := by
  cases built
  rfl

theorem Ticks.consults {period : UInt32} {state after : DefaultDecoder} {accepted sent : ℕ}
    (ticks : Ticks period state accepted sent) {events : List DecoderEvent}
    (consults : Consults state.feedbackPolicy events after.feedbackPolicy) :
    Ticks period after (accepted + 1) (sent + events.countP DecoderEvent.isFeedback) := by
  obtain ⟨_, send, asked, count⟩ := consults
  have small := ticks.paced.small
  have bounded := toNat_lt period
  have next : (state.feedbackPolicy.counter + 1).toNat = state.feedbackPolicy.counter.toNat + 1 :=
    toNat_add (by rw [UInt32.toNat_one]; omega)
  have tick := ticks.paced.tick
  have answer : (if state.feedbackPolicy.counter + 1 ≥ state.feedbackPolicy.period
      then (true, { state.feedbackPolicy with counter := 0 })
      else (false, { state.feedbackPolicy with counter := state.feedbackPolicy.counter + 1 })) =
      (send, after.feedbackPolicy) := asked
  rw [count]
  by_cases full : period.toNat ≤ state.feedbackPolicy.counter.toNat + 1
  · rw [if_pos (by rwa [ge_iff_le, le_iff, next, ticks.every])] at answer
    obtain ⟨rfl, policy⟩ := Prod.mk.inj answer
    rw [if_pos full] at tick
    exact ⟨policy ▸ ticks.every, policy ▸ tick⟩
  · rw [if_neg (by rwa [ge_iff_le, le_iff, next, ticks.every])] at answer
    obtain ⟨rfl, policy⟩ := Prod.mk.inj answer
    rw [if_neg full, ← next] at tick
    exact ⟨policy ▸ ticks.every, policy ▸ tick⟩

theorem Ticks.handle {period : UInt32} {state after : DefaultDecoder} {accepted sent : ℕ}
    (ticks : Ticks period state accepted sent) {arrival : Arrival} {reply : Reply}
    (handled : state.handle arrival = .ok (after, reply)) :
    Ticks period after (accepted + reply.isOk.toNat) (sent + sentBy reply) := by
  cases reply with
  | ok events => exact ticks.consults (handle_consults handled)
  | error error =>
    have same := handle_refused handled
    exact ⟨same ▸ ticks.every, same ▸ ticks.paced⟩

theorem run_ticks {config : DecoderConfig} {start final : DefaultDecoder} (built : withDefaults config = .ok start)
    {calls : List (Call DefaultDecoder Arrival Reply)} (run : Run Decoder.handle start calls final) :
    Ticks 16 final (accepted calls) (feedbacks calls) := by
  obtain rfl := withDefaults_eq built
  refine run.preserves (fun calls state => Ticks 16 state (accepted calls) (feedbacks calls)) (fun _ => True)
    ⟨rfl, .start (by decide)⟩ ?_ fun _ _ => trivial
  intro calls state input after output ticks stepped _
  have next := ticks.handle stepped
  have count : accepted (calls ++ [⟨state, input, after, output⟩]) = accepted calls + output.isOk.toNat := by
    rw [accepted, List.countP_append, List.countP_singleton]
    cases output.isOk <;> rfl
  rw [count, feedbacks, List.map_append, List.sum_append]
  exact next

/-- Whatever the configuration says, feedback follows every sixteenth accepted packet. -/
theorem feedbacks_eq {config : DecoderConfig} {start final : DefaultDecoder} (built : withDefaults config = .ok start)
    {calls : List (Call DefaultDecoder Arrival Reply)} (run : Run Decoder.handle start calls final) :
    feedbacks calls = accepted calls / 16 := by
  have paced := (run_ticks built run).paced.emitted_eq
  rwa [Nat.mul_one] at paced

theorem exists_accepting (config : DecoderConfig) (count : ℕ) :
    ∃ (calls : List (Call DefaultDecoder Arrival Reply)) (final : DefaultDecoder),
      Run Decoder.handle (Decoder.new config ⟨16, 0⟩) calls final ∧ final.Shaped config ∧ accepted calls = count := by
  induction count with
  | zero => exact ⟨[], _, .start, new_shaped config _, rfl⟩
  | succ count ih =>
    obtain ⟨calls, state, run, shaped, counted⟩ := ih
    have sized : (List.replicate config.symbolSize (0 : UInt8)).length = config.symbolSize := List.length_replicate
    have survives : state.Survives (.source (.plain 0 (List.replicate config.symbolSize 0))) :=
      fun _ last => absurd last (show (0 : UInt32) ≠ 0xFFFFFFFF by decide)
    obtain ⟨after, events, handled⟩ : ∃ after events,
        state.handle (.source (.plain 0 (List.replicate config.symbolSize 0))) = .ok (after, .ok events) :=
      handle_source_accepts shaped sized survives
    refine ⟨_, after, .call run handled, handle_shaped shaped ?_ survives handled, ?_⟩
    · trivial
    · rw [accepted, List.countP_append, ← accepted, counted]
      rfl

/-- The configured cadence is kept in every run exactly when it is the built-in one. -/
theorem cadence_iff {config : DecoderConfig} (positive : 1 ≤ config.feedbackEvery) {start : DefaultDecoder}
    (built : withDefaults config = .ok start) :
    (∀ calls final, Run Decoder.handle start calls final →
      feedbacks calls = accepted calls / config.feedbackEvery.toNat) ↔ config.feedbackEvery = 16 := by
  constructor
  · intro kept
    have sixteen : (16 : UInt32).toNat = 16 := rfl
    have some : 0 < config.feedbackEvery.toNat := by
      rw [le_iff, UInt32.toNat_one] at positive
      omega
    obtain rfl := withDefaults_eq built
    -- the shorter of the two periods is over, and the longer one is not
    obtain ⟨calls, final, run, _, counted⟩ := exists_accepting config (min config.feedbackEvery.toNat 16)
    have claimed := kept calls final run
    rw [feedbacks_eq built run, counted] at claimed
    rw [eq_iff, sixteen]
    rcases Nat.lt_trichotomy config.feedbackEvery.toNat 16 with fewer | same | more
    · rw [Nat.min_eq_left (by omega), Nat.div_self some, Nat.div_eq_of_lt fewer] at claimed
      cases claimed
    · exact same
    · rw [Nat.min_eq_right (by omega), Nat.div_eq_of_lt more] at claimed
      cases claimed
  · intro same calls final run
    rw [feedbacks_eq built run, same]
    rfl

/-- Forty packets, and feedback after the sixteenth and the thirty-second. -/
theorem cadence_iff_sixteen : ∃ (start final : DefaultDecoder) (calls : List (Call DefaultDecoder Arrival Reply)),
    withDefaults ⟨1, .gf2_8, 512, 16⟩ = .ok start ∧ Run Decoder.handle start calls final ∧ accepted calls = 40 ∧
      feedbacks calls = 2 := by
  have built : withDefaults ⟨1, .gf2_8, 512, 16⟩ = .ok (Decoder.new ⟨1, .gf2_8, 512, 16⟩ ⟨16, 0⟩) := rfl
  obtain ⟨calls, final, run, _, counted⟩ := exists_accepting ⟨1, .gf2_8, 512, 16⟩ 40
  have kept := (cadence_iff (by decide) built).mpr rfl calls final run
  rw [counted] at kept
  exact ⟨_, final, calls, built, run, counted, kept⟩

/-- A decoder configured to answer every packet, after its first one. -/
theorem cadence_fails : ¬ ∀ start calls final, withDefaults ⟨1, .gf2_8, 512, 1⟩ = .ok start →
    Run Decoder.handle start calls final → feedbacks calls = accepted calls / 1 := by
  intro claim
  obtain ⟨calls, final, run, check⟩ := Run.exists_of_check Decoder.handle
    (Decoder.new ⟨1, .gf2_8, 512, 1⟩ ⟨16, 0⟩ : DefaultDecoder) [.source (.plain 0 [7])]
    (fun reached => decide (feedbacks reached.1 = 0 ∧ accepted reached.1 = 1)) (by decide +kernel)
  obtain ⟨silent, one⟩ := of_decide_eq_true check
  have answered := claim _ calls final rfl run
  rw [silent, one] at answered
  cases answered

end DefaultDecoder
end Delp
