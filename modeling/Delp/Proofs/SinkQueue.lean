import Delp.Proofs.Redundancy
import Delp.Transport.Sender

/-! The queue of a `Sink`: no packet of an accepted symbol is lost, repeated or overtaken on its way to the
socket, and a caller who keeps to the protocol keeps the queue bounded. -/

namespace Delp

namespace Encoder
variable {W C F : Type}

def packetsOf : Except DelpError (List EncoderOutput) → List Bytes
  | .ok outputs => outputs.map (·.raw)
  | .error _ => []

def packets (calls : List (Call (Encoder W C F) EncoderAction (Except DelpError (List EncoderOutput)))) : List Bytes :=
  calls.flatMap fun call => packetsOf call.output

end Encoder

def SinkAction.starts : SinkAction → Bool
  | .startSend _ => true
  | _ => false

namespace SinkSender
variable {W C F : Type}

def started (call : Call (SinkSender W C F) SinkAction (SenderReply Unit)) : List Bytes :=
  match call.input, call.output.result with
  | .startSend data, some (.ok ()) => [data]
  | _, _ => []

theorem drain_fifo (pending : List Bytes) (outcomes : List (Except SocketError Unit)) :
    (drain pending outcomes).2.sent ++ (drain pending outcomes).1 = pending := by
  induction pending generalizing outcomes with
  | nil => rfl
  | cons raw pending ih =>
    cases outcomes with
    | nil => rfl
    | cons outcome outcomes =>
      cases outcome with
      | ok => exact congrArg (raw :: ·) (ih outcomes)
      | error error => cases error <;> rfl

variable [WindowPolicy W] [CongestionControl C] [FecRateController F]

/-- What one call does to the queue, and the encoder call that it stands for. -/
structure Queues (before : SinkSender W C F) (accepted sent : List Bytes) (after : SinkSender W C F)
    (own : List (Call (Encoder W C F) EncoderAction (Except DelpError (List EncoderOutput)))) : Prop where
  run : Run Encoder.act before.inner.encoder own after.inner.encoder
  submits : ∀ call ∈ own, ∃ data, call.input = .submit data
  accepted : Encoder.accepted own = accepted
  queue : before.pending ++ Encoder.packets own = sent ++ after.pending

theorem Queues.nothing {before after : SinkSender W C F} {sent : List Bytes} (inner : after.inner = before.inner)
    (queue : sent ++ after.pending = before.pending) : Queues before [] sent after [] :=
  ⟨by rw [inner]; exact .start, by simp, rfl, by rw [queue]; exact List.append_nil _⟩

theorem Queues.append {before middle after : SinkSender W C F} {accepted sent accepted' sent' : List Bytes}
    {own own' : List (Call (Encoder W C F) EncoderAction (Except DelpError (List EncoderOutput)))}
    (queues : Queues before accepted sent middle own) (later : Queues middle accepted' sent' after own') :
    Queues before (accepted ++ accepted') (sent ++ sent') after (own ++ own') := by
  refine ⟨queues.run.append later.run, fun call member => ?_, ?_, ?_⟩
  · rcases List.mem_append.mp member with first | second
    · exact queues.submits call first
    · exact later.submits call second
  · rw [Encoder.accepted, List.flatMap_append]
    exact congrArg₂ _ queues.accepted later.accepted
  · have packets : Encoder.packets (own ++ own') = Encoder.packets own ++ Encoder.packets own' := List.flatMap_append
    rw [packets, ← List.append_assoc, queues.queue, List.append_assoc, later.queue, List.append_assoc]

theorem act_queues {self after : SinkSender W C F} {action : SinkAction} {reply : SenderReply Unit}
    (acted : self.act action = .ok (after, reply)) :
    ∃ own, Queues self (started ⟨self, action, after, reply⟩) reply.sent after own := by
  cases action with
  | pollReady =>
    cases acted
    refine ⟨[], .nothing rfl ?_⟩
    unfold pollReady
    split <;> rfl
  | startSend data =>
    have acted : self.startSend data = .ok (after, reply) := acted
    cases submitted : self.inner.encoder.submitSource data with
    | err error =>
      have called : self.inner.encoder.act (.submit data) = .ok (self.inner.encoder, .error error) := by
        rw [Encoder.act, submitted]
      rw [startSend, submitted] at acted
      cases acted
      exact ⟨[⟨_, _, _, _⟩], .call .start called, by simp, rfl, List.append_nil _⟩
    | panic reason =>
      rw [startSend, submitted] at acted
      cases acted
    | ok result =>
      obtain ⟨encoder, outputs⟩ := result
      have called : self.inner.encoder.act (.submit data) = .ok (encoder, .ok outputs) := by
        rw [Encoder.act, submitted]
      rw [startSend, submitted] at acted
      cases acted
      refine ⟨[⟨_, _, _, _⟩], .call .start called, by simp, rfl, ?_⟩
      rw [Encoder.packets, List.flatMap_singleton]
      rfl
  | pollFlush outcomes | pollClose outcomes =>
    cases acted
    exact ⟨[], .nothing rfl (drain_fifo self.pending outcomes)⟩

/-- What a sink has written and what it still queues are together the packets of the symbols that it has taken, in the
order in which the encoder made them, whatever the socket answers. -/
theorem writes_in_order {encoder : Encoder W C F} {calls : List (Call (SinkSender W C F) SinkAction (SenderReply Unit))}
    {final : SinkSender W C F} (run : Run act (new encoder) calls final) :
    ∃ own, Run Encoder.act encoder own final.inner.encoder ∧ (∀ call ∈ own, ∃ data, call.input = .submit data) ∧
      Encoder.accepted own = calls.flatMap started ∧
      calls.flatMap (·.output.sent) ++ final.pending = Encoder.packets own := by
  have queued : ∃ own, Queues (new encoder) (calls.flatMap started) (calls.flatMap (·.output.sent)) final own := by
    induction run with
    | start => exact ⟨[], .nothing rfl rfl⟩
    | call _ acted ih =>
      obtain ⟨own, queues⟩ := ih
      obtain ⟨more, further⟩ := act_queues acted
      refine ⟨own ++ more, ?_⟩
      simp only [List.flatMap_append, List.flatMap_singleton]
      exact queues.append further
  obtain ⟨own, queues⟩ := queued
  exact ⟨own, queues.run, queues.submits, queues.accepted, queues.queue.symm⟩

section Bound

abbrev DefaultSink := SinkSender AnyAckPolicy NoCongestionControl ConstantFecRate

variable {calls : List (Call DefaultSink SinkAction (SenderReply Unit))}
  {final : DefaultSink}

/-- A `poll_ready` that is ready allows one `start_send`. -/
def allows (allowed : Bool) (call : Call (SinkSender W C F) SinkAction (SenderReply Unit)) : Bool :=
  match call.input with
  | .pollReady => call.output.result.isSome
  | .startSend _ => false
  | .pollFlush _ | .pollClose _ => allowed

/-- A caller who keeps to the protocol of a sink. -/
def Polite (calls : List (Call (SinkSender W C F) SinkAction (SenderReply Unit))) : Prop :=
  ∀ (i : ℕ) (inside : i < calls.length), calls[i].input.starts = true → (calls.take i).foldl allows false = true

instance (calls : List (Call (SinkSender W C F) SinkAction (SenderReply Unit))) : Decidable (Polite calls) := Nat.decidableBallLT _ _

omit [WindowPolicy W] [CongestionControl C] [FecRateController F] in
theorem Polite.init {calls : List (Call (SinkSender W C F) SinkAction (SenderReply Unit))}
    {call : Call (SinkSender W C F) SinkAction (SenderReply Unit)} (polite : Polite (calls ++ [call])) :
    Polite calls ∧ (call.input.starts = true → calls.foldl allows false = true) := by
  constructor
  · intro i inside starts
    have allowed := polite i (by rw [List.length_append]; omega)
    rw [List.getElem_append_left inside, List.take_append_of_le_length (Nat.le_of_lt inside)] at allowed
    exact allowed starts
  · intro starts
    have allowed := polite calls.length (by rw [List.length_append]; exact Nat.lt_succ_self _)
    rw [List.getElem_concat_length rfl, List.take_left] at allowed
    exact allowed starts

/-- A polite caller finds less than `MAX_PENDING` packets in the queue, and leaves at most those of one symbol more. -/
structure Bounded (config : EncoderConfig) (calls : List (Call DefaultSink SinkAction (SenderReply Unit)))
    (state : DefaultSink) : Prop where
  keeps : ∃ submissions emitted, DefaultEncoder.Keeps config state.inner.encoder submissions emitted
  room : calls.foldl allows false = true → state.pending.length < maxPending
  bound : state.pending.length ≤ maxPending + (config.fecNumer + config.fecDenom - 1) / config.fecDenom

private theorem drained_length (pending : List Bytes) (outcomes : List (Except SocketError Unit)) :
    (drain pending outcomes).1.length ≤ pending.length := by
  have fifo := congrArg List.length (drain_fifo pending outcomes)
  rw [List.length_append] at fifo
  omega

private theorem burst_length {config : EncoderConfig} {state after : DefaultEncoder} {submissions emitted : ℕ}
    (keeps : DefaultEncoder.Keeps config state submissions emitted) {data : Bytes} {outputs : List EncoderOutput}
    (submitted : state.submitSource data = .ok (after, outputs)) :
    outputs.length ≤ 1 + (config.fecNumer + config.fecDenom - 1) / config.fecDenom := by
  obtain ⟨_, pkt, coded, rfl, _, rate⟩ := Encoder.submitSource_rate submitted
  have length : coded.length = (state.fec.acc + state.fec.numer) / state.fec.denom := congrArg Prod.fst rate
  have small := keeps.paced.small
  rw [keeps.numer, keeps.denom] at length
  have most : (state.fec.acc + config.fecNumer) / config.fecDenom ≤ (config.fecNumer + config.fecDenom - 1) / config.fecDenom :=
    Nat.div_le_div_right (by omega)
  rw [List.length_cons, length]
  omega

theorem Bounded.call {config : EncoderConfig} {before after : DefaultSink}
    {action : SinkAction} {reply : SenderReply Unit} (bounded : Bounded config calls before)
    (acted : before.act action = .ok (after, reply)) (polite : action.starts = true → calls.foldl allows false = true) :
    Bounded config (calls ++ [⟨before, action, after, reply⟩]) after := by
  obtain ⟨⟨submissions, emitted, keeps⟩, room, bound⟩ := bounded
  have fold (call : Call DefaultSink SinkAction (SenderReply Unit)) :
      (calls ++ [call]).foldl allows false = allows (calls.foldl allows false) call := List.foldl_append
  cases action with
  | pollReady =>
    cases acted
    refine ⟨⟨submissions, emitted, keeps⟩, fun allowed => ?_, bound⟩
    have ready : before.pollReady.result.isSome = true := (fold _).symm.trans allowed
    unfold pollReady at ready
    split at ready
    · cases ready
    next below => exact Nat.lt_of_not_le below
  | startSend data =>
    have allowed := room (polite rfl)
    have acted : before.startSend data = .ok (after, reply) := acted
    have spent : allows (calls.foldl allows false) ⟨before, .startSend data, after, reply⟩ = false := rfl
    rw [startSend] at acted
    split at acted
    · cases acted
      exact ⟨⟨submissions, emitted, keeps⟩, fun allowed => absurd (spent.symm.trans ((fold _).symm.trans allowed)) Bool.false_ne_true, bound⟩
    · cases acted
    next encoder packets submitted =>
      cases acted
      refine ⟨⟨_, _, keeps.submitted submitted⟩, fun allowed => absurd (spent.symm.trans ((fold _).symm.trans allowed)) Bool.false_ne_true, ?_⟩
      have burst := burst_length keeps submitted
      rw [List.length_append, List.length_map]
      omega
  | pollFlush outcomes | pollClose outcomes =>
    cases acted
    have shorter := drained_length before.pending outcomes
    refine ⟨⟨submissions, emitted, keeps⟩, fun allowed => ?_, shorter.trans bound⟩
    rw [fold] at allowed
    exact Nat.lt_of_le_of_lt shorter (room allowed)

/-- The queue of a sink never holds more than `MAX_PENDING` packets and the coded packets of one symbol, for a caller who
sends only after `poll_ready` has been ready. -/
theorem stays_bounded {config : EncoderConfig} {encoder : DefaultEncoder} (built : DefaultEncoder.withDefaults config = .ok encoder)
    (run : Run act (new encoder) calls final) (polite : Polite calls) :
    final.pending.length ≤ maxPending + (config.fecNumer + config.fecDenom - 1) / config.fecDenom := by
  have bounded : Bounded config calls final := by
    induction run with
    | start =>
      exact ⟨⟨_, _, DefaultEncoder.run_keeps built .start⟩, fun allowed => absurd allowed Bool.false_ne_true, Nat.zero_le _⟩
    | call _ acted ih =>
      obtain ⟨before, last⟩ := polite.init
      exact (ih before).call acted last
  exact bounded.bound

/-- Two symbols at two coded packets in three: the first is written to the socket in part. -/
theorem writes_in_order_partly :
    ∃ (calls : List (Call DefaultSink SinkAction (SenderReply Unit))) (final : DefaultSink) (own : _),
      Run act (new (.new DefaultEncoder.twoInThree {} {} ⟨2, 3, 0⟩)) calls final ∧
        Run Encoder.act (.new DefaultEncoder.twoInThree {} {} ⟨2, 3, 0⟩) own final.inner.encoder ∧
        Encoder.accepted own = [[1], [2]] ∧ final.pending.length = 2 ∧
        calls.flatMap (·.output.sent) ++ final.pending = Encoder.packets own := by
  obtain ⟨calls, final, run, check⟩ := Run.exists_of_check act (new (.new DefaultEncoder.twoInThree {} {} ⟨2, 3, 0⟩) : DefaultSink)
    [.pollReady, .startSend [1], .pollFlush [.error .wouldBlock], .startSend [2], .pollFlush [.ok (), .error (.other 1)]]
    (fun result => decide (result.1.flatMap started = [[1], [2]] ∧ result.2.pending.length = 2)) (by decide +kernel)
  obtain ⟨taken, left⟩ := of_decide_eq_true check
  obtain ⟨own, encoded, _, accepted, written⟩ := writes_in_order run
  exact ⟨calls, final, own, run, encoded, accepted.trans taken, left, written⟩

/-- The queue holds the packets of two symbols that a polite caller has sent. -/
theorem stays_bounded_two :
    ∃ (calls : List (Call DefaultSink SinkAction (SenderReply Unit))) (final : DefaultSink) (encoder : DefaultEncoder),
      DefaultEncoder.withDefaults DefaultEncoder.twoInThree = .ok encoder ∧ Run act (new encoder) calls final ∧ Polite calls ∧
        final.pending.length = 3 ∧ final.pending.length ≤ 513 := by
  have built : DefaultEncoder.withDefaults DefaultEncoder.twoInThree = .ok (.new DefaultEncoder.twoInThree {} {} ⟨2, 3, 0⟩) := rfl
  obtain ⟨calls, final, run, check⟩ := Run.exists_of_check act (new (.new DefaultEncoder.twoInThree {} {} ⟨2, 3, 0⟩) : DefaultSink)
    [.pollReady, .startSend [1], .pollReady, .pollFlush [], .startSend [2]]
    (fun result => decide (Polite result.1 ∧ result.2.pending.length = 3)) (by decide +kernel)
  obtain ⟨polite, queued⟩ := of_decide_eq_true check
  exact ⟨calls, final, _, built, run, polite, queued, stays_bounded built run polite⟩

end Bound

end SinkSender
end Delp
