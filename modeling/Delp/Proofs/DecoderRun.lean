import Delp.Codec.Decoder
import Delp.Lib.Run
import Delp.Proofs.BufferDelivery

/-! One call of the decoder, split at the matrix: an arrival yields symbols, and the
delivery side drains, reports and prunes what it then holds. -/

namespace Delp
open Machine

inductive Arrival where
  | source (packet : SourcePacket)
  | coded (packet : CodedPacket)
deriving DecidableEq, Repr

def Arrival.payload : Arrival → Bytes
  | .source packet => packet.payload
  | .coded packet => packet.payload

def Arrival.carried : Arrival → List (SourceSymbolId × Bytes)
  | .source packet => [(packet.sourceSymbolId, packet.payload)]
  | .coded _ => []

def SourcePacket.plain (sourceSymbolId : UInt32) (payload : Bytes) : SourcePacket where
  header := .new .source .zero false 2
  cci := []
  tsi := none
  sourceSymbolId := sourceSymbolId
  payload := payload

def CodedPacket.plain (ev : EncodingVector) (payload : Bytes) : CodedPacket where
  header := .new .coded .zero false 5
  cci := []
  tsi := none
  codedSymbolId := ev.codedId
  ev := ev
  payload := payload

section NoErrors
variable {field : Config.Field}

theorem Gf.mulAcc_noError (dst src : Bytes) (coef : UInt8) : (Gf.mulAcc field dst src coef).NoError := by
  cases field with
  | gf2_8 =>
    refine Outcome.noError_bind Outcome.noError_require fun _ _ => ?_
    split <;> exact Outcome.noError_ok _
  | gf2_4 =>
    refine Outcome.noError_bind Outcome.noError_require fun _ _ => ?_
    dsimp only
    split <;> exact Outcome.noError_ok _

theorem DenseCoefs.isSolved_noError (row : DenseCoefs) : row.isSolved.NoError := by
  unfold isSolved
  split
  · exact Outcome.noError_ok _
  · exact Outcome.noError_bind Outcome.noError_guarded fun _ _ => Outcome.noError_ok _

theorem DecodingMatrix.substituteInRow_noError (symId : SourceSymbolId) (symData : Bytes)
    (state : Std.TreeMap SourceSymbolId MatrixRow × List SourceSymbolId) (pid : SourceSymbolId) :
    (substituteInRow field symId symData state pid).NoError := by
  refine Outcome.noError_bind Outcome.noError_get fun row _ => ?_
  dsimp only
  split
  · exact Outcome.noError_ok _
  refine Outcome.noError_bind ?_ fun row _ => Outcome.noError_bind row.coefs.isSolved_noError fun solved _ => ?_
  · exact Outcome.noError_bind (Gf.mulAcc_noError _ _ _) fun _ _ => Outcome.noError_ok _
  · cases solved <;> exact Outcome.noError_ok _

theorem DecodingMatrix.Cascade.run_noError (fuel : Nat) (state : Cascade) : (state.run field fuel).NoError := by
  induction fuel generalizing state with
  | zero => exact Outcome.noError_panic _
  | succ fuel ih =>
    unfold run
    split
    · exact Outcome.noError_ok _
    · exact Outcome.noError_bind (Outcome.foldlM_noError (substituteInRow_noError _ _) _ _) fun _ _ => ih _

theorem DecodingMatrix.addKnownSource_noError (matrix : DecodingMatrix) (id : SourceSymbolId) (data : Bytes)
    (known : KnownSources) : (matrix.addKnownSource id data known).NoError :=
  Outcome.noError_bind (Cascade.run_noError _ _) fun _ _ => Outcome.noError_ok _

end NoErrors

/-- The buffer after a list of symbols has been offered to it. -/
def SymbolBuffer.absorb (buffer : SymbolBuffer) (gained : List (SourceSymbolId × Bytes)) : SymbolBuffer :=
  gained.foldl (fun buffer symbol => buffer.insert symbol.1 symbol.2) buffer

def KnownSources.learn (known : KnownSources) (gained : List (SourceSymbolId × Bytes)) : KnownSources :=
  gained.foldl (fun known symbol => known.insertIfNew symbol.1 symbol.2) known

@[simp] theorem SymbolBuffer.absorb_cons (buffer : SymbolBuffer) (symbol : SourceSymbolId × Bytes)
    (gained : List (SourceSymbolId × Bytes)) :
    buffer.absorb (symbol :: gained) = (buffer.insert symbol.1 symbol.2).absorb gained := rfl

@[simp] theorem KnownSources.learn_cons (known : KnownSources) (symbol : SourceSymbolId × Bytes)
    (gained : List (SourceSymbolId × Bytes)) :
    known.learn (symbol :: gained) = KnownSources.learn (known.insertIfNew symbol.1 symbol.2) gained := rfl

/-- The buffer after it has been drained, and pruned when the window has moved on. -/
def SymbolBuffer.settle (buffer : SymbolBuffer) (floor : SourceSymbolId) : SymbolBuffer :=
  let drained := buffer.drainDeliverable.1
  if floor > drained.nextDeliveryId then drained.pruneBelow floor else drained

/-- The gap that a call reports once the buffer has been drained. -/
def SymbolBuffer.gapTo (buffer : SymbolBuffer) (floor : SourceSymbolId) : List DecoderEvent :=
  let next := buffer.drainDeliverable.1.nextDeliveryId
  if floor > next then [.unrecoverableGap next (floor - next)] else []

def SymbolBuffer.readyEvents (buffer : SymbolBuffer) : List DecoderEvent :=
  buffer.drainDeliverable.2.map fun (id, data) => .sourceReady id data

namespace Decoder
variable {P : Type} [FeedbackPolicy P]

def handle (self : Decoder P) : Arrival → Result (Decoder P × Reply)
  | .source packet => self.handleSource packet
  | .coded packet => self.handleCoded packet

/-- What a handler notes of a packet of the right size before the matrix sees it. -/
def noted (self : Decoder P) : Arrival → Decoder P
  | .source packet => { self with
      loss := self.loss.onSource packet.sourceSymbolId
      packetsReceived := self.packetsReceived + 1
      known := self.known.insertIfNew packet.sourceSymbolId packet.payload
      buffer := self.buffer.insert packet.sourceSymbolId packet.payload }
  | .coded packet => { self with
      loss := self.loss.onCoded
      packetsReceived := self.packetsReceived + 1
      encoderWinMin := self.raiseWinMin packet }

def offered (self : Decoder P) : Arrival → Result (DecodingMatrix × List (SourceSymbolId × Bytes))
  | .source packet => self.matrix.addKnownSource packet.sourceSymbolId packet.payload
      (self.known.insertIfNew packet.sourceSymbolId packet.payload)
  | .coded packet => self.matrix.addCoded packet.ev packet.payload self.known

/-- The end of both handlers. -/
def conclude (self : Decoder P) (arrival : Arrival) :
    Result (DecodingMatrix × List (SourceSymbolId × Bytes)) → Result (Decoder P × Reply)
  | .ok (matrix, recovered) => finish { self.noted arrival with matrix } recovered
  | .err error => .ok (self.noted arrival, .error error)
  | .panic reason => .panic reason

/-- Both handlers are one: they differ in what they note and in what they offer to the matrix. -/
theorem handle_eq (self : Decoder P) (arrival : Arrival) :
    self.handle arrival =
      if arrival.payload.length ≠ self.config.symbolSize then
        .ok (self, .error (.symbolSizeMismatch self.config.symbolSize arrival.payload.length))
      else self.conclude arrival (self.offered arrival) := by
  cases arrival <;> rfl

/-- The window minimum that the decoder assumes once it has read an arrival. -/
def floor (self : Decoder P) : Arrival → SourceSymbolId
  | .source _ => self.encoderWinMin
  | .coded packet => self.raiseWinMin packet

omit [FeedbackPolicy P] in
/-- Only the first id of a coded packet can raise the window minimum. -/
theorem floor_eq (before : Decoder P) (arrival : Arrival) :
    before.floor arrival = before.encoderWinMin ∨ ∃ packet, arrival = .coded packet ∧
      before.floor arrival ∈ packet.ev.sourceIds.head? ∧ before.encoderWinMin < before.floor arrival := by
  cases arrival with
  | source => exact .inl rfl
  | coded packet =>
    rw [floor, raiseWinMin]
    split
    next first head =>
      split
      next higher => exact .inr ⟨packet, rfl, head, higher⟩
      next => exact .inl rfl
    next => exact .inl rfl

/-- The matrix after an arrival, and the symbols the decoder gains by it: the one that a
source packet carries, and those that the matrix recovers. -/
def accept (self : Decoder P) : Arrival → Result (DecodingMatrix × List (SourceSymbolId × Bytes))
  | .source packet =>
    if packet.payload.length ≠ self.config.symbolSize then
      .err (.symbolSizeMismatch self.config.symbolSize packet.payload.length)
    else do
      let (matrix, recovered) ← self.matrix.addKnownSource packet.sourceSymbolId packet.payload
        (self.known.insertIfNew packet.sourceSymbolId packet.payload)
      pure (matrix, (packet.sourceSymbolId, packet.payload) :: recovered)
  | .coded packet =>
    if packet.payload.length ≠ self.config.symbolSize then
      .err (.symbolSizeMismatch self.config.symbolSize packet.payload.length)
    else self.matrix.addCoded packet.ev packet.payload self.known

omit [FeedbackPolicy P] in
theorem accept_eq (self : Decoder P) (arrival : Arrival) :
    self.accept arrival =
      if arrival.payload.length ≠ self.config.symbolSize then
        .err (.symbolSizeMismatch self.config.symbolSize arrival.payload.length)
      else self.offered arrival >>= fun result => .ok (result.1, arrival.carried ++ result.2) := by
  cases arrival with
  | source packet => rfl
  | coded packet =>
    rw [accept, offered, Arrival.carried]
    cases self.matrix.addCoded packet.ev packet.payload self.known <;> rfl

def Feedback (buffer : SymbolBuffer) (feedback : List DecoderEvent) : Prop :=
  feedback = [] ∨ ∃ nbMissing nbNotUsed loss pkt,
    FeedbackPacket.build buffer.nextDeliveryId nbMissing nbNotUsed loss
      ((buffer.idsFrom buffer.nextDeliveryId).take 256) = .ok pkt ∧
    feedback = [.sendFeedback pkt.serialise]

structure Takes (before : Decoder P) (arrival : Arrival) (matrix : DecodingMatrix)
    (gained : List (SourceSymbolId × Bytes)) (after : Decoder P) (events : List DecoderEvent) : Prop where
  accepted : before.accept arrival = .ok (matrix, gained)
  config : after.config = before.config
  matrix : after.matrix = matrix
  known : after.known = before.known.learn gained
  winMin : after.encoderWinMin = before.floor arrival
  buffer : after.buffer = (before.buffer.absorb gained).settle (before.floor arrival)
  events : ∃ feedback, Feedback (before.buffer.absorb gained).drainDeliverable.1 feedback ∧
    events = (before.buffer.absorb gained).readyEvents ++ feedback ++
      (before.buffer.absorb gained).gapTo (before.floor arrival)

structure Refuses (before : Decoder P) (arrival : Arrival) (after : Decoder P) : Prop where
  refused : ∀ result, before.accept arrival ≠ .ok result
  config : after.config = before.config
  matrix : after.matrix = before.matrix
  known : after.known = before.known
  buffer : after.buffer = before.buffer
  winMin : after.encoderWinMin = before.encoderWinMin ∨ after.encoderWinMin = before.floor arrival

omit [FeedbackPolicy P] in
theorem foldl_absorbRecovered (gained : List (SourceSymbolId × Bytes)) (self : Decoder P) :
    gained.foldl absorbRecovered self =
      { self with known := self.known.learn gained, buffer := self.buffer.absorb gained } := by
  induction gained generalizing self with
  | nil => rfl
  | cons symbol gained ih => exact ih (self.absorbRecovered symbol)

private theorem maybeSendFeedback_ok {self after : Decoder P} {feedback : List DecoderEvent}
    (sent : self.maybeSendFeedback = .ok (after, feedback)) :
    (∃ policy, after = { self with feedbackPolicy := policy }) ∧ Feedback self.buffer feedback := by
  obtain ⟨state, _, sent⟩ := Outcome.bind_eq_ok.mp sent
  dsimp only at sent
  split at sent
  · obtain ⟨nbMissing, _, sent⟩ := Outcome.bind_eq_ok.mp sent
    obtain ⟨pkt, built, sent⟩ := Outcome.bind_eq_ok.mp sent
    cases sent
    exact ⟨⟨_, rfl⟩, .inr ⟨_, _, _, pkt, built, rfl⟩⟩
  · cases sent
    exact ⟨⟨_, rfl⟩, .inl rfl⟩

theorem finish_ok {self after : Decoder P} {gained : List (SourceSymbolId × Bytes)} {reply : Reply}
    (finished : self.finish gained = .ok (after, reply)) :
    ∃ policy feedback, Feedback (self.buffer.absorb gained).drainDeliverable.1 feedback ∧
      after = { self with
        known := self.known.learn gained
        buffer := (self.buffer.absorb gained).settle self.encoderWinMin
        feedbackPolicy := policy } ∧
      reply = .ok ((self.buffer.absorb gained).readyEvents ++ feedback ++
        (self.buffer.absorb gained).gapTo self.encoderWinMin) := by
  simp only [finish, foldl_absorbRecovered, drainToEvents] at finished
  obtain ⟨⟨sender, feedback⟩, sent, finished⟩ := Outcome.bind_eq_ok.mp finished
  obtain ⟨⟨policy, rfl⟩, kind⟩ := maybeSendFeedback_ok sent
  refine ⟨policy, feedback, kind, ?_⟩
  simp only [checkGap] at finished
  unfold SymbolBuffer.settle SymbolBuffer.gapTo
  split at finished
  next above =>
    cases finished
    simp only [if_pos above, SymbolBuffer.readyEvents, and_self]
  next below =>
    cases finished
    simp only [if_neg below, SymbolBuffer.readyEvents, and_self]

inductive Handled (before : Decoder P) (arrival : Arrival) : Decoder P → Reply → Prop where
  | missized (wrong : arrival.payload.length ≠ before.config.symbolSize) :
      Handled before arrival before (.error (.symbolSizeMismatch before.config.symbolSize arrival.payload.length))
  | finished {matrix : DecodingMatrix} {recovered : List (SourceSymbolId × Bytes)} {after : Decoder P} {reply : Reply}
      (sized : arrival.payload.length = before.config.symbolSize) (added : before.offered arrival = .ok (matrix, recovered))
      (rest : finish { before.noted arrival with matrix } recovered = .ok (after, reply)) :
      Handled before arrival after reply
  | failed {error : DelpError} (sized : arrival.payload.length = before.config.symbolSize)
      (failed : before.offered arrival = .err error) : Handled before arrival (before.noted arrival) (.error error)

theorem handled_of {before after : Decoder P} {arrival : Arrival} {reply : Reply}
    (handled : before.handle arrival = .ok (after, reply)) : Handled before arrival after reply := by
  rw [handle_eq] at handled
  split at handled
  next wrong =>
    cases handled
    exact .missized wrong
  next sized =>
    have sized := not_not.mp sized
    cases added : before.offered arrival with
    | ok result =>
      rw [added] at handled
      exact .finished sized added handled
    | err error =>
      rw [added] at handled
      cases handled
      exact .failed sized added
    | panic reason =>
      rw [added] at handled
      cases handled

theorem handle_ok {before after : Decoder P} {arrival : Arrival} {events : List DecoderEvent}
    (handled : before.handle arrival = .ok (after, .ok events)) :
    ∃ matrix gained, before.Takes arrival matrix gained after events := by
  cases handled_of handled with
  | @finished matrix recovered _ _ sized added rest =>
    obtain ⟨policy, feedback, kind, rfl, replied⟩ := finish_ok rest
    cases replied
    have accepted : before.accept arrival = .ok (matrix, arrival.carried ++ recovered) := by
      rw [accept_eq, if_neg (not_not.mpr sized), added]
      rfl
    refine ⟨matrix, arrival.carried ++ recovered, ?_⟩
    cases arrival with
    | source packet | coded packet => exact ⟨accepted, rfl, rfl, rfl, rfl, rfl, feedback, kind, rfl⟩

/-- A refused arrival moves at most the window minimum. -/
theorem handle_error {before after : Decoder P} {arrival : Arrival} {error : DelpError}
    (handled : before.handle arrival = .ok (after, .error error)) : before.Refuses arrival after := by
  cases handled_of handled with
  | missized wrong =>
    refine ⟨fun result accepted => ?_, rfl, rfl, rfl, rfl, .inl rfl⟩
    rw [accept_eq, if_pos wrong] at accepted
    cases accepted
  | finished sized added rest =>
    obtain ⟨_, _, _, _, replied⟩ := finish_ok rest
    cases replied
  | failed sized failed =>
    have refused : ∀ result, before.accept arrival ≠ .ok result := by
      intro result accepted
      rw [accept_eq, if_neg (not_not.mpr sized), failed] at accepted
      cases accepted
    cases arrival with
    | source packet => exact absurd failed (DecodingMatrix.addKnownSource_noError _ _ _ _ _)
    | coded packet => exact ⟨refused, rfl, rfl, rfl, rfl, .inr rfl⟩

end Decoder
end Delp
