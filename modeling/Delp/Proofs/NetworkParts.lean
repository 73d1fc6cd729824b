import Delp.Proofs.NetworkAcks

/-! A run of a network, seen from one of its ends: what it does to the encoder is a run of the
encoder, and what it does to a receiver is a run of its decoder. -/

namespace Delp
open Machine

namespace Arrival

/-- The packet that the receiver makes of a datagram, unless it drops the datagram. -/
def ofRaw (raw : Bytes) : Option Arrival :=
  match SourcePacket.parse raw, CodedPacket.parse raw with
  | .ok packet, _ => some (.source packet)
  | _, .ok packet => some (.coded packet)
  | _, _ => none

def kind : Arrival → PacketType
  | .source _ => .source
  | .coded _ => .coded

theorem Reads.typed {raw : Bytes} {arrival : Arrival} (reads : arrival.Reads raw) :
    CommonHeader.Opens raw ∧ (CommonHeader.ofBytes raw).pktType = arrival.kind.toU8 := by
  cases arrival with
  | source packet =>
    have accepted : parseAs .source raw = .ok (.source packet) := by
      rw [parseAs, show SourcePacket.parse raw = .ok packet from reads]
      rfl
    exact ⟨(parseAs_ok accepted).1, (parseAs_ok accepted).2 (by decide)⟩
  | coded packet =>
    have accepted : parseAs .coded raw = .ok (.coded packet) := by
      rw [parseAs, show CodedPacket.parse raw = .ok packet from reads]
      rfl
    exact ⟨(parseAs_ok accepted).1, (parseAs_ok accepted).2 (by decide)⟩

theorem ofRaw_eq_some {raw : Bytes} {arrival : Arrival} : ofRaw raw = some arrival ↔ arrival.Reads raw := by
  constructor
  · intro found
    unfold ofRaw at found
    split at found
    next parsed =>
      cases found
      exact parsed
    next _ _ _ parsed _ =>
      cases found
      exact parsed
    next => cases found
  · intro reads
    cases arrival with
    | source packet => rw [ofRaw, show SourcePacket.parse raw = .ok packet from reads]
    | coded packet =>
      unfold ofRaw
      split
      next _ _ other parsed =>
        have source : (Arrival.source other).Reads raw := parsed
        exact absurd (source.typed.2.symm.trans reads.typed.2) (show PacketType.source.toU8 ≠ PacketType.coded.toU8 by decide)
      next same _ =>
        cases same.symm.trans (show CodedPacket.parse raw = .ok packet from reads)
        rfl
      next none => exact absurd (show CodedPacket.parse raw = .ok packet from reads) (none packet)

theorem Reads.processOne {P : Type} [FeedbackPolicy P] {raw : Bytes} {arrival : Arrival} (reads : arrival.Reads raw)
    (decoder : Decoder P) : decoder.processOne raw = decoder.handle arrival := by
  obtain ⟨opens, typed⟩ := reads.typed
  rw [Decoder.processOne, CommonHeader.parse_of opens]
  simp only [unlessMalformed, CommonHeader.packetType, PacketType.fromU8_eq_ok.mpr typed]
  cases arrival with
  | source packet => simp only [kind, show SourcePacket.parse raw = .ok packet from reads, Decoder.handle]
  | coded packet => simp only [kind, show CodedPacket.parse raw = .ok packet from reads, Decoder.handle]

end Arrival

namespace Network
variable {W C F P : Type}

def arrivalAt (receiver : ReceiverId) (call : Call (Network W C F P) NetworkAction NetworkReply) :
    Option (Call (Decoder P) Arrival Reply) :=
  match call.input, call.output with
  | .deliver target index, .decoded reply =>
    if target = receiver then
      (call.before.sent[index]?.bind fun datagram => Arrival.ofRaw datagram.raw).map fun arrival =>
        ⟨call.before.decoders receiver, arrival, call.after.decoders receiver, reply⟩
    else none
  | _, _ => none

def arrivals (receiver : ReceiverId) (calls : List (Call (Network W C F P) NetworkAction NetworkReply)) :
    List (Call (Decoder P) Arrival Reply) := calls.filterMap (arrivalAt receiver)

def encoderCall (call : Call (Network W C F P) NetworkAction NetworkReply) :
    Option (Call (Encoder W C F) EncoderAction (Except DelpError (List EncoderOutput))) :=
  match call.input, call.output with
  | .encode action, .encoded reply => some ⟨call.before.encoder, action, call.after.encoder, reply⟩
  | .acknowledge index, _ => call.before.reports[index]?.bind fun report =>
    match FeedbackPacket.parse report.2 with
    | .ok packet => some ⟨call.before.encoder, .feedback report.1 packet, call.after.encoder, .ok []⟩
    | _ => none
  | _, _ => none

theorem accepted_prefix {earlier calls : List (Call (Network W C F P) NetworkAction NetworkReply)} (inside : earlier <+: calls) :
    accepted earlier <+: accepted calls := by
  obtain ⟨later, rfl⟩ := inside
  exact ⟨accepted later, List.flatMap_append.symm⟩

theorem arrivalAt_eq_some {receiver : ReceiverId} {call : Call (Network W C F P) NetworkAction NetworkReply}
    {own : Call (Decoder P) Arrival Reply} :
    arrivalAt receiver call = some own ↔ ∃ index datagram, call.input = .deliver receiver index ∧
      call.output = .decoded own.output ∧ call.before.sent[index]? = some datagram ∧ own.input.Reads datagram.raw ∧
      own.before = call.before.decoders receiver ∧ own.after = call.after.decoders receiver := by
  constructor
  · intro found
    unfold arrivalAt at found
    split at found
    next target index reply input output =>
      split at found
      next same =>
        subst same
        obtain ⟨arrival, read, rfl⟩ := Option.map_eq_some_iff.mp found
        obtain ⟨datagram, sent, read⟩ := Option.bind_eq_some_iff.mp read
        exact ⟨index, datagram, input, output, sent, Arrival.ofRaw_eq_some.mp read, rfl, rfl⟩
      next => cases found
    next => cases found
  · rintro ⟨index, datagram, input, output, sent, reads, before, after⟩
    obtain ⟨state, arrival, next, reply⟩ := own
    dsimp only at before after reads output
    simp only [arrivalAt, input, output, if_pos, sent, Option.bind_some, Arrival.ofRaw_eq_some.mpr reads, Option.map_some, before,
      after]

section Steps
variable [WindowPolicy W] [CongestionControl C] [FecRateController F] [FeedbackPolicy P]
variable {config : EncoderConfig} {windowPolicy : W} {cc : C} {fec : F} {receivers : ReceiverId → DecoderConfig × P}
  {calls : List (Call (Network W C F P) NetworkAction NetworkReply)} {final : Network W C F P}

private theorem step_receiver (receiver : ReceiverId) (state : Network W C F P) (action : NetworkAction) (after : Network W C F P)
    (reply : NetworkReply) (stepped : step state action = .ok (after, reply)) :
    Run.Moves Decoder.handle (state.decoders receiver) (after.decoders receiver) (arrivalAt receiver ⟨state, action, after, reply⟩) := by
  cases action with
  | encode action =>
    obtain ⟨⟨encoder, outputs⟩, _, same⟩ := Outcome.bind_eq_ok.mp stepped
    cases same
    exact (rfl : _ = _)
  | acknowledge index =>
    have kept : after.decoders = state.decoders := by
      cases step_ok stepped with
      | acknowledged | ignored => rfl
    exact congrFun kept receiver
  | deliver target index =>
    rw [step] at stepped
    split at stepped
    next missing =>
      cases stepped
      have none : arrivalAt receiver ⟨state, .deliver target index, state, .decoded (.ok [])⟩ = none := by
        unfold arrivalAt
        simp only [missing, Option.bind_none, Option.map_none, ite_self]
      rw [none]
      exact (rfl : _ = _)
    next datagram found =>
      obtain ⟨⟨decoder, outcome⟩, processed, same⟩ := Outcome.bind_eq_ok.mp stepped
      cases same
      by_cases own : target = receiver
      · subst own
        cases read : Arrival.ofRaw datagram.raw with
        | none =>
          rcases processOne_ok processed with ⟨rfl, rfl⟩ | ⟨arrival, reads, _⟩
          · simp only [arrivalAt, if_pos, found, Option.bind_some, read, Option.map_none, Function.update_self]
            exact (rfl : _ = _)
          · cases read.symm.trans (Arrival.ofRaw_eq_some.mpr reads)
        | some arrival =>
          rw [(Arrival.ofRaw_eq_some.mp read).processOne] at processed
          simp only [arrivalAt, if_pos, found, Option.bind_some, read, Option.map_some, Function.update_self]
          exact ⟨rfl, rfl, processed⟩
      · simp only [arrivalAt, if_neg own, Function.update_of_ne (Ne.symm own)]
        exact (rfl : _ = _)

/-- What a run of the network does to a receiver is a run of its decoder. -/
theorem receiver_run (run : Run step (new config windowPolicy cc fec receivers) calls final) (receiver : ReceiverId) :
    Run Decoder.handle (.new (receivers receiver).1 (receivers receiver).2) (arrivals receiver calls) (final.decoders receiver) :=
  run.project (fun state => state.decoders receiver) (arrivalAt receiver) (step_receiver receiver)

private theorem step_encoder (state : Network W C F P) (action : NetworkAction) (after : Network W C F P)
    (reply : NetworkReply) (stepped : step state action = .ok (after, reply)) :
    Run.Moves Encoder.act state.encoder after.encoder (encoderCall ⟨state, action, after, reply⟩) := by
  cases action with
  | encode action =>
    obtain ⟨⟨encoder, outputs⟩, acted, same⟩ := Outcome.bind_eq_ok.mp stepped
    cases same
    exact ⟨rfl, rfl, acted⟩
  | deliver target index =>
    have kept : after.encoder = state.encoder := by
      cases step_ok stepped with
      | handled | dropped => rfl
    exact kept
  | acknowledge index =>
    rw [step] at stepped
    split at stepped
    next missing =>
      cases stepped
      simp only [encoderCall, missing, Option.bind_none]
      exact (rfl : _ = _)
    next receiver raw found =>
      obtain ⟨encoder, received, same⟩ := Outcome.bind_eq_ok.mp stepped
      cases same
      simp only [encoderCall, found, Option.bind_some]
      rw [Encoder.recvFeedback] at received
      cases parsed : FeedbackPacket.parse raw with
      | ok packet =>
        rw [parsed] at received
        refine ⟨rfl, rfl, ?_⟩
        rw [Encoder.act, show state.encoder.handleFeedback receiver packet = .ok encoder from received]
        rfl
      | err error =>
        rw [parsed] at received
        cases received
        exact (rfl : _ = _)
      | panic reason =>
        rw [parsed] at received
        cases received

theorem encoder_run (run : Run step (new config windowPolicy cc fec receivers) calls final) :
    Encoder.Runs config windowPolicy cc fec (calls.filterMap encoderCall) final.encoder :=
  run.project Network.encoder encoderCall step_encoder

omit [WindowPolicy W] [CongestionControl C] [FecRateController F] [FeedbackPolicy P] in
theorem accepted_eq (calls : List (Call (Network W C F P) NetworkAction NetworkReply)) :
    Encoder.accepted (calls.filterMap encoderCall) = accepted calls := by
  have each (call : Call (Network W C F P) NetworkAction NetworkReply) :
      Encoder.accepted (encoderCall call).toList = accepted [call] := by
    obtain ⟨before, input, after, output⟩ := call
    cases input with
    | encode action => cases output <;> rfl
    | deliver => rfl
    | acknowledge index =>
      simp only [encoderCall]
      cases before.reports[index]? with
      | none => rfl
      | some report =>
        simp only [Option.bind_some]
        cases FeedbackPacket.parse report.2 <;> rfl
  induction calls with
  | nil => rfl
  | cons call calls ih =>
    have split : (call :: calls).filterMap encoderCall = (encoderCall call).toList ++ calls.filterMap encoderCall := by
      cases found : encoderCall call with
      | none => rw [List.filterMap_cons_none found]; rfl
      | some own => rw [List.filterMap_cons_some found]; rfl
    rw [split, Encoder.accepted, List.flatMap_append, accepted, List.flatMap_cons]
    exact congrArg₂ _ ((each call).trans (List.append_nil _)) ih

end Steps
end Network
end Delp
