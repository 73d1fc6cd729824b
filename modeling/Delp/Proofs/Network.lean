import Delp.Proofs.Delivery
import Delp.Proofs.EncoderRun
import Delp.Transport

/-! One encoder and any number of decoders. The network may lose, duplicate, delay and reorder:
what has been sent can arrive at any later time, any number of times, or never. -/

namespace Delp
open Machine

/-- A datagram of the encoder, and the ids in its window when the datagram was made. -/
structure Datagram where
  raw : Bytes
  window : List SourceSymbolId
deriving DecidableEq, Repr

/-- The packet that a datagram is parsed to; each parser checks the type byte. -/
def Arrival.Reads (raw : Bytes) : Arrival → Prop
  | .source packet => SourcePacket.parse raw = .ok packet
  | .coded packet => CodedPacket.parse raw = .ok packet

theorem unlessMalformed_ok {α β : Type} {parsed : Result α} {dropped result : β} {next : α → Result β}
    (returned : unlessMalformed parsed dropped next = .ok result) :
    result = dropped ∨ ∃ value, parsed = .ok value ∧ next value = .ok result := by
  cases parsed with
  | ok value => exact .inr ⟨value, rfl, returned⟩
  | err error =>
    cases returned
    exact .inl rfl
  | panic reason => cases returned

structure Network (W C F P : Type) where
  encoder : Encoder W C F
  decoders : ReceiverId → Decoder P
  /-- All datagrams sent so far, arrived or not. -/
  sent : List Datagram
  /-- All feedback sent so far, under the id of its receiver. -/
  reports : List (ReceiverId × Bytes)

inductive NetworkAction where
  | encode (action : EncoderAction)
  /-- A datagram of the encoder arrives at a receiver. -/
  | deliver (receiver : ReceiverId) (index : ℕ)
  /-- Feedback arrives at the encoder. -/
  | acknowledge (index : ℕ)
deriving DecidableEq

inductive NetworkReply where
  | encoded (reply : Except DelpError (List EncoderOutput))
  | decoded (reply : Reply)
  | acknowledged

namespace Network
variable {W C F P : Type}

/-- Generating coded packets leaves the window as it is, so all outputs of a call go with the window after it. -/
def datagrams (encoder : Encoder W C F) : Except DelpError (List EncoderOutput) → List Datagram
  | .ok outputs => outputs.map fun output => ⟨output.raw, encoder.window.idSlice⟩
  | .error _ => []

def feedbackOf (receiver : ReceiverId) : Reply → List (ReceiverId × Bytes)
  | .ok events => events.filterMap fun
    | .sendFeedback bytes => some (receiver, bytes)
    | _ => none
  | .error _ => []

section Steps
variable [WindowPolicy W] [CongestionControl C] [FecRateController F] [FeedbackPolicy P]

def new (config : EncoderConfig) (windowPolicy : W) (cc : C) (fec : F) (receivers : ReceiverId → DecoderConfig × P) :
    Network W C F P where
  encoder := .new config windowPolicy cc fec
  decoders receiver := .new (receivers receiver).1 (receivers receiver).2
  sent := []
  reports := []

def step (self : Network W C F P) : NetworkAction → Result (Network W C F P × NetworkReply)
  | .encode action => do
    let (encoder, reply) ← self.encoder.act action
    pure ({ self with encoder, sent := self.sent ++ datagrams encoder reply }, .encoded reply)
  | .deliver receiver index =>
    match self.sent[index]? with
    | none => pure (self, .decoded (.ok []))
    | some datagram => do
      let (decoder, reply) ← (self.decoders receiver).processOne datagram.raw
      pure ({ self with
        decoders := Function.update self.decoders receiver decoder
        reports := self.reports ++ feedbackOf receiver reply }, .decoded reply)
  | .acknowledge index =>
    match self.reports[index]? with
    | none => pure (self, .acknowledged)
    | some (receiver, raw) => do
      let encoder ← self.encoder.recvFeedback receiver raw
      pure ({ self with encoder }, .acknowledged)

inductive Steps (self : Network W C F P) : NetworkAction → NetworkReply → Network W C F P → Prop
  | encoded {action : EncoderAction} {encoder : Encoder W C F} {reply : Except DelpError (List EncoderOutput)}
      (acted : self.encoder.act action = .ok (encoder, reply)) :
      Steps self (.encode action) (.encoded reply) { self with encoder, sent := self.sent ++ datagrams encoder reply }
  | handled {receiver : ReceiverId} {index : ℕ} {datagram : Datagram} {arrival : Arrival} {decoder : Decoder P} {reply : Reply}
      (found : self.sent[index]? = some datagram) (reads : arrival.Reads datagram.raw)
      (handled : (self.decoders receiver).handle arrival = .ok (decoder, reply)) :
      Steps self (.deliver receiver index) (.decoded reply) { self with
        decoders := Function.update self.decoders receiver decoder
        reports := self.reports ++ feedbackOf receiver reply }
  | dropped (receiver : ReceiverId) (index : ℕ) : Steps self (.deliver receiver index) (.decoded (.ok [])) self
  | acknowledged {index : ℕ} {receiver : ReceiverId} {raw : Bytes} {packet : FeedbackPacket} {encoder : Encoder W C F}
      (found : self.reports[index]? = some (receiver, raw)) (parsed : FeedbackPacket.parse raw = .ok packet)
      (acted : self.encoder.act (.feedback receiver packet) = .ok (encoder, .ok [])) :
      Steps self (.acknowledge index) .acknowledged { self with encoder }
  | ignored (index : ℕ) : Steps self (.acknowledge index) .acknowledged self

omit [WindowPolicy W] [CongestionControl C] [FecRateController F] in
theorem processOne_ok {self after : Decoder P} {raw : Bytes} {reply : Reply}
    (processed : self.processOne raw = .ok (after, reply)) :
    after = self ∧ reply = .ok [] ∨ ∃ arrival : Arrival, arrival.Reads raw ∧ self.handle arrival = .ok (after, reply) := by
  rcases unlessMalformed_ok processed with same | ⟨hdr, _, processed⟩
  · cases same
    exact .inl ⟨rfl, rfl⟩
  rcases unlessMalformed_ok processed with same | ⟨kind, _, processed⟩
  · cases same
    exact .inl ⟨rfl, rfl⟩
  cases kind with
  | source =>
    rcases unlessMalformed_ok processed with same | ⟨packet, parsed, handled⟩
    · cases same
      exact .inl ⟨rfl, rfl⟩
    · exact .inr ⟨.source packet, parsed, handled⟩
  | coded =>
    rcases unlessMalformed_ok processed with same | ⟨packet, parsed, handled⟩
    · cases same
      exact .inl ⟨rfl, rfl⟩
    · exact .inr ⟨.coded packet, parsed, handled⟩
  | feedback =>
    cases processed
    exact .inl ⟨rfl, rfl⟩

theorem step_ok {self after : Network W C F P} {action : NetworkAction} {reply : NetworkReply}
    (stepped : self.step action = .ok (after, reply)) : Steps self action reply after := by
  cases action with
  | encode action =>
    obtain ⟨⟨encoder, reply⟩, acted, same⟩ := Outcome.bind_eq_ok.mp stepped
    cases same
    exact .encoded acted
  | deliver receiver index =>
    rw [step] at stepped
    split at stepped
    · cases stepped
      exact .dropped receiver index
    next datagram found =>
      obtain ⟨⟨decoder, reply⟩, processed, same⟩ := Outcome.bind_eq_ok.mp stepped
      cases same
      rcases processOne_ok processed with ⟨rfl, rfl⟩ | ⟨arrival, reads, handled⟩
      · rw [Function.update_eq_self, show feedbackOf receiver (.ok []) = [] from rfl, List.append_nil]
        exact .dropped receiver index
      · exact .handled found reads handled
  | acknowledge index =>
    rw [step] at stepped
    split at stepped
    · cases stepped
      exact .ignored index
    next receiver raw found =>
      obtain ⟨encoder, received, same⟩ := Outcome.bind_eq_ok.mp stepped
      cases same
      rcases unlessMalformed_ok received with rfl | ⟨packet, parsed, handled⟩
      · exact .ignored index
      · refine .acknowledged found parsed ?_
        rw [Encoder.act, handled]
        rfl

end Steps
end Network
end Delp
