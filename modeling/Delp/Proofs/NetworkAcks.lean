import Delp.Proofs.AckReports
import Delp.Proofs.CodedFront
import Delp.Proofs.FeedbackReports
import Delp.Proofs.NetworkGaps
import Delp.Proofs.PacketKinds
import Delp.Proofs.TrueEquations
import Delp.Proofs.WindowLookup

/-! What the encoder takes for acknowledged while its coded packets cover the whole window. A decoder
moves past an id only once it knows it, or once the window has moved past it. -/

namespace Delp
open Machine

/-- The window has moved past an id: it holds only higher ones, and the next one is higher too. -/
def EncodingWindow.Past (window : EncodingWindow) (id : SourceSymbolId) : Prop :=
  id < window.nextId ∧ ∀ held ∈ window.idSlice, id < held

/-- What an encoder does that covers its whole window whenever it codes, and hears from its receivers only. -/
def NetworkAction.FullWindow : NetworkAction → Prop
  | .encode (.submit _) | .encode .coded | .deliver _ _ | .acknowledge _ => True
  | .encode _ => False

instance : DecidablePred NetworkAction.FullWindow
  | .encode (.submit _) | .encode .coded | .deliver _ _ | .acknowledge _ => isTrue trivial
  | .encode (.feedback _ _) | .encode (.targeted _) | .encode (.recent _) | .encode (.forReceiver _) => isFalse id

namespace Encoder
variable {W C F : Type} {config : EncoderConfig} {self after : Encoder W C F} {submitted : List Bytes}

section Past
variable [CongestionControl C]

theorem Codes.past (sound : Sound config self submitted) (few : submitted.length < 4294967296) {bytes : Bytes}
    (codes : self.Codes self.window.idSlice bytes after) {packet : CodedPacket} (parsed : CodedPacket.parse bytes = .ok packet)
    {first id : SourceSymbolId} (head : first ∈ packet.ev.sourceIds.head?) (below : id < first) : self.window.Past id := by
  obtain ⟨coefs, ev, payload, coded, _, serialised⟩ := codes.packet
  obtain ⟨_, _, listed, built, _⟩ := coefficientsFor_built (by rw [sound.configured]; exact sound.counts) codes.nonempty coded
  obtain ⟨_, ids, _, _, format⟩ := built.shape
  have same := CodedPacket.first_of_serialise serialised (IdStorage.bestFor_cases format) parsed first head
  obtain ⟨_, ascending, inside⟩ := sound.ordered few
  obtain ⟨lowest, rest, window⟩ := List.exists_cons_of_ne_nil codes.nonempty
  rw [ids, window, List.head?_cons, Option.getD_some] at same
  subst same
  have least (held : SourceSymbolId) (member : held ∈ self.window.idSlice) : id < held := by
    rw [window] at member ascending
    rcases List.mem_cons.mp member with rfl | later
    · exact below
    · exact UInt32.lt_trans below ((List.pairwise_cons.mp ascending).1 held later)
  have front : first ∈ self.window.idSlice := by rw [window]; exact List.mem_cons_self
  exact ⟨UInt32.lt_trans below (inside first front), least⟩

variable [WindowPolicy W] [FecRateController F]

/-- What is past stays past, until the counter wraps. -/
theorem Acts.past (sound : Sound config self submitted) {action : EncoderAction} {reply : Except DelpError (List EncoderOutput)}
    (acts : Acts self action reply after) (few : (submitted ++ acceptedBy action reply).length < 4294967296) {id : SourceSymbolId}
    (past : self.window.Past id) : after.window.Past id := by
  have before := (sound.ordered (by rw [List.length_append] at few; omega)).1
  have counter := ((sound.acts acts).ordered few).1
  constructor
  · have low := (lt_iff _ _).mp past.1
    rw [lt_iff, counter, List.length_append]
    omega
  · intro held member
    rcases sound.acts_ids acts with ⟨_, subset⟩ | ⟨_, ids⟩
    · exact past.2 held (subset member)
    · rw [ids] at member
      rcases List.mem_append.mp member with kept | new
      · exact past.2 held (self.kept_subset kept)
      · rw [List.mem_singleton.mp new]
        exact past.1

theorem Acts.acks (sound : Sound config self submitted) {action : EncoderAction} {reply : Except DelpError (List EncoderOutput)}
    (acts : Acts self action reply after) {receiver : ReceiverId} {id : SourceSymbolId}
    (acked : after.ackState.isAcked receiver id = true) :
    self.ackState.isAcked receiver id = true ∨ ∃ packet, action = .feedback receiver packet ∧ packet.Acknowledges id := by
  cases acts with
  | refused | idle => exact .inl acked
  | submitted sized made pushed serialised emits =>
    rw [((sound.pushed sized made pushed _ _).emits emits).2.2] at acked
    exact .inl acked
  | fed updated =>
    rcases (ReceiverAckState.update_isAcked updated).mp acked with before | ⟨rfl, acknowledges⟩
    · exact .inl before
    · exact .inr ⟨_, rfl, acknowledges⟩
  | coded _ codes =>
    rw [(sound.codes codes).2.2] at acked
    exact .inl acked

/-- A packet of a call that submits a symbol or covers the whole window has only past ids below its first. -/
theorem Acts.sent_past (sound : Sound config self submitted) {action : EncoderAction} {outputs : List EncoderOutput}
    (acts : Acts self action (.ok outputs) after) (full : (NetworkAction.encode action).FullWindow)
    (few : (submitted ++ acceptedBy action (.ok outputs)).length < 4294967296)
    {output : EncoderOutput} (member : output ∈ outputs) {packet : CodedPacket} (parsed : CodedPacket.parse output.raw = .ok packet)
    {first id : SourceSymbolId} (head : first ∈ packet.ev.sourceIds.head?) (below : id < first) : after.window.Past id := by
  cases acts with
  | submitted sized made pushed serialised emits =>
    have ready := sound.pushed sized made pushed
    rcases List.mem_cons.mp member with rfl | later
    · have typed := (parseAs_ok (show parseAs .coded _ = .ok (.coded packet) by
        rw [parseAs, show CodedPacket.parse _ = .ok packet from parsed]; rfl)).2 (by decide)
      rw [EncoderOutput.raw, serialised_typed.1 serialised] at typed
      exact absurd typed (by decide)
    · obtain ⟨bytes, rfl⟩ := emits.coded.1 _ later
      obtain ⟨middle, next, middleSound, window, codes⟩ := emits.coded_mem (ready _ _) later
      rw [← window] at codes
      rw [((ready _ _).emits emits).2.1, ← window]
      exact codes.past middleSound few parsed head below
  | fed => cases member
  | idle => cases member
  | coded generates codes =>
    cases List.mem_singleton.mp member
    cases action with
    | submit | feedback => exact generates.elim
    | targeted | recent | forReceiver => exact full.elim
    | coded =>
      rw [(sound.codes codes).2.1]
      exact codes.past sound (by rw [List.length_append] at few; omega) parsed head below

end Past
end Encoder

namespace Decoder
variable {P : Type}

/-- What a decoder takes for delivered or dropped, where `past` tells what the encoder's window has moved past. -/
structure Honest (past : SourceSymbolId → Prop) (state : Decoder P) : Prop where
  ahead : state.buffer.Ahead
  winMin : ∀ id < state.encoderWinMin, past id
  delivered : ∀ id < state.buffer.nextDeliveryId, id ∈ state.known ∨ past id
  buffered : ∀ id ∈ state.buffer.symbols, id ∈ state.known

theorem Honest.mono {past later : SourceSymbolId → Prop} {state : Decoder P} (honest : state.Honest past)
    (grows : ∀ id, past id → later id) : state.Honest later :=
  ⟨honest.ahead, fun id below => grows id (honest.winMin id below),
    fun id below => (honest.delivered id below).imp_right (grows id), honest.buffered⟩

variable [FeedbackPolicy P]

/-- An arrival that raises the window minimum over past ids only keeps a decoder honest, and so is the feedback on it. -/
theorem Honest.handle {past : SourceSymbolId → Prop} {before after : Decoder P} {arrival : Arrival} {reply : Reply}
    (honest : before.Honest past) (floor : ∀ id < before.floor arrival, past id)
    (handled : before.handle arrival = .ok (after, reply)) :
    after.Honest past ∧ (∀ id ∈ before.known, id ∈ after.known) ∧
      ∀ events bytes packet id, reply = .ok events → .sendFeedback bytes ∈ events → FeedbackPacket.parse bytes = .ok packet →
        packet.Acknowledges id → id ∈ after.known ∨ past id := by
  cases reply with
  | error error =>
    have refuses := handle_error handled
    refine ⟨⟨?_, ?_, ?_, ?_⟩, ?_, fun _ _ _ _ impossible => (nomatch impossible)⟩
    · rw [refuses.buffer]
      exact honest.ahead
    · rcases refuses.winMin with same | same
      · rw [same]
        exact honest.winMin
      · rw [same]
        exact floor
    · rw [refuses.buffer, refuses.known]
      exact honest.delivered
    · rw [refuses.buffer, refuses.known]
      exact honest.buffered
    · rw [refuses.known]
      exact fun _ member => member
  | ok events =>
    obtain ⟨matrix, gained, takes⟩ := handle_ok handled
    have ahead := SymbolBuffer.absorb_ahead honest.ahead gained
    have settles := SymbolBuffer.settles ahead (before.floor arrival)
    have drains := settles.drains
    have learned (id : SourceSymbolId) : id ∈ after.known ↔ id ∈ before.known ∨ id ∈ gained.map (·.1) := by
      rw [takes.known, KnownSources.mem_learn]
    have absorbed (id : SourceSymbolId) (held : id ∈ (before.buffer.absorb gained).symbols) : id ∈ after.known :=
      (learned id).mpr ((SymbolBuffer.mem_absorb.mp held).imp (honest.buffered id) And.left)
    -- what the drain passes is known, unless it has wrapped to 0
    have drained (id : SourceSymbolId) (below : id < (before.buffer.absorb gained).drainDeliverable.1.nextDeliveryId) :
        id ∈ after.known ∨ past id := by
      by_cases inside : (before.buffer.absorb gained).nextDeliveryId.toNat +
          (before.buffer.absorb gained).drainDeliverable.2.length < 4294967296
      · rw [lt_iff, drains.pointer_of_lt inside] at below
        by_cases old : id < before.buffer.nextDeliveryId
        · exact (honest.delivered id old).imp_left fun known => (learned id).mpr (.inl known)
        · refine .inl (absorbed id (drains.out_subset (drains.mem_out.mpr ⟨?_, below⟩)))
          rw [SymbolBuffer.absorb_next]
          exact UInt32.not_lt.mp old
      · rw [(drains.wrapped inside).1] at below
        exact absurd below UInt32.not_lt_zero
    have rest (id : SourceSymbolId) (held : id ∈ (before.buffer.absorb gained).drainDeliverable.1.symbols) : id ∈ after.known :=
      absorbed id (drains.mem_rest.mp held).2
    refine ⟨⟨?_, ?_, ?_, ?_⟩, fun id member => (learned id).mpr (.inl member), ?_⟩
    · rw [takes.buffer]
      exact settles.ahead
    · rw [takes.winMin]
      exact floor
    · intro id below
      rw [takes.buffer] at below
      rcases settles.ends with ⟨_, same, _⟩ | ⟨above, same, _⟩
      · rw [same] at below
        exact drained id below
      · rw [same, SymbolBuffer.Settles.pruned_next above] at below
        exact .inr (floor id below)
    · intro id held
      rw [takes.buffer] at held
      rcases settles.ends with ⟨_, same, _⟩ | ⟨_, same, _⟩
      · rw [same] at held
        exact rest id held
      · rw [same] at held
        exact rest id (SymbolBuffer.mem_pruneBelow.mp held).1
    · intro _ bytes packet id same sent parsed acknowledges
      cases same
      obtain ⟨feedback, kind, rfl⟩ := takes.events
      have listed : .sendFeedback bytes ∈ feedback := by
        have silent : DecoderEvent.sendFeedback bytes ∉ (before.buffer.absorb gained).gapTo (before.floor arrival) := by
          unfold SymbolBuffer.gapTo
          dsimp only
          split <;> simp
        simpa [SymbolBuffer.readyEvents, silent] using sent
      obtain ⟨first, acked⟩ := Feedback.acknowledges kind listed parsed
      rcases acknowledges with below | ⟨ids, returned, member⟩
      · exact drained id (first ▸ below)
      · exact .inl (rest id (acked ids returned id member))

end Decoder

theorem EncodingWindow.mem_of_removed {window : EncodingWindow} {removed : List SourceSymbolId} {id : SourceSymbolId}
    (held : id ∈ window.idSlice) (gone : id ∉ (window.removeIds removed).idSlice) : id ∈ removed := by
  by_contra kept
  refine gone ?_
  unfold removeIds
  split
  · exact held
  · obtain ⟨s, member, rfl⟩ := List.mem_map.mp held
    exact List.mem_map_of_mem (List.mem_filter.mpr ⟨member, by simpa using kept⟩)

namespace Network
variable {W C F P : Type}

def accepted (calls : List (Call (Network W C F P) NetworkAction NetworkReply)) : List Bytes :=
  calls.flatMap fun call => match call.input, call.output with
    | .encode action, .encoded reply => Encoder.acceptedBy action reply
    | _, _ => []

theorem accepted_append (calls : List (Call (Network W C F P) NetworkAction NetworkReply))
    (call : Call (Network W C F P) NetworkAction NetworkReply) : accepted (calls ++ [call]) = accepted calls ++ accepted [call] :=
  List.flatMap_append

/-- A receiver knows the symbol, or the encoder's window has moved past it. -/
def Settled (state : Network W C F P) (receiver : ReceiverId) (id : SourceSymbolId) : Prop :=
  id ∈ (state.decoders receiver).known ∨ state.encoder.window.Past id

structure Honest (state : Network W C F P) : Prop where
  sent : ∀ datagram ∈ state.sent, ∀ packet, CodedPacket.parse datagram.raw = .ok packet →
    ∀ first ∈ packet.ev.sourceIds.head?, ∀ id < first, state.encoder.window.Past id
  decoders : ∀ receiver, (state.decoders receiver).Honest state.encoder.window.Past
  reports : ∀ report ∈ state.reports, ∀ packet, FeedbackPacket.parse report.2 = .ok packet →
    ∀ id, packet.Acknowledges id → state.Settled report.1 id
  acks : ∀ receiver id, state.encoder.ackState.isAcked receiver id = true → state.Settled receiver id

/-- Every windowed symbol that the encoder takes for acknowledged is known to its receiver. -/
def AcksHeld (state : Network W C F P) : Prop :=
  ∀ receiver, ∀ id ∈ state.encoder.window.idSlice, state.encoder.ackState.isAcked receiver id = true →
    id ∈ (state.decoders receiver).known

/-- Every symbol that feedback removes from the window is known to all receivers that the encoder has heard of. -/
def RemovalsHeld (calls : List (Call (Network W C F P) NetworkAction NetworkReply)) : Prop :=
  ∀ call ∈ calls, ∀ index, call.input = .acknowledge index → ∀ id ∈ call.before.encoder.window.idSlice,
    id ∉ call.after.encoder.window.idSlice → ∀ receiver ∈ call.after.encoder.ackState.receiverIds,
      id ∈ (call.after.decoders receiver).known

theorem Settled.known {state : Network W C F P} {receiver : ReceiverId} {id : SourceSymbolId} (settled : state.Settled receiver id)
    (held : id ∈ state.encoder.window.idSlice) : id ∈ (state.decoders receiver).known :=
  settled.resolve_right fun past => absurd (past.2 id held) (UInt32.lt_irrefl id)

theorem Honest.acksHeld {state : Network W C F P} (honest : state.Honest) : state.AcksHeld :=
  fun receiver id held acked => (honest.acks receiver id acked).known held

theorem new_honest (config : EncoderConfig) (windowPolicy : W) (cc : C) (fec : F) (receivers : ReceiverId → DecoderConfig × P) :
    (new config windowPolicy cc fec receivers).Honest := by
  refine ⟨fun _ member => (List.not_mem_nil member).elim, fun receiver => ⟨SymbolBuffer.new_ahead 0, ?_, ?_, ?_⟩,
    fun _ member => (List.not_mem_nil member).elim, fun receiver id acked => ?_⟩
  · exact fun id below => absurd below UInt32.not_lt_zero
  · exact fun id below => absurd below UInt32.not_lt_zero
  · intro id held
    exact absurd held Std.TreeMap.not_mem_emptyc
  · rw [new, Encoder.new, ReceiverAckState.isAcked, Std.TreeMap.getElem?_emptyc] at acked
    cases acked

variable [WindowPolicy W] [CongestionControl C] [FecRateController F] [FeedbackPolicy P]

omit [FeedbackPolicy P] in
private theorem Honest.encode {config : EncoderConfig} {state : Network W C F P} {submitted : List Bytes} (honest : state.Honest)
    (sound : Encoder.Sound config state.encoder submitted) {action : EncoderAction} {encoder : Encoder W C F}
    {reply : Except DelpError (List EncoderOutput)} (acts : Encoder.Acts state.encoder action reply encoder)
    (few : (submitted ++ Encoder.acceptedBy action reply).length < 4294967296)
    (acks : ∀ receiver id, encoder.ackState.isAcked receiver id = true → state.Settled receiver id) :
    Honest { state with encoder } := by
  have past (id : SourceSymbolId) (before : state.encoder.window.Past id) : encoder.window.Past id := acts.past sound few before
  have settled (receiver : ReceiverId) (id : SourceSymbolId) (before : state.Settled receiver id) :
      Settled { state with encoder } receiver id := before.imp_right (past id)
  exact ⟨fun datagram member packet parsed first head id below => past id (honest.sent datagram member packet parsed first head id below),
    fun receiver => (honest.decoders receiver).mono past,
    fun report member packet parsed id acknowledges => settled _ id (honest.reports report member packet parsed id acknowledges),
    fun receiver id acked => settled receiver id (acks receiver id acked)⟩

theorem sound_step {config : EncoderConfig} {calls : List (Call (Network W C F P) NetworkAction NetworkReply)}
    {before after : Network W C F P} {action : NetworkAction} {reply : NetworkReply}
    (sound : Encoder.Sound config before.encoder (accepted calls)) (steps : Steps before action reply after) :
    Encoder.Sound config after.encoder (accepted (calls ++ [⟨before, action, after, reply⟩])) := by
  rw [accepted_append]
  have quiet (same : accepted [⟨before, action, after, reply⟩] = []) (kept : after.encoder = before.encoder) :
      Encoder.Sound config after.encoder (accepted calls ++ accepted [⟨before, action, after, reply⟩]) := by
    rwa [same, List.append_nil, kept]
  cases steps with
  | encoded acted =>
    have next := sound.acts (Encoder.act_ok acted)
    rwa [← List.append_nil (Encoder.acceptedBy _ _)] at next
  | acknowledged _ _ acted => exact sound.acts (Encoder.act_ok acted)
  | handled | dropped | ignored => exact quiet rfl rfl

theorem Honest.step {config : EncoderConfig} {calls : List (Call (Network W C F P) NetworkAction NetworkReply)}
    {before after : Network W C F P} {action : NetworkAction} {reply : NetworkReply} (honest : before.Honest)
    (sound : Encoder.Sound config before.encoder (accepted calls)) (steps : Steps before action reply after)
    (full : action.FullWindow) (few : (accepted (calls ++ [⟨before, action, after, reply⟩])).length < 4294967296) :
    after.Honest := by
  rw [accepted_append] at few
  cases steps with
  | @encoded action encoder reply acted =>
    have acts := Encoder.act_ok acted
    have few : (accepted calls ++ Encoder.acceptedBy action reply).length < 4294967296 := by
      rwa [← List.append_nil (Encoder.acceptedBy _ _)]
    have next := honest.encode sound acts few fun receiver id acked => by
      rcases acts.acks sound acked with earlier | ⟨packet, rfl, _⟩
      · exact honest.acks receiver id earlier
      · exact full.elim
    refine ⟨fun datagram member packet parsed first head id below => ?_, next.decoders, next.reports, next.acks⟩
    rcases List.mem_append.mp member with old | new
    · exact next.sent datagram old packet parsed first head id below
    · cases reply with
      | error => cases new
      | ok outputs =>
        obtain ⟨output, listed, rfl⟩ := List.mem_map.mp new
        exact acts.sent_past sound full few listed parsed head below
  | @acknowledged index receiver raw packet encoder found parsed acted =>
    have acts := Encoder.act_ok acted
    refine honest.encode sound acts few fun other id acked => ?_
    rcases acts.acks sound acked with earlier | ⟨claimed, same, acknowledges⟩
    · exact honest.acks other id earlier
    · cases same
      exact honest.reports (_, raw) (List.mem_of_getElem? found) packet parsed id acknowledges
  | @handled receiver index datagram arrival decoder reply found reads handled =>
    have own := honest.decoders receiver
    have floor (id : SourceSymbolId) (below : id < (before.decoders receiver).floor arrival) : before.encoder.window.Past id := by
      rcases (before.decoders receiver).floor_eq arrival with same | ⟨packet, rfl, head, _⟩
      · exact own.winMin id (same ▸ below)
      · exact honest.sent datagram (List.mem_of_getElem? found) packet reads _ head id below
    obtain ⟨honestAfter, learned, feedback⟩ := own.handle floor handled
    have settled (other : ReceiverId) (id : SourceSymbolId) (settled : before.Settled other id) :
        Settled { before with
          decoders := Function.update before.decoders receiver decoder
          reports := before.reports ++ feedbackOf receiver reply } other id := by
      refine settled.imp_left fun known => ?_
      exact (Function.forall_update_iff before.decoders fun other decoder =>
        id ∈ (before.decoders other).known → id ∈ decoder.known).mpr ⟨learned id, fun _ _ same => same⟩ other known
    refine ⟨honest.sent, ?_, fun report member packet parsed id acknowledges => ?_, fun other id acked =>
      settled other id (honest.acks other id acked)⟩
    · exact (Function.forall_update_iff before.decoders fun _ decoder => decoder.Honest before.encoder.window.Past).mpr
        ⟨honestAfter, fun other _ => honest.decoders other⟩
    · rcases List.mem_append.mp member with old | new
      · exact settled _ id (honest.reports report old packet parsed id acknowledges)
      · cases reply with
        | error => cases new
        | ok events =>
          obtain ⟨event, listed, same⟩ := List.mem_filterMap.mp new
          cases event with
          | sendFeedback bytes =>
            cases same
            have own := feedback events bytes packet id rfl listed parsed acknowledges
            rw [← Function.update_self receiver decoder before.decoders] at own
            exact own
          | sourceReady | unrecoverableGap => cases same
  | dropped | ignored => exact honest

section Runs
variable {config : EncoderConfig} {windowPolicy : W} {cc : C} {fec : F} {receivers : ReceiverId → DecoderConfig × P}
  {calls : List (Call (Network W C F P) NetworkAction NetworkReply)} {final : Network W C F P}

theorem run_honest (run : Run step (new config windowPolicy cc fec receivers) calls final)
    (full : ∀ call ∈ calls, call.input.FullWindow) (few : (accepted calls).length < 4294967296) :
    Encoder.Sound config final.encoder (accepted calls) ∧ final.Honest := by
  suffices kept : Encoder.Sound config final.encoder (accepted calls) ∧
      ((accepted calls).length < 4294967296 → final.Honest) from ⟨kept.1, kept.2 few⟩
  refine run.preserves (fun calls state => Encoder.Sound config state.encoder (accepted calls) ∧
    ((accepted calls).length < 4294967296 → state.Honest)) (fun call => call.input.FullWindow)
    ⟨Encoder.new_sound _ _ _ _, fun _ => new_honest _ _ _ _ _⟩ ?_ full
  intro calls before action after reply ⟨sound, honest⟩ stepped full
  have steps := step_ok stepped
  refine ⟨sound_step sound steps, fun few => ?_⟩
  refine (honest ?_).step sound steps full few
  rw [accepted_append, List.length_append] at few
  omega

theorem AllAckPolicy.acked {policy after : AllAckPolicy} {acks : ReceiverAckState} {ids removed : List SourceSymbolId}
    (chosen : WindowPolicy.symbolsToRemove policy acks ids = (removed, after)) {id : SourceSymbolId} (member : id ∈ removed)
    {receiver : ReceiverId} (heard : receiver ∈ acks.receiverIds) : acks.isAcked receiver id = true := by
  unfold WindowPolicy.symbolsToRemove instWindowPolicyAllAckPolicy at chosen
  dsimp only at chosen
  split at chosen
  · cases chosen
    cases member
  · cases chosen
    exact List.all_eq_true.mp (List.mem_filter.mp member).2 receiver heard

omit [WindowPolicy W] in
theorem removals_held {policy : AllAckPolicy} {calls : List (Call (Network AllAckPolicy C F P) NetworkAction NetworkReply)}
    {final : Network AllAckPolicy C F P} (run : Run step (new config policy cc fec receivers) calls final)
    (full : ∀ call ∈ calls, call.input.FullWindow) (few : (accepted calls).length < 4294967296) : RemovalsHeld calls := by
  intro call member index input id held gone receiver heard
  obtain ⟨earlier, before, inside, stepped⟩ := run.at_call member
  obtain ⟨later, same⟩ := inside
  subst same
  rw [List.append_assoc, accepted, List.flatMap_append, List.length_append] at few
  obtain ⟨_, honest⟩ := run_honest before (fun call member => full call (by simp [member]))
    (Nat.lt_of_le_of_lt (Nat.le_add_right _ _) few)
  obtain ⟨state, action, after, reply⟩ := call
  cases input
  dsimp only at held gone heard stepped honest ⊢
  cases step_ok stepped with
  | ignored => exact absurd held gone
  | @acknowledged _ sender raw packet encoder found parsed acted =>
    cases Encoder.act_ok acted with
    | @fed _ _ acks removed _ _ _ updated chosen =>
      have acked := AllAckPolicy.acked chosen (EncodingWindow.mem_of_removed held gone) heard
      rcases (ReceiverAckState.update_isAcked updated).mp acked with earlier | ⟨rfl, acknowledges⟩
      · exact (honest.acks receiver id earlier).known held
      · exact (honest.reports (_, raw) (List.mem_of_getElem? found) packet parsed id acknowledges).known held
    | idle generates => exact generates.elim

/-- With full windows and fewer than 2³² submissions, every windowed symbol that is taken for acknowledged is known to its
receiver, and what feedback removes under `AllAckPolicy` is known to every receiver heard of. -/
theorem acknowledged_held (config : EncoderConfig) (cc : C) (fec : F) (receivers : ReceiverId → DecoderConfig × P) :
    (∀ (W : Type) [WindowPolicy W] (windowPolicy : W) (calls : List (Call (Network W C F P) NetworkAction NetworkReply)) final,
      Run step (new config windowPolicy cc fec receivers) calls final → (∀ call ∈ calls, call.input.FullWindow) →
      (accepted calls).length < 4294967296 → final.AcksHeld) ∧
    ∀ (policy : AllAckPolicy) (calls : List (Call (Network AllAckPolicy C F P) NetworkAction NetworkReply)) final,
      Run step (new config policy cc fec receivers) calls final → (∀ call ∈ calls, call.input.FullWindow) →
      (accepted calls).length < 4294967296 → RemovalsHeld calls :=
  ⟨fun _ _ _ _ _ run full few => (run_honest run full few).2.acksHeld, fun _ _ _ run full few => removals_held run full few⟩

end Runs

/-- The receiver of the first of two symbols acknowledges it, and the encoder drops it. -/
theorem acknowledged_held_first :
    ∃ (calls : List (Call (Network AllAckPolicy NoCongestionControl ConstantFecRate ImmediateFeedbackPolicy) NetworkAction
        NetworkReply)) (final : Network AllAckPolicy NoCongestionControl ConstantFecRate ImmediateFeedbackPolicy),
      Run step (new Encoder.smallConfig ⟨⟩ {} ⟨0, 1, 0⟩ smallReceivers) calls final ∧ final.encoder.window.idSlice = [1] ∧
        final.AcksHeld ∧ RemovalsHeld calls := by
  obtain ⟨calls, final, run, check⟩ := Run.exists_of_check step
    (new Encoder.smallConfig ⟨⟩ {} ⟨0, 1, 0⟩ smallReceivers : Network AllAckPolicy NoCongestionControl ConstantFecRate
      ImmediateFeedbackPolicy)
    [.encode (.submit [1]), .encode (.submit [2]), .encode .coded, .deliver 0 0, .acknowledge 0]
    (fun result => decide (result.2.encoder.window.idSlice = [1]) && decide ((accepted result.1).length = 2) &&
      result.1.all fun call => decide call.input.FullWindow) (by decide +kernel)
  obtain ⟨shape, full⟩ := Bool.and_eq_true_iff.mp check
  obtain ⟨window, count⟩ := Bool.and_eq_true_iff.mp shape
  have full (call) (member : call ∈ calls) : call.input.FullWindow := of_decide_eq_true (List.all_eq_true.mp full call member)
  have few : (accepted calls).length < 4294967296 := by
    rw [of_decide_eq_true count]
    decide
  obtain ⟨acks, removals⟩ := acknowledged_held Encoder.smallConfig ({} : NoCongestionControl) (⟨0, 1, 0⟩ : ConstantFecRate)
    smallReceivers
  exact ⟨calls, final, run, of_decide_eq_true window, acks _ _ _ _ run full few, removals _ _ _ run full few⟩

end Network
end Delp
