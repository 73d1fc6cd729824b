import Delp.Proofs.Link
import Delp.Transport.Session

/-! Two sessions that face each other, each with one socket for both of its halves. Either direction is a link, whichever half of a
session takes a datagram from the socket. -/

namespace Delp
open Machine

inductive Side where
  | left
  | right
deriving DecidableEq, Repr

def Side.other : Side → Side
  | .left => .right
  | .right => .left

theorem Side.other_ne (side : Side) : side.other ≠ side := by
  cases side <;> decide

theorem Side.other_other (side : Side) : side.other.other = side := by
  cases side <;> rfl

theorem Side.eq_or_other (side target : Side) : target = side ∨ target = side.other := by
  cases side <;> cases target <;> decide

structure Peer (W C F P : Type) where
  config : EncoderConfig
  windowPolicy : W
  cc : C
  fec : F
  decoder : DecoderConfig
  feedbackPolicy : P

def Peer.session {W C F P : Type} [WindowPolicy W] [CongestionControl C] [FecRateController F] [FeedbackPolicy P] (self : Peer W C F P) :
    DelpSession W C F P :=
  .new (.new self.config self.windowPolicy self.cc self.fec) (.new self.decoder self.feedbackPolicy)

namespace SessionBuilder

theorem build_returns (self : SessionBuilder) (bound : Except SocketError Unit) : (self.build bound).Returns := by
  unfold build
  dsimp only
  split
  next => exact Outcome.returns_ok _
  next => exact Outcome.returns_ok _
  next reason panicked =>
    unfold EncoderConfigBuilder.build at panicked
    repeat' split at panicked
    all_goals cases panicked
  next reason _ panicked =>
    unfold DecoderConfigBuilder.build at panicked
    split at panicked <;> cases panicked
  next encCfg decCfg built _ =>
    have valid := EncoderConfigBuilder.build_valid built
    rw [DefaultEncoder.withDefaults, ConstantFecRate.new, Outcome.require, if_pos valid.denom]
    cases bound <;> exact Outcome.returns_ok _

theorem build_ok {self : SessionBuilder} {bound : Except SocketError Unit} {session : DefaultSession}
    (built : self.build bound = .ok (.ok session)) :
    ∃ peer : Peer AnyAckPolicy NoCongestionControl ConstantFecRate ConstantFeedbackPolicy, session = peer.session ∧ peer.config.Valid ∧
      peer.config.symbolSize = self.symbolSize ∧ peer.config.field = self.field ∧
      peer.decoder.symbolSize = self.symbolSize ∧ peer.decoder.field = self.field := by
  unfold build at built
  dsimp only at built
  split at built
  next => cases built
  next => cases built
  next => cases built
  next => cases built
  next encCfg decCfg encoded decoded =>
    have valid := EncoderConfigBuilder.build_valid encoded
    obtain ⟨encoder, made, built⟩ := Outcome.bind_eq_ok.mp built
    obtain ⟨fec, _, made⟩ := Outcome.bind_eq_ok.mp made
    obtain ⟨decoder, made', built⟩ := Outcome.bind_eq_ok.mp built
    obtain ⟨policy, _, made'⟩ := Outcome.bind_eq_ok.mp made'
    cases made
    cases made'
    cases bound with
    | error error => cases built
    | ok =>
      cases built
      have sizes : encCfg.symbolSize = self.symbolSize ∧ encCfg.field = self.field := by
        unfold EncoderConfigBuilder.build at encoded
        repeat' split at encoded
        all_goals cases encoded
        exact ⟨rfl, rfl⟩
      have sizes' : decCfg.symbolSize = self.symbolSize ∧ decCfg.field = self.field := by
        unfold DecoderConfigBuilder.build at decoded
        split at decoded <;> cases decoded
        exact ⟨rfl, rfl⟩
      exact ⟨⟨encCfg, {}, {}, fec, decCfg, policy⟩, rfl, valid, sizes.1, sizes.2, sizes'.1, sizes'.2⟩

end SessionBuilder

structure Duplex (W C F P : Type) where
  sessions : Side → DelpSession W C F P
  /-- What each side has put on the wire so far, packets and feedback. -/
  wires : Side → List Bytes

abbrev DuplexAction := Side × SessionAction

/-- `none` for a call that needs a datagram that has not been sent. -/
abbrev DuplexReply := Option SessionReturn

namespace Duplex
variable {W C F P : Type}

/-- What a call takes for packets is on the wire of the other side, or no packet at all. What it takes for feedback may be anything. -/
def arrives (self : Duplex W C F P) : DuplexAction → Bool
  | (_, .sender _) => true
  | (side, .receiver action) => action.raws.all fun raw => (self.wires side.other).contains raw || (Arrival.ofRaw raw).isNone

section Steps
variable [WindowPolicy W] [CongestionControl C] [FecRateController F] [FeedbackPolicy P]

def new (peers : Side → Peer W C F P) : Duplex W C F P where
  sessions side := (peers side).session
  wires _ := []

def step (self : Duplex W C F P) (input : DuplexAction) : Result (Duplex W C F P × DuplexReply) :=
  if self.arrives input then do
    let (session, reply) ← (self.sessions input.1).act input.2
    pure ({
      sessions := Function.update self.sessions input.1 session
      wires := Function.update self.wires input.1 (self.wires input.1 ++ reply.sent) }, some reply)
  else pure (self, none)

end Steps

def accepted (side : Side) (calls : List (Call (Duplex W C F P) DuplexAction DuplexReply)) : List Bytes :=
  calls.flatMap fun call => match call.input, call.output with
    | (target, .sender action), some (.sender reply) => if target = side then action.accepted reply else []
    | _, _ => []

def replyTo (side : Side) (call : Call (Duplex W C F P) DuplexAction DuplexReply) : Option ReceiverReply :=
  match call.input, call.output with
  | (target, .receiver _), some (.receiver reply) => if target = side then some reply else none
  | _, _ => none

def replies (side : Side) (calls : List (Call (Duplex W C F P) DuplexAction DuplexReply)) : List ReceiverReply :=
  calls.filterMap (replyTo side)

def handed (side : Side) (calls : List (Call (Duplex W C F P) DuplexAction DuplexReply)) : List (SourceSymbolId × Bytes) :=
  (replies side calls).flatMap (·.handed)

def read (side : Side) (calls : List (Call (Duplex W C F P) DuplexAction DuplexReply)) : List Arrival :=
  ((replies side calls).flatMap (·.taken)).filterMap Arrival.ofRaw

/-- The covers of the coded packets that a call may make fit the wire format. -/
def CoversFit (call : Call (Duplex W C F P) DuplexAction DuplexReply) : Prop :=
  match call.input with
  | (side, .sender action) => (call.before.sessions side).sender.CoversFit action
  | (_, .receiver _) => True

end Duplex

theorem FeedbackPacket.serialise_unread (packet : FeedbackPacket) : Arrival.ofRaw packet.serialise = none := by
  cases found : Arrival.ofRaw packet.serialise with
  | none => rfl
  | some arrival =>
    have kind : PacketType.feedback.toU8 = arrival.kind.toU8 := (Arrival.ofRaw_eq_some.mp found).typed.2
    cases arrival with
    | source packet => exact absurd kind (show PacketType.feedback.toU8 ≠ PacketType.source.toU8 by decide)
    | coded packet => exact absurd kind (show PacketType.feedback.toU8 ≠ PacketType.coded.toU8 by decide)

namespace Decoder
variable {P : Type} [FeedbackPolicy P]

theorem handle_unread {self after : Decoder P} {arrival : Arrival} {reply : Reply}
    (handled : self.handle arrival = .ok (after, reply)) : ∀ raw ∈ reply.events.filterMap (·.feedback), Arrival.ofRaw raw = none := by
  cases reply with
  | error error => exact fun _ member => (List.not_mem_nil member).elim
  | ok events =>
    intro raw member
    obtain ⟨event, listed, carries⟩ := List.mem_filterMap.mp member
    obtain ⟨matrix, gained, takes⟩ := handle_ok handled
    obtain ⟨feedback, kind, rfl⟩ := takes.events
    rcases List.mem_append.mp listed with front | gap
    · rcases List.mem_append.mp front with ready | own
      · obtain ⟨symbol, _, rfl⟩ := List.mem_map.mp ready
        cases carries
      · rcases kind with rfl | ⟨_, _, _, packet, _, rfl⟩
        · cases own
        · cases List.mem_singleton.mp own
          cases carries
          exact packet.serialise_unread
    · unfold SymbolBuffer.gapTo at gap
      dsimp only at gap
      split at gap
      · cases List.mem_singleton.mp gap
        cases carries
      · cases gap

theorem feedbackOf_unread {self final : Decoder P} {calls : List (Call (Decoder P) Arrival Reply)} (run : Run handle self calls final) :
    ∀ raw ∈ feedbackOf calls, Arrival.ofRaw raw = none := by
  intro raw member
  obtain ⟨call, listed, own⟩ := List.mem_flatMap.mp member
  obtain ⟨_, _, _, handled⟩ := run.at_call listed
  exact handle_unread handled raw own

end Decoder

namespace Duplex
variable {W C F P : Type} [WindowPolicy W] [CongestionControl C] [FecRateController F] [FeedbackPolicy P]
  {peers : Side → Peer W C F P} {calls : List (Call (Duplex W C F P) DuplexAction DuplexReply)} {state final : Duplex W C F P}
  {side : Side} {links : List (Call (Link W C F P) LinkAction LinkReply)} {link : Link W C F P}

abbrev linkFrom (peers : Side → Peer W C F P) (side : Side) : Link W C F P :=
  .new (peers side).config (peers side).windowPolicy (peers side).cc (peers side).fec
    fun _ => ((peers side.other).decoder, (peers side.other).feedbackPolicy)

/-- A run of a link that does what the calls do in one direction. -/
structure Carries (peers : Side → Peer W C F P) (side : Side) (calls : List (Call (Duplex W C F P) DuplexAction DuplexReply))
    (state : Duplex W C F P) (links : List (Call (Link W C F P) LinkAction LinkReply)) (link : Link W C F P) : Prop where
  run : Run Link.step (linkFrom peers side) links link
  sender : link.sender = (state.sessions side).sender
  receiver : link.receivers 0 = (state.sessions side.other).receiver
  wire : ∀ raw ∈ state.wires side, raw ∈ link.wire ∨ Arrival.ofRaw raw = none
  accepted : Link.accepted links = accepted side calls
  replies : Link.replies 0 links = replies side.other calls
  fits : (∀ call ∈ calls, CoversFit call) → ∀ call ∈ links, Link.CoversFit call

omit [WindowPolicy W] [CongestionControl C] [FecRateController F] [FeedbackPolicy P] in
theorem accepted_append (calls : List (Call (Duplex W C F P) DuplexAction DuplexReply)) (call : Call (Duplex W C F P) DuplexAction DuplexReply) :
    Duplex.accepted side (calls ++ [call]) = Duplex.accepted side calls ++ Duplex.accepted side [call] := List.flatMap_append

omit [WindowPolicy W] [CongestionControl C] [FecRateController F] [FeedbackPolicy P] in
theorem replies_append (calls : List (Call (Duplex W C F P) DuplexAction DuplexReply)) (call : Call (Duplex W C F P) DuplexAction DuplexReply) :
    Duplex.replies side (calls ++ [call]) = Duplex.replies side calls ++ Duplex.replies side [call] := List.filterMap_append

omit [WindowPolicy W] [CongestionControl C] [FecRateController F] [FeedbackPolicy P] in
theorem replies_receive (side : Side) (state after : Duplex W C F P) (action : ReceiverAction) (reply : ReceiverReply) :
    replies side [⟨state, (side, .receiver action), after, some (.receiver reply)⟩] = [reply] := by
  have replied : replyTo side ⟨state, (side, .receiver action), after, some (.receiver reply)⟩ = some reply := if_pos rfl
  rw [replies, List.filterMap_cons_some replied, List.filterMap_nil]

omit [WindowPolicy W] [CongestionControl C] [FecRateController F] [FeedbackPolicy P] in
theorem replies_receive_other {target side : Side} (different : target ≠ side) (state after : Duplex W C F P) (action : ReceiverAction)
    (reply : ReceiverReply) : replies side [⟨state, (target, .receiver action), after, some (.receiver reply)⟩] = [] := by
  have silent : replyTo side ⟨state, (target, .receiver action), after, some (.receiver reply)⟩ = none := if_neg different
  rw [replies, List.filterMap_cons_none silent, List.filterMap_nil]

theorem Carries.silent (carries : Carries peers side calls state links link) {call : Call (Duplex W C F P) DuplexAction DuplexReply}
    {after : Duplex W C F P} (sender : (after.sessions side).sender = (state.sessions side).sender)
    (receiver : (after.sessions side.other).receiver = (state.sessions side.other).receiver)
    (wire : ∀ raw ∈ after.wires side, raw ∈ state.wires side ∨ Arrival.ofRaw raw = none)
    (accepts : Duplex.accepted side [call] = []) (replied : Duplex.replies side.other [call] = []) :
    Carries peers side (calls ++ [call]) after links link := by
  refine ⟨carries.run, carries.sender.trans sender.symm, carries.receiver.trans receiver.symm, fun raw member => ?_, ?_, ?_,
    fun fits => carries.fits fun call member => fits call (List.mem_append_left _ member)⟩
  · rcases wire raw member with old | unread
    · exact carries.wire raw old
    · exact .inr unread
  · rw [accepted_append, accepts, List.append_nil, carries.accepted]
  · rw [replies_append, replied, List.append_nil, carries.replies]

theorem Carries.sends (carries : Carries peers side calls state links link) {action : SenderAction} {sender : FecSender W C F}
    {reply : SenderReturn} (acted : (state.sessions side).sender.act action = .ok (sender, reply)) {after : Duplex W C F P}
    (sessions : after.sessions = Function.update state.sessions side { state.sessions side with sender })
    (wires : after.wires = Function.update state.wires side (state.wires side ++ reply.sent)) :
    ∃ links link, Carries peers side (calls ++ [⟨state, (side, .sender action), after, some (.sender reply)⟩]) after links link := by
  have stepped : link.step (.send action) = .ok ({ link with sender, wire := link.wire ++ reply.sent }, .sent reply) := by
    rw [Link.step, carries.sender, acted]
    rfl
  have accepts : Duplex.accepted side [⟨state, (side, .sender action), after, some (.sender reply)⟩] = action.accepted reply := by
    refine (List.flatMap_singleton _ _).trans ?_
    exact if_pos rfl
  refine ⟨_, _, carries.run.call stepped, ?_, ?_, fun raw member => ?_, ?_, ?_, fun fits call member => ?_⟩
  · rw [sessions, Function.update_self]
  · rw [sessions, Function.update_of_ne (Side.other_ne side)]
    exact carries.receiver
  · rw [wires, Function.update_self] at member
    rcases List.mem_append.mp member with old | new
    · exact (carries.wire raw old).imp_left (List.mem_append_left _)
    · exact .inl (List.mem_append_right _ new)
  · rw [accepted_append, accepts, Link.accepted_append, carries.accepted]
    exact congrArg _ (List.append_nil _)
  · have silent : Link.replies 0 (links ++ [⟨link, .send action, { link with sender, wire := link.wire ++ reply.sent }, .sent reply⟩]) =
        Link.replies 0 links := List.filterMap_append.trans (List.append_nil _)
    rw [silent, replies_append, carries.replies]
    exact (List.append_nil _).symm
  · rcases List.mem_append.mp member with old | new
    · exact carries.fits (fun call member => fits call (List.mem_append_left _ member)) call old
    · cases List.mem_singleton.mp new
      have own : (state.sessions side).sender.CoversFit action := fits _ (List.mem_append_right _ (List.mem_singleton.mpr rfl))
      rw [← carries.sender] at own
      exact own

theorem Carries.receives (carries : Carries peers side calls state links link) {action : ReceiverAction} {receiver : FecReceiver P}
    {reply : ReceiverReply} (acted : (state.sessions side.other).receiver.act action = .ok (receiver, reply))
    (arrives : ∀ raw ∈ action.raws, raw ∈ state.wires side ∨ Arrival.ofRaw raw = none) {after : Duplex W C F P}
    (sessions : after.sessions = Function.update state.sessions side.other { state.sessions side.other with receiver })
    (wires : after.wires side = state.wires side) :
    ∃ links link, Carries peers side (calls ++ [⟨state, (side.other, .receiver action), after, some (.receiver reply)⟩]) after links link := by
  have known : action.raws.all link.arrives = true := by
    refine List.all_eq_true.mpr fun raw member => Bool.or_eq_true_iff.mpr ?_
    rcases (arrives raw member).imp_left (carries.wire raw) with (sent | unread) | unread
    · exact .inl (List.contains_iff_mem.mpr sent)
    · exact .inr (Option.isNone_iff_eq_none.mpr unread)
    · exact .inr (Option.isNone_iff_eq_none.mpr unread)
  have stepped : link.step (.receive 0 action) =
      .ok ({ link with receivers := Function.update link.receivers 0 receiver }, .received reply) := by
    rw [Link.step, if_pos known, carries.receiver, acted]
    rfl
  refine ⟨_, _, carries.run.call stepped, ?_, ?_, fun raw member => ?_, ?_, ?_, fun fits call member => ?_⟩
  · rw [sessions, Function.update_of_ne (Side.other_ne side).symm]
    exact carries.sender
  · rw [sessions, Function.update_self]
    exact Function.update_self (0 : ReceiverId) receiver link.receivers
  · rw [wires] at member
    exact carries.wire raw member
  · rw [accepted_append, Link.accepted_append, carries.accepted]
    rfl
  · rw [replies_append, replies_receive, ← carries.replies]
    exact List.filterMap_append.trans (congrArg _ (Link.replies_receive ..))
  · rcases List.mem_append.mp member with old | new
    · exact carries.fits (fun call member => fits call (List.mem_append_left _ member)) call old
    · cases List.mem_singleton.mp new
      trivial

omit [WindowPolicy W] [CongestionControl C] [FecRateController F] in
theorem feedback_unread {self after : FecReceiver P} {action : ReceiverAction} {reply : ReceiverReply}
    (acted : self.act action = .ok (after, reply)) : ∀ raw ∈ reply.feedback, Arrival.ofRaw raw = none := by
  obtain ⟨own, serves⟩ := FecReceiver.act_serves acted
  exact fun raw member => Decoder.feedbackOf_unread serves.run raw (serves.feedback.subset member)

theorem Carries.step (carries : Carries peers side calls state links link) {input : DuplexAction} {after : Duplex W C F P}
    {output : DuplexReply} (stepped : Duplex.step state input = .ok (after, output)) :
    ∃ links link, Carries peers side (calls ++ [⟨state, input, after, output⟩]) after links link := by
  obtain ⟨target, action⟩ := input
  unfold Duplex.step at stepped
  split at stepped
  next known =>
    obtain ⟨⟨session, reply⟩, acts, same⟩ := Outcome.bind_eq_ok.mp stepped
    cases same
    cases action with
    | sender action =>
      obtain ⟨⟨sender, own⟩, acted, same⟩ := Outcome.bind_eq_ok.mp acts
      cases same
      rcases Side.eq_or_other side target with rfl | rfl
      · exact carries.sends acted rfl rfl
      · refine ⟨links, link, carries.silent ?_ ?_ (fun raw member => .inl ?_) ?_ rfl⟩
        · exact congrArg DelpSession.sender (Function.update_of_ne (Side.other_ne side).symm ..)
        · dsimp only
          rw [Function.update_self]
        · dsimp only at member
          rwa [Function.update_of_ne (Side.other_ne side).symm] at member
        · refine (List.flatMap_singleton _ _).trans ?_
          exact if_neg (Side.other_ne side)
    | receiver action =>
      obtain ⟨⟨receiver, own⟩, acted, same⟩ := Outcome.bind_eq_ok.mp acts
      cases same
      rcases Side.eq_or_other side target with rfl | rfl
      · refine ⟨links, link, carries.silent ?_ ?_ (fun raw member => ?_) rfl ?_⟩
        · dsimp only
          rw [Function.update_self]
        · exact congrArg DelpSession.receiver (Function.update_of_ne (Side.other_ne target) ..)
        · dsimp only at member
          rw [Function.update_self] at member
          exact (List.mem_append.mp member).imp_right (feedback_unread acted raw)
        · exact replies_receive_other (Side.other_ne target).symm ..
      · refine carries.receives acted (fun raw member => ?_) rfl (Function.update_of_ne (Side.other_ne side).symm ..)
        have found := List.all_eq_true.mp known raw member
        rw [Side.other_other] at found
        exact (Bool.or_eq_true_iff.mp found).imp List.contains_iff_mem.mp Option.isNone_iff_eq_none.mp
  next =>
    cases stepped
    cases action with
    | sender action => exact ⟨links, link, carries.silent rfl rfl (fun _ member => .inl member) rfl rfl⟩
    | receiver action => exact ⟨links, link, carries.silent rfl rfl (fun _ member => .inl member) rfl rfl⟩

omit [WindowPolicy W] [CongestionControl C] [FecRateController F] [FeedbackPolicy P] in
instance (call : Call (Duplex W C F P) DuplexAction DuplexReply) : Decidable (CoversFit call) :=
  match call with
  | ⟨_, (_, .sender _), _, _⟩ => inferInstanceAs (Decidable (FecSender.CoversFit _ _))
  | ⟨_, (_, .receiver _), _, _⟩ => isTrue trivial

end Duplex
end Delp
