import Delp.Proofs.NetworkAcks

/-! What an encoder that refuses symbols rather than evicts them has dropped from its window: enough receivers know it. -/

namespace Delp
open Machine Config

def ReceiverAckState.AckedBy (self : ReceiverAckState) (quorum : ℕ) (id : SourceSymbolId) : Prop :=
  quorum ≤ (self.receiverIds.filter fun rid => self.isAcked rid id).length

/-- Policies, closed under their own calls, that remove no symbol that fewer receivers have acknowledged. -/
structure Quorate {W : Type} [WindowPolicy W] (quorum : ℕ) (policies : W → Prop) : Prop where
  chosen : ∀ {policy after : W} {acks : ReceiverAckState} {ids removed : List SourceSymbolId}, policies policy →
    WindowPolicy.symbolsToRemove policy acks ids = (removed, after) → policies after ∧ ∀ id ∈ removed, acks.AckedBy quorum id

theorem QuorumAckPolicy.quorate (policy : QuorumAckPolicy) : Quorate policy.quorum (· = policy) := by
  refine ⟨fun {current _ _ _ _} same chosen => ?_⟩
  subst same
  cases chosen
  refine ⟨rfl, fun id member => ?_⟩
  have counted : decide (current.quorum ≤ _) = true := (List.mem_filter.mp member).2
  have enough := of_decide_eq_true counted
  exact enough

theorem AnyAckPolicy.quorate : Quorate 1 fun _ : AnyAckPolicy => True := by
  refine ⟨fun {_ _ acks _ _} _ chosen => ⟨trivial, ?_⟩⟩
  cases chosen
  intro id member
  obtain ⟨rid, heard, acked⟩ := List.any_eq_true.mp (List.mem_filter.mp member).2
  exact List.length_pos_of_mem (List.mem_filter.mpr ⟨heard, acked⟩)

theorem AllAckPolicy.quorate : Quorate 1 fun _ : AllAckPolicy => True := by
  refine ⟨fun {policy after acks ids removed} _ chosen => ⟨trivial, fun id member => ?_⟩⟩
  have acked (rid : ReceiverId) (heard : rid ∈ acks.receiverIds) : acks.isAcked rid id = true :=
    Network.AllAckPolicy.acked chosen member heard
  have some : acks.receiverIds ≠ [] := by
    intro none
    unfold WindowPolicy.symbolsToRemove instWindowPolicyAllAckPolicy at chosen
    dsimp only at chosen
    split at chosen
    next => cases chosen; cases member
    next heard =>
      refine heard ?_
      rw [ReceiverAckState.numReceivers, ← Std.TreeMap.length_keys]
      exact congrArg List.length none
  obtain ⟨rid, heard⟩ := List.exists_mem_of_ne_nil _ some
  exact List.length_pos_of_mem (List.mem_filter.mpr ⟨heard, acked rid heard⟩)

namespace Decoder
variable {P : Type} [FeedbackPolicy P]

theorem handle_known {before after : Decoder P} {arrival : Arrival} {reply : Reply}
    (handled : before.handle arrival = .ok (after, reply)) {id : SourceSymbolId} (held : id ∈ before.known) : id ∈ after.known := by
  cases reply with
  | error error =>
    rw [(handle_error handled).known]
    exact held
  | ok events =>
    obtain ⟨matrix, gained, takes⟩ := handle_ok handled
    rw [takes.known]
    exact KnownSources.mem_learn.mpr (.inl held)

end Decoder

namespace Encoder
variable {W C F : Type} [WindowPolicy W] [CongestionControl C] [FecRateController F] {config : EncoderConfig}
  {self after : Encoder W C F} {submitted : List Bytes}

omit [WindowPolicy W] [FecRateController F] in
theorem Codes.windowPolicy {cover : List SourceSymbolId} {bytes : Bytes} (codes : self.Codes cover bytes after) :
    after.windowPolicy = self.windowPolicy := by
  obtain ⟨next, cc, advanced, rfl⟩ := codes.advanced
  rw [advanceCodedId_frame advanced]

omit [WindowPolicy W] [FecRateController F] in
theorem Emits.windowPolicy {outputs : List EncoderOutput} (emits : Emits self outputs after) : after.windowPolicy = self.windowPolicy := by
  induction emits with
  | done => rfl
  | next first _ ih => exact ih.trans first.windowPolicy

theorem Acts.retains (sound : Sound config self submitted) (reject : config.backpressure = .reject) {action : EncoderAction}
    {reply : Except DelpError (List EncoderOutput)} (acts : Acts self action reply after) (hears : ∀ rid pkt, action ≠ .feedback rid pkt) :
    after.windowPolicy = self.windowPolicy ∧ (∀ id ∈ self.window.idSlice, id ∈ after.window.idSlice) ∧
      (acceptedBy action reply ≠ [] → self.window.nextId ∈ after.window.idSlice ∧ (acceptedBy action reply).length = 1) := by
  cases acts with
  | refused => exact ⟨rfl, fun _ held => held, fun accepts => absurd rfl accepts⟩
  | idle generates => exact ⟨rfl, fun _ held => held, fun accepts => absurd (acceptedBy_generates generates _) accepts⟩
  | fed => exact absurd rfl (hears _ _)
  | coded generates codes =>
    refine ⟨?_, fun id held => ?_, fun accepts => absurd (acceptedBy_generates generates _) accepts⟩
    · exact codes.windowPolicy
    · rw [(sound.codes codes).2.1]
      exact held
  | @submitted _ room _ _ _ _ _ _ _ sized made pushed serialised emits =>
    have free : room = self.window := by
      unfold makeRoom at made
      rw [sound.configured, reject] at made
      split at made
      · cases made
      · exact (Outcome.ok.inj made).symm
    subst free
    have window := ((sound.pushed sized made pushed _ _).emits emits).2.1
    obtain ⟨_, _, symbols, _⟩ := EncodingWindow.push_eq pushed
    have ids : after.window.idSlice = self.window.idSlice ++ [self.window.nextId] := by
      rw [window, EncodingWindow.idSlice, symbols, List.map_append, List.map_singleton]
      rfl
    refine ⟨?_, fun id held => ?_, fun _ => ⟨?_, rfl⟩⟩
    · exact emits.windowPolicy
    · rw [ids]
      exact List.mem_append_left _ held
    · rw [ids]
      exact List.mem_append_right _ (List.mem_singleton.mpr rfl)

end Encoder

namespace Network
variable {W C F P : Type}

def KnownTo (state : Network W C F P) (quorum : ℕ) (id : SourceSymbolId) : Prop :=
  ∃ knowers : List ReceiverId, knowers.Nodup ∧ quorum ≤ knowers.length ∧ ∀ rid ∈ knowers, id ∈ (state.decoders rid).known

/-- Each of the first symbols is still in the window, or known to so many receivers. -/
def Retained (state : Network W C F P) (quorum count : ℕ) : Prop :=
  ∀ rank < count, UInt32.ofNat rank ∈ state.encoder.window.idSlice ∨ state.KnownTo quorum (UInt32.ofNat rank)

theorem KnownTo.mono {state later : Network W C F P} {quorum : ℕ} {id : SourceSymbolId} (known : state.KnownTo quorum id)
    (grows : ∀ rid, id ∈ (state.decoders rid).known → id ∈ (later.decoders rid).known) : later.KnownTo quorum id := by
  obtain ⟨knowers, apart, enough, know⟩ := known
  exact ⟨knowers, apart, enough, fun rid member => grows rid (know rid member)⟩

variable [WindowPolicy W] [CongestionControl C] [FecRateController F] [FeedbackPolicy P] {config : EncoderConfig}

theorem Retained.step {quorum : ℕ} {policies : W → Prop} (quorate : Quorate quorum policies) (reject : config.backpressure = .reject)
    {calls : List (Call (Network W C F P) NetworkAction NetworkReply)} {before after : Network W C F P} {action : NetworkAction}
    {reply : NetworkReply} (policy : policies before.encoder.windowPolicy) (retained : before.Retained quorum (accepted calls).length)
    (honest : before.Honest) (sound : Encoder.Sound config before.encoder (accepted calls)) (steps : Steps before action reply after)
    (full : action.FullWindow) (few : (accepted (calls ++ [⟨before, action, after, reply⟩])).length < 4294967296) :
    policies after.encoder.windowPolicy ∧ after.Retained quorum (accepted (calls ++ [⟨before, action, after, reply⟩])).length := by
  rw [accepted_append] at few ⊢
  have quiet (same : accepted [⟨before, action, after, reply⟩] = []) (kept : after.Retained quorum (accepted calls).length) :
      after.Retained quorum (accepted calls ++ accepted [⟨before, action, after, reply⟩]).length := by
    rwa [same, List.append_nil]
  cases steps with
  | @encoded action encoder reply acted =>
    have hears (rid : ReceiverId) (pkt : FeedbackPacket) : action ≠ .feedback rid pkt := by
      rintro rfl
      exact full.elim
    obtain ⟨same, kept, joins⟩ := (Encoder.act_ok acted).retains sound reject hears
    have one : accepted [⟨before, .encode action, { before with encoder, sent := before.sent ++ datagrams encoder reply },
        .encoded reply⟩] = Encoder.acceptedBy action reply := List.append_nil _
    rw [one] at few ⊢
    refine ⟨same ▸ policy, fun rank below => ?_⟩
    by_cases old : rank < (accepted calls).length
    · exact (retained rank old).imp_left (kept _)
    · have accepts : Encoder.acceptedBy action reply ≠ [] := by
        intro none
        rw [none, List.append_nil] at below
        exact old below
      obtain ⟨joined, single⟩ := joins accepts
      rw [List.length_append, single] at below few
      have last : rank = (accepted calls).length := by omega
      have next : before.encoder.window.nextId = UInt32.ofNat rank := by
        rw [eq_iff, last, toNat_ofNat (by omega)]
        exact (sound.ordered (by omega)).1
      exact .inl (next ▸ joined)
  | @acknowledged index receiver raw packet encoder found parsed acted =>
    have acts := Encoder.act_ok acted
    cases acts with
    | @fed _ _ acks removed windowPolicy cc fec updated chosen =>
      obtain ⟨next, acked⟩ := quorate.chosen policy chosen
      refine ⟨next, quiet rfl fun rank below => ?_⟩
      rcases retained rank below with held | known
      · by_cases stays : UInt32.ofNat rank ∈ (before.encoder.window.removeIds removed).idSlice
        · exact .inl stays
        · refine .inr ⟨acks.receiverIds.filter fun rid => acks.isAcked rid (UInt32.ofNat rank), ?_,
            acked _ (EncodingWindow.mem_of_removed held stays), fun rid member => ?_⟩
          · exact Std.TreeMap.nodup_keys.filter _
          · rcases (ReceiverAckState.update_isAcked updated).mp (List.mem_filter.mp member).2 with earlier | ⟨rfl, acknowledges⟩
            · exact (honest.acks rid _ earlier).known held
            · exact (honest.reports (_, raw) (List.mem_of_getElem? found) packet parsed _ acknowledges).known held
      · exact .inr known
    | idle generates => exact generates.elim
  | @handled receiver index datagram arrival decoder reply found reads handled =>
    refine ⟨policy, quiet rfl fun rank below => (retained rank below).imp_right fun known => known.mono fun rid held => ?_⟩
    exact (Function.forall_update_iff before.decoders fun other decoder =>
      UInt32.ofNat rank ∈ (before.decoders other).known → UInt32.ofNat rank ∈ decoder.known).mpr
        ⟨Decoder.handle_known handled, fun _ _ same => same⟩ rid held
  | dropped | ignored => exact ⟨policy, quiet rfl retained⟩

section Runs
variable {windowPolicy : W} {cc : C} {fec : F} {receivers : ReceiverId → DecoderConfig × P}
  {calls : List (Call (Network W C F P) NetworkAction NetworkReply)} {final : Network W C F P}

theorem run_retained {quorum : ℕ} {policies : W → Prop} (quorate : Quorate quorum policies) (policy : policies windowPolicy)
    (reject : config.backpressure = .reject) (run : Run step (new config windowPolicy cc fec receivers) calls final)
    (full : ∀ call ∈ calls, call.input.FullWindow) (few : (accepted calls).length < 4294967296) :
    final.Retained quorum (accepted calls).length := by
  suffices kept : Encoder.Sound config final.encoder (accepted calls) ∧ ((accepted calls).length < 4294967296 →
      final.Honest ∧ policies final.encoder.windowPolicy ∧ final.Retained quorum (accepted calls).length) from (kept.2 few).2.2
  refine run.preserves (fun calls state => Encoder.Sound config state.encoder (accepted calls) ∧ ((accepted calls).length < 4294967296 →
    state.Honest ∧ policies state.encoder.windowPolicy ∧ state.Retained quorum (accepted calls).length))
    (fun call => call.input.FullWindow)
    ⟨Encoder.new_sound _ _ _ _, fun _ => ⟨new_honest _ _ _ _ _, policy, fun rank below => absurd below (Nat.not_lt_zero rank)⟩⟩ ?_ full
  intro calls before action after reply kept stepped full
  obtain ⟨sound, kept⟩ := kept
  have steps : Steps before action reply after := step_ok stepped
  refine ⟨sound_step sound steps, fun few => ?_⟩
  have fewer : (accepted calls).length < 4294967296 := by
    rw [accepted_append, List.length_append] at few
    omega
  obtain ⟨honest, policy, retained⟩ := kept fewer
  exact ⟨honest.step sound steps full few, retained.step quorate reject policy honest sound steps full few⟩

end Runs

/-- An encoder that refuses symbols while its window is full drops none that fewer than a quorum of receivers know: at any time, each
symbol that it has accepted is in its window, or known to so many receivers. The other policies ask for one receiver at least. -/
theorem retains_quorum (config : EncoderConfig) (reject : config.backpressure = .reject) (cc : C) (fec : F)
    (receivers : ReceiverId → DecoderConfig × P) :
    (∀ (policy : QuorumAckPolicy) (calls : List (Call (Network QuorumAckPolicy C F P) NetworkAction NetworkReply)) final,
      Run step (new config policy cc fec receivers) calls final → (∀ call ∈ calls, call.input.FullWindow) →
      (accepted calls).length < 4294967296 → final.Retained policy.quorum (accepted calls).length) ∧
    (∀ (policy : AnyAckPolicy) (calls : List (Call (Network AnyAckPolicy C F P) NetworkAction NetworkReply)) final,
      Run step (new config policy cc fec receivers) calls final → (∀ call ∈ calls, call.input.FullWindow) →
      (accepted calls).length < 4294967296 → final.Retained 1 (accepted calls).length) ∧
    ∀ (policy : AllAckPolicy) (calls : List (Call (Network AllAckPolicy C F P) NetworkAction NetworkReply)) final,
      Run step (new config policy cc fec receivers) calls final → (∀ call ∈ calls, call.input.FullWindow) →
      (accepted calls).length < 4294967296 → final.Retained 1 (accepted calls).length :=
  ⟨fun policy _ _ run full few => run_retained policy.quorate rfl reject run full few,
    fun _ _ _ run full few => run_retained AnyAckPolicy.quorate trivial reject run full few,
    fun _ _ _ run full few => run_retained AllAckPolicy.quorate trivial reject run full few⟩

/-- The window has room for the third symbol once both receivers have acknowledged the first. -/
theorem retains_quorum_both :
    ∃ (calls : List (Call (Network QuorumAckPolicy NoCongestionControl ConstantFecRate ImmediateFeedbackPolicy) NetworkAction
        NetworkReply)) (final : Network QuorumAckPolicy NoCongestionControl ConstantFecRate ImmediateFeedbackPolicy),
      Run step (new { Encoder.smallConfig with backpressure := .reject } ⟨2⟩ {} ⟨0, 1, 0⟩ smallReceivers) calls final ∧
        final.encoder.window.idSlice = [1, 2] ∧ (accepted calls).length = 3 ∧ final.Retained 2 3 := by
  obtain ⟨calls, final, run, check⟩ := Run.exists_of_check step
    (new { Encoder.smallConfig with backpressure := .reject } ⟨2⟩ {} ⟨0, 1, 0⟩ smallReceivers : Network QuorumAckPolicy NoCongestionControl
      ConstantFecRate ImmediateFeedbackPolicy)
    [.encode (.submit [1]), .encode (.submit [2]), .encode (.submit [3]), .deliver 7 0, .acknowledge 0, .encode (.submit [3]), .deliver 8 0,
      .acknowledge 1, .encode (.submit [3])]
    (fun result => decide (result.2.encoder.window.idSlice = [1, 2] ∧ (accepted result.1).length = 3 ∧
      ∀ call ∈ result.1, call.input.FullWindow)) (by decide +kernel)
  obtain ⟨window, count, full⟩ := of_decide_eq_true check
  have few : (accepted calls).length < 4294967296 := by
    rw [count]
    decide
  have retained := (retains_quorum { Encoder.smallConfig with backpressure := .reject } rfl ({} : NoCongestionControl)
    (⟨0, 1, 0⟩ : ConstantFecRate) smallReceivers).1 ⟨2⟩ calls final run full few
  exact ⟨calls, final, run, window, count, count ▸ retained⟩

end Network
end Delp
