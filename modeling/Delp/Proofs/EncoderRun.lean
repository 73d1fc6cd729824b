import Delp.Codec.Encoder
import Delp.Lib.Run
import Delp.Proofs.WindowTracks

/-! What one call of an encoder does, and what every run of calls keeps. -/

namespace Delp
open Machine Config

inductive EncoderAction where
  | submit (data : Bytes)
  | feedback (receiverId : ReceiverId) (pkt : FeedbackPacket)
  | coded
  | targeted (coverIds : List SourceSymbolId)
  | recent (n : ℕ)
  | forReceiver (receiverId : ReceiverId)
deriving DecidableEq

/-- The calls that output at most one coded packet. -/
def EncoderAction.Generates : EncoderAction → Prop
  | .submit _ | .feedback _ _ => False
  | .coded | .targeted _ | .recent _ | .forReceiver _ => True

namespace Encoder
variable {W C F : Type}

theorem advanceCodedId_frame {self next : Encoder W C F} (advanced : self.advanceCodedId = .ok next) :
    next = { self with nextCodedId := next.nextCodedId, codedIdsUsed := next.codedIdsUsed, generation := next.generation } := by
  obtain ⟨id, _, advanced⟩ := Outcome.bind_eq_ok.mp advanced
  dsimp only at advanced
  split at advanced
  · cases advanced
    split <;> rfl
  · cases advanced
    split <;> rfl

theorem coefficientsFor_frame {self other : Encoder W C F} (same : other.config = self.config) (cover : List SourceSymbolId)
    (codedId : CodedSymbolId) (generation : UInt8) :
    other.coefficientsFor cover codedId generation = self.coefficientsFor cover codedId generation := by
  unfold coefficientsFor codedIdCycle
  rw [same]

theorem payload_frame {self other : Encoder W C F} (config : other.config = self.config) (window : other.window = self.window)
    (cover : List SourceSymbolId) (coefs : Bytes) :
    other.computeCodedPayloadTargeted cover coefs = self.computeCodedPayloadTargeted cover coefs := by
  have step : other.accumulate = self.accumulate := by
    funext scratch term
    simp only [accumulate, config, window]
  rw [computeCodedPayloadTargeted, computeCodedPayloadTargeted, step, config]

def acceptedBy (input : EncoderAction) (output : Except DelpError (List EncoderOutput)) : List Bytes :=
  match input, output with
  | .submit data, .ok _ => [data]
  | _, _ => []

theorem acceptedBy_generates {action : EncoderAction} (generates : action.Generates)
    (reply : Except DelpError (List EncoderOutput)) : acceptedBy action reply = [] := by
  cases action with
  | submit | feedback => exact generates.elim
  | coded | targeted | recent | forReceiver => rfl

def accepted (calls : List (Call (Encoder W C F) EncoderAction (Except DelpError (List EncoderOutput)))) : List Bytes :=
  calls.flatMap fun call => acceptedBy call.input call.output

theorem accepted_append (calls : List (Call (Encoder W C F) EncoderAction (Except DelpError (List EncoderOutput))))
    (call : Call (Encoder W C F) EncoderAction (Except DelpError (List EncoderOutput))) :
    accepted (calls ++ [call]) = accepted calls ++ acceptedBy call.input call.output := by
  rw [accepted, List.flatMap_append]
  exact congrArg _ (List.append_nil _)

def firstCodedId : MatrixStrategy → ℕ
  | .cauchy => 0
  | .vandermonde => 1

/-- The first number past a cycle of coded ids. -/
def codedIdLimit : MatrixStrategy → Config.Field → ℕ
  | .cauchy, field => EncoderConfigBuilder.cauchyMax field
  | .vandermonde, .gf2_8 => 255
  | .vandermonde, .gf2_4 => 15

def Counts (config : EncoderConfig) (id : CodedSymbolId) : Prop :=
  firstCodedId config.matrixStrategy ≤ id.toNat ∧ id.toNat < codedIdLimit config.matrixStrategy config.field

/-- What holds of an encoder that has accepted the symbols `submitted`. -/
structure Sound (config : EncoderConfig) (state : Encoder W C F) (submitted : List Bytes) : Prop where
  configured : state.config = config
  capacity : state.window.capacity = config.windowCapacity
  fits : state.window.symbols.length ≤ config.windowCapacity
  sized : ∀ data ∈ submitted, data.length = config.symbolSize
  tracks : ∃ ks, state.window.Tracks submitted ks
  counts : Counts config state.nextCodedId

theorem codedIdCycle_cauchy {self : Encoder W C F} (strategy : self.config.matrixStrategy = .cauchy) :
    self.codedIdCycle.toNat = EncoderConfigBuilder.cauchyMax self.config.field := by
  rw [codedIdCycle, strategy]
  cases self.config.field <;> rfl

/-- The counter goes round its cycle, and each round of a Cauchy cycle is a generation. -/
theorem advanceCodedId_eq {self : Encoder W C F} (counts : Counts self.config self.nextCodedId) :
    ∃ next, self.advanceCodedId = .ok next ∧
      if self.nextCodedId.toNat + 1 = codedIdLimit self.config.matrixStrategy self.config.field then
        next.nextCodedId.toNat = firstCodedId self.config.matrixStrategy ∧
          (self.config.matrixStrategy = .cauchy → next.generation = self.generation + 1)
      else next.nextCodedId.toNat = self.nextCodedId.toNat + 1 ∧ next.generation = self.generation := by
  obtain ⟨above, below⟩ := counts
  have small : codedIdLimit self.config.matrixStrategy self.config.field ≤ 255 := by
    cases self.config.matrixStrategy <;> cases self.config.field <;> decide
  have fits : self.nextCodedId.toNat + (1 : UInt32).toNat < 4294967296 := by rw [UInt32.toNat_one]; omega
  have sum : (self.nextCodedId + 1).toNat = self.nextCodedId.toNat + 1 := toNat_add fits
  have turn (limit : UInt32) (same : limit.toNat = codedIdLimit self.config.matrixStrategy self.config.field) :
      self.nextCodedId + 1 ≥ limit ↔
        self.nextCodedId.toNat + 1 = codedIdLimit self.config.matrixStrategy self.config.field := by
    rw [ge_iff_le, le_iff, sum, same]
    omega
  rw [advanceCodedId, addU32_eq_ok.mpr ⟨fits, rfl⟩, Outcome.ok_bind]
  dsimp only
  cases strategy : self.config.matrixStrategy with
  | vandermonde =>
    rw [strategy] at turn
    refine ⟨_, rfl, ?_⟩
    by_cases last : self.nextCodedId.toNat + 1 = codedIdLimit .vandermonde self.config.field
    · rw [if_pos last]
      split
      next => exact ⟨rfl, fun impossible => by cases impossible⟩
      next low => exact (low ((turn _ (by cases self.config.field <;> rfl)).mpr last)).elim
    · rw [if_neg last]
      split
      next high => exact (last ((turn _ (by cases self.config.field <;> rfl)).mp high)).elim
      next => exact ⟨sum, rfl⟩
  | cauchy =>
    rw [strategy] at turn
    refine ⟨_, rfl, ?_⟩
    have cycle : self.codedIdCycle.toNat = codedIdLimit .cauchy self.config.field := codedIdCycle_cauchy strategy
    by_cases last : self.nextCodedId.toNat + 1 = codedIdLimit .cauchy self.config.field
    · rw [if_pos last]
      split
      next => exact ⟨rfl, fun _ => rfl⟩
      next low => exact (low ((turn self.codedIdCycle cycle).mpr last)).elim
    · rw [if_neg last]
      split
      next high => exact (last ((turn self.codedIdCycle cycle).mp high)).elim
      next => exact ⟨sum, rfl⟩

theorem advanceCodedId_counts {self next : Encoder W C F} (counts : Counts self.config self.nextCodedId)
    (advanced : self.advanceCodedId = .ok next) : Counts self.config next.nextCodedId := by
  obtain ⟨other, same, turned⟩ := advanceCodedId_eq counts
  cases advanced.symm.trans same
  have room : firstCodedId self.config.matrixStrategy < codedIdLimit self.config.matrixStrategy self.config.field :=
    Nat.lt_of_le_of_lt counts.1 counts.2
  unfold Counts at *
  split at turned
  · omega
  · omega

theorem makeRoom_ok {self : Encoder W C F} {room : EncodingWindow} (made : self.makeRoom = .ok room) :
    room = self.window ∨ room = self.window.evictOldest := by
  unfold makeRoom at made
  split at made
  · split at made
    · cases made
    · cases made
      exact .inr rfl
  · cases made
    exact .inl rfl

theorem new_sound (config : EncoderConfig) (windowPolicy : W) (cc : C) (fec : F) :
    Sound config (new config windowPolicy cc fec) [] := by
  refine ⟨rfl, rfl, Nat.zero_le _, fun _ member => (List.not_mem_nil member).elim, ⟨_, EncodingWindow.new_tracks _⟩, ?_⟩
  unfold Counts new
  dsimp only
  cases config.matrixStrategy <;> cases config.field <;> decide

theorem Sound.sized_of_held {config : EncoderConfig} {self : Encoder W C F} {submitted : List Bytes}
    (sound : Sound config self submitted) {s : WindowSymbol} (held : s ∈ self.window.symbols) :
    s.data.length = config.symbolSize := by
  obtain ⟨ks, tracks⟩ := sound.tracks
  rw [tracks.symbols] at held
  obtain ⟨k, member, rfl⟩ := List.mem_map.mp held
  refine sound.sized _ ?_
  rw [submittedSymbol, List.getD_eq_getElem _ _ (tracks.below k member)]
  exact List.getElem_mem _

theorem Sound.pushed {config : EncoderConfig} {self : Encoder W C F} {submitted : List Bytes}
    (sound : Sound config self submitted) {data : Bytes} {room window : EncodingWindow} {id : SourceSymbolId}
    (sized : data.length = self.config.symbolSize) (made : self.makeRoom = .ok room) (pushed : room.push data = .ok (window, id))
    (cc : C) (fec : F) :
    Sound config { self with window, cc, fec } (submitted ++ [data]) := by
  obtain ⟨ks, tracks⟩ := sound.tracks
  obtain ⟨below, _, symbols, capacity, _⟩ := EncodingWindow.push_eq pushed
  have roomTracks : (∃ ks, room.Tracks submitted ks) ∧ room.capacity = self.window.capacity := by
    rcases makeRoom_ok made with rfl | rfl
    · exact ⟨⟨ks, tracks⟩, rfl⟩
    · exact ⟨⟨_, tracks.evictOldest⟩, rfl⟩
  obtain ⟨⟨ks, tracks⟩, same⟩ := roomTracks
  refine ⟨sound.configured, ?_, ?_, ?_, ⟨_, tracks.push pushed⟩, sound.counts⟩
  · exact capacity.trans (same.trans sound.capacity)
  · rw [symbols, List.length_append, List.length_singleton, ← sound.capacity, ← same]
    exact below
  · intro other member
    rcases List.mem_append.mp member with old | new
    · exact sound.sized other old
    · rw [List.mem_singleton.mp new, sized, sound.configured]

section Coding
variable [CongestionControl C]

/-- One coded packet over a cover: its coefficients, payload and bytes, and what the call changes. -/
structure Codes (state : Encoder W C F) (cover : List SourceSymbolId) (bytes : Bytes) (after : Encoder W C F) : Prop where
  nonempty : cover ≠ []
  packet : ∃ coefs ev payload, state.coefficientsFor cover state.nextCodedId state.generation = .ok (coefs, ev) ∧
    state.computeCodedPayloadTargeted cover coefs = .ok payload ∧
    CodedPacket.serialise state.nextCodedId ev payload (CongestionControl.generateCci state.cc) none = .ok bytes
  advanced : ∃ next cc, state.advanceCodedId = .ok next ∧ after = { next with cc := cc }

/-- The coded packets that follow a submission, each over the whole window. -/
inductive Emits : Encoder W C F → List EncoderOutput → Encoder W C F → Prop
  | done (self : Encoder W C F) : Emits self [] self
  | next {self middle after : Encoder W C F} {bytes : Bytes} {rest : List EncoderOutput}
      (first : self.Codes self.window.idSlice bytes middle) (later : Emits middle rest after) :
      Emits self (.coded bytes :: rest) after

theorem generateCodedInner_ok {self after : Encoder W C F} {cover : List SourceSymbolId} {output : Option EncoderOutput}
    (generated : self.generateCodedInner cover = .ok (after, output)) :
    ∃ bytes, output = some (.coded bytes) ∧ self.Codes cover bytes after := by
  obtain ⟨_, nonempty, generated⟩ := Outcome.bind_eq_ok.mp generated
  obtain ⟨next, advanced, generated⟩ := Outcome.bind_eq_ok.mp generated
  obtain ⟨⟨coefs, ev⟩, coded, generated⟩ := Outcome.bind_eq_ok.mp generated
  obtain ⟨payload, summed, generated⟩ := Outcome.bind_eq_ok.mp generated
  obtain ⟨bytes, serialised, generated⟩ := Outcome.bind_eq_ok.mp generated
  have frame := advanceCodedId_frame advanced
  have config : next.config = self.config := by rw [frame]
  have window : next.window = self.window := by rw [frame]
  have cc : next.cc = self.cc := by rw [frame]
  cases generated
  refine ⟨bytes, rfl, ?_, ⟨coefs, ev, payload, ?_, ?_, ?_⟩, next, _, advanced, rfl⟩
  · rintro rfl
    exact absurd (Outcome.require_eq_ok.mp nonempty) (by decide)
  · rw [← coefficientsFor_frame config]
    exact coded
  · rw [← payload_frame config window]
    exact summed
  · rw [← cc]
    exact serialised

theorem generateCodedInner_of {self next : Encoder W C F} {cover : List SourceSymbolId} (nonempty : cover ≠ [])
    (advanced : self.advanceCodedId = .ok next) {coefs payload bytes : Bytes} {ev : EncodingVector}
    (coded : self.coefficientsFor cover self.nextCodedId self.generation = .ok (coefs, ev))
    (summed : self.computeCodedPayloadTargeted cover coefs = .ok payload)
    (serialised : CodedPacket.serialise self.nextCodedId ev payload (CongestionControl.generateCci self.cc) none = .ok bytes) :
    self.generateCodedInner cover = .ok ({ next with cc := CongestionControl.onSend self.cc bytes.length }, some (.coded bytes)) := by
  have frame := advanceCodedId_frame advanced
  have config : next.config = self.config := by rw [frame]
  have window : next.window = self.window := by rw [frame]
  have cc : next.cc = self.cc := by rw [frame]
  rw [generateCodedInner, Outcome.require_of (by simpa using nonempty), Outcome.ok_bind]
  dsimp only
  rw [advanced, Outcome.ok_bind, coefficientsFor_frame config, coded, Outcome.ok_bind]
  dsimp only
  rw [payload_frame config window, summed, Outcome.ok_bind, cc, serialised]
  rfl

theorem generateCoded_ok {self after : Encoder W C F} {output : Option EncoderOutput}
    (generated : self.generateCoded = .ok (after, output)) :
    output = none ∧ after = self ∨ ∃ bytes, output = some (.coded bytes) ∧ self.Codes self.window.idSlice bytes after := by
  unfold generateCoded at generated
  split at generated
  · cases generated
    exact .inl ⟨rfl, rfl⟩
  · exact .inr (generateCodedInner_ok generated)

theorem generateCodedTargeted_ok {self after : Encoder W C F} {coverIds : List SourceSymbolId} {output : Option EncoderOutput}
    (generated : self.generateCodedTargeted coverIds = .ok (after, output)) :
    output = none ∧ after = self ∨
      ∃ bytes, output = some (.coded bytes) ∧ self.Codes (coverIds.filter fun id => self.window.idSlice.contains id) bytes after := by
  unfold generateCodedTargeted at generated
  split at generated
  · cases generated
    exact .inl ⟨rfl, rfl⟩
  dsimp only at generated
  split at generated
  · cases generated
    exact .inl ⟨rfl, rfl⟩
  · exact .inr (generateCodedInner_ok generated)

theorem emitCoded_ok {self after : Encoder W C F} {earlier outputs : List EncoderOutput} {count : ℕ}
    (emitted : self.emitCoded earlier count = .ok (after, outputs)) :
    ∃ coded, outputs = earlier ++ coded ∧ Emits self coded after := by
  induction count generalizing self earlier with
  | zero =>
    cases emitted
    exact ⟨[], (List.append_nil _).symm, .done _⟩
  | succ count ih =>
    obtain ⟨⟨middle, output⟩, generated, rest⟩ := Outcome.bind_eq_ok.mp emitted
    rcases generateCoded_ok generated with ⟨rfl, rfl⟩ | ⟨bytes, rfl, codes⟩
    · cases rest
      exact ⟨[], (List.append_nil _).symm, .done _⟩
    · obtain ⟨coded, rfl, later⟩ := ih rest
      exact ⟨.coded bytes :: coded, by rw [List.append_assoc]; rfl, .next codes later⟩

theorem emitCoded_length {self after : Encoder W C F} {earlier outputs : List EncoderOutput} {count : ℕ}
    (nonempty : self.window.symbols ≠ []) (emitted : self.emitCoded earlier count = .ok (after, outputs)) :
    outputs.length = earlier.length + count := by
  induction count generalizing self earlier with
  | zero =>
    cases emitted
    rfl
  | succ count ih =>
    obtain ⟨⟨middle, output⟩, generated, rest⟩ := Outcome.bind_eq_ok.mp emitted
    rw [generateCoded, if_neg (by simpa [EncodingWindow.isEmpty] using nonempty)] at generated
    obtain ⟨bytes, rfl, codes⟩ := generateCodedInner_ok generated
    obtain ⟨next, cc, advanced, rfl⟩ := codes.advanced
    have frame := advanceCodedId_frame advanced
    have window : next.window = self.window := by rw [frame]
    have length := ih (by rwa [← window] at nonempty) rest
    rw [length, List.length_append, List.length_singleton]
    omega

theorem Emits.coded {self after : Encoder W C F} {outputs : List EncoderOutput} (emits : Emits self outputs after) :
    (∀ output ∈ outputs, ∃ bytes, output = .coded bytes) ∧ after.fec = self.fec := by
  induction emits with
  | done => exact ⟨fun _ none => (List.not_mem_nil none).elim, rfl⟩
  | @next self middle after bytes rest first later ih =>
    obtain ⟨next, cc, advanced, rfl⟩ := first.advanced
    have frame := advanceCodedId_frame advanced
    have fec : next.fec = self.fec := by rw [frame]
    refine ⟨fun output member => ?_, ih.2.trans fec⟩
    rcases List.mem_cons.mp member with rfl | member
    · exact ⟨bytes, rfl⟩
    · exact ih.1 output member

theorem Sound.codes {config : EncoderConfig} {self after : Encoder W C F} {submitted : List Bytes}
    (sound : Sound config self submitted) {cover : List SourceSymbolId} {bytes : Bytes}
    (codes : self.Codes cover bytes after) :
    Sound config after submitted ∧ after.window = self.window ∧ after.ackState = self.ackState := by
  obtain ⟨next, cc, advanced, rfl⟩ := codes.advanced
  have frame := advanceCodedId_frame advanced
  have counts := advanceCodedId_counts (by rw [sound.configured]; exact sound.counts) advanced
  rw [sound.configured] at counts
  rw [frame]
  exact ⟨⟨sound.configured, sound.capacity, sound.fits, sound.sized, sound.tracks, counts⟩, rfl, rfl⟩

theorem Sound.emits {config : EncoderConfig} {self after : Encoder W C F} {submitted : List Bytes}
    (sound : Sound config self submitted) {outputs : List EncoderOutput} (emits : Emits self outputs after) :
    Sound config after submitted ∧ after.window = self.window ∧ after.ackState = self.ackState := by
  induction emits with
  | done => exact ⟨sound, rfl, rfl⟩
  | next first later ih =>
    obtain ⟨middle, window, acks⟩ := sound.codes first
    obtain ⟨last, window', acks'⟩ := ih middle
    exact ⟨last, window'.trans window, acks'.trans acks⟩

end Coding

variable [WindowPolicy W] [CongestionControl C] [FecRateController F]

omit [WindowPolicy W] in
theorem submitSource_rate {self after : Encoder W C F} {data : Bytes} {outputs : List EncoderOutput}
    (submitted : self.submitSource data = .ok (after, outputs)) :
    ∃ state pkt coded, outputs = .source pkt :: coded ∧ (∀ output ∈ coded, ∃ bytes, output = .coded bytes) ∧
      (coded.length, after.fec) = FecRateController.codedPacketsToGenerate self.fec state := by
  unfold submitSource at submitted
  split at submitted
  · cases submitted
  obtain ⟨room, made, submitted⟩ := Outcome.bind_eq_ok.mp submitted
  obtain ⟨⟨window, id⟩, pushed, submitted⟩ := Outcome.bind_eq_ok.mp submitted
  obtain ⟨pkt, _, submitted⟩ := Outcome.bind_eq_ok.mp submitted
  obtain ⟨_, _, symbols, _⟩ := EncodingWindow.push_eq pushed
  have nonempty : window.symbols ≠ [] := by rw [symbols]; simp
  have length := emitCoded_length nonempty submitted
  obtain ⟨coded, rfl, emits⟩ := emitCoded_ok submitted
  obtain ⟨each, fec⟩ := emits.coded
  refine ⟨makeEncoderState window self.config.windowCapacity, pkt, coded, rfl, each, ?_⟩
  rw [List.length_append, Nat.add_left_cancel_iff] at length
  exact Prod.ext length fec

private def offered (result : Result (Encoder W C F × Option EncoderOutput)) :
    Result (Encoder W C F × Except DelpError (List EncoderOutput)) := do
  let (after, output) ← result
  pure (after, .ok output.toList)

/-- One call. A refused submission reports its error and leaves the encoder as it was. -/
def act (self : Encoder W C F) : EncoderAction → Result (Encoder W C F × Except DelpError (List EncoderOutput))
  | .submit data =>
    match self.submitSource data with
    | .ok (after, outputs) => .ok (after, .ok outputs)
    | .err error => .ok (self, .error error)
    | .panic reason => .panic reason
  | .feedback receiverId pkt => do
    let after ← self.handleFeedback receiverId pkt
    pure (after, .ok [])
  | .coded => offered self.generateCoded
  | .targeted coverIds => offered (self.generateCodedTargeted coverIds)
  | .recent n => offered (self.generateCodedRecent n)
  | .forReceiver receiverId => offered (self.generateCodedForReceiver receiverId)

def cover (self : Encoder W C F) : EncoderAction → List SourceSymbolId
  | .submit _ | .feedback _ _ => []
  | .coded => self.window.idSlice
  | .targeted coverIds => coverIds.filter fun id => self.window.idSlice.contains id
  | .recent n => self.window.idSlice.drop (self.window.symbols.length - min n self.window.symbols.length)
  | .forReceiver receiverId => self.window.idSlice.filter fun id => !self.ackState.isAcked receiverId id

inductive Acts (self : Encoder W C F) : EncoderAction → Except DelpError (List EncoderOutput) → Encoder W C F → Prop
  | refused {data : Bytes} {error : DelpError} (refusal : self.submitSource data = .err error) :
      Acts self (.submit data) (.error error) self
  | submitted {data : Bytes} {room window : EncodingWindow} {id : SourceSymbolId} {pkt : Bytes} {cc : C} {fec : F}
      {outputs : List EncoderOutput} {after : Encoder W C F}
      (sized : data.length = self.config.symbolSize) (made : self.makeRoom = .ok room) (pushed : room.push data = .ok (window, id))
      (serialised : SourcePacket.serialise id data (CongestionControl.generateCci self.cc) none = .ok pkt)
      (emits : Emits { self with window, cc, fec } outputs after) :
      Acts self (.submit data) (.ok (.source pkt :: outputs)) after
  | fed {receiverId : ReceiverId} {pkt : FeedbackPacket} {ackState : ReceiverAckState} {removed : List SourceSymbolId}
      {windowPolicy : W} {cc : C} {fec : F} (updated : self.ackState.update receiverId pkt = .ok ackState)
      (chosen : WindowPolicy.symbolsToRemove self.windowPolicy ackState self.window.idSlice = (removed, windowPolicy)) :
      Acts self (.feedback receiverId pkt) (.ok [])
        { self with ackState, windowPolicy, window := self.window.removeIds removed, cc, fec }
  | idle {action : EncoderAction} (generates : action.Generates) : Acts self action (.ok []) self
  | coded {action : EncoderAction} {bytes : Bytes} {after : Encoder W C F} (generates : action.Generates)
      (codes : self.Codes (self.cover action) bytes after) : Acts self action (.ok [.coded bytes]) after

private theorem offered_acts {self after : Encoder W C F} {action : EncoderAction} {reply : Except DelpError (List EncoderOutput)}
    {result : Result (Encoder W C F × Option EncoderOutput)} (generates : action.Generates)
    (inverse : ∀ after output, result = .ok (after, output) →
      output = none ∧ after = self ∨ ∃ bytes, output = some (.coded bytes) ∧ self.Codes (self.cover action) bytes after)
    (called : offered result = .ok (after, reply)) : Acts self action reply after := by
  obtain ⟨⟨next, output⟩, returned, called⟩ := Outcome.bind_eq_ok.mp called
  cases called
  rcases inverse _ _ returned with ⟨rfl, rfl⟩ | ⟨bytes, rfl, codes⟩
  · exact .idle generates
  · exact .coded generates codes

theorem act_ok {self after : Encoder W C F} {action : EncoderAction} {reply : Except DelpError (List EncoderOutput)}
    (called : self.act action = .ok (after, reply)) : Acts self action reply after := by
  cases action with
  | submit data =>
    rw [act] at called
    split at called
    next next outputs submitted =>
      cases called
      unfold submitSource at submitted
      split at submitted
      · cases submitted
      next sized =>
        obtain ⟨room, made, submitted⟩ := Outcome.bind_eq_ok.mp submitted
        obtain ⟨⟨window, id⟩, pushed, submitted⟩ := Outcome.bind_eq_ok.mp submitted
        obtain ⟨pkt, serialised, submitted⟩ := Outcome.bind_eq_ok.mp submitted
        obtain ⟨coded, rfl, emits⟩ := emitCoded_ok submitted
        exact .submitted (not_not.mp sized) made pushed serialised emits
    next error refusal =>
      cases called
      exact .refused refusal
    · cases called
  | feedback receiverId pkt =>
    obtain ⟨next, handled, called⟩ := Outcome.bind_eq_ok.mp called
    obtain ⟨ackState, updated, handled⟩ := Outcome.bind_eq_ok.mp handled
    have removal (removed : List SourceSymbolId) :
        (if removed.isEmpty then self.window else self.window.removeIds removed) = self.window.removeIds removed := by
      split
      next none => rw [EncodingWindow.removeIds, if_pos none]
      next => rfl
    cases called
    cases handled
    rw [removal]
    exact .fed updated rfl
  | coded => exact offered_acts trivial (fun _ _ generated => generateCoded_ok generated) called
  | targeted coverIds => exact offered_acts trivial (fun _ _ generated => generateCodedTargeted_ok generated) called
  | recent n =>
    refine offered_acts trivial (fun after output generated => ?_) called
    unfold generateCodedRecent at generated
    split at generated
    · cases generated
      exact .inl ⟨rfl, rfl⟩
    · right
      rw [cover, EncodingWindow.idSlice, ← List.map_drop]
      exact generateCodedInner_ok generated
  | forReceiver receiverId =>
    refine offered_acts trivial (fun after output generated => ?_) called
    unfold generateCodedForReceiver at generated
    split at generated
    · cases generated
      exact .inl ⟨rfl, rfl⟩
    dsimp only at generated
    split at generated
    · cases generated
      exact .inl ⟨rfl, rfl⟩
    · exact .inr (generateCodedInner_ok generated)

abbrev Runs (config : EncoderConfig) (windowPolicy : W) (cc : C) (fec : F)
    (calls : List (Call (Encoder W C F) EncoderAction (Except DelpError (List EncoderOutput)))) (final : Encoder W C F) : Prop :=
  Run act (new config windowPolicy cc fec) calls final

theorem Sound.acts {config : EncoderConfig} {self after : Encoder W C F} {submitted : List Bytes}
    (sound : Sound config self submitted) {action : EncoderAction} {reply : Except DelpError (List EncoderOutput)}
    (acts : Acts self action reply after) : Sound config after (submitted ++ acceptedBy action reply) := by
  cases acts with
  | refused =>
    rw [show acceptedBy _ _ = [] from rfl, List.append_nil]
    exact sound
  | submitted sized made pushed serialised emits => exact ((sound.pushed sized made pushed _ _).emits emits).1
  | fed =>
    obtain ⟨ks, tracks⟩ := sound.tracks
    rw [show acceptedBy _ _ = [] from rfl, List.append_nil]
    exact ⟨sound.configured, EncodingWindow.removeIds_capacity.trans sound.capacity,
      EncodingWindow.removeIds_length.trans sound.fits, sound.sized, ⟨_, tracks.removeIds _⟩, sound.counts⟩
  | idle generates =>
    rw [acceptedBy_generates generates, List.append_nil]
    exact sound
  | coded generates codes =>
    rw [acceptedBy_generates generates, List.append_nil]
    exact (sound.codes codes).1

/-- Every encoder that a run reaches is sound for what the run has accepted. -/
theorem runs_sound {config : EncoderConfig} {windowPolicy : W} {cc : C} {fec : F}
    {calls : List (Call (Encoder W C F) EncoderAction (Except DelpError (List EncoderOutput)))} {final : Encoder W C F}
    (runs : Runs config windowPolicy cc fec calls final) : Sound config final (accepted calls) := by
  refine runs.preserves (fun calls state => Sound config state (accepted calls)) (fun _ => True) (new_sound config _ _ _) ?_
    fun _ _ => trivial
  intro calls state input after output sound stepped _
  rw [accepted_append]
  exact sound.acts (act_ok stepped)

end Encoder
end Delp
