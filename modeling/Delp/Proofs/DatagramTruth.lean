import Delp.Proofs.NetworkParts

/-! What the datagrams of a network say: whatever reads one of them reads the symbols that the
encoder has accepted, under the ids that it gave them. -/

namespace Delp
open Machine Config Gf

theorem unpackNibbles_small {bytes : Bytes} {count : ℕ} : ∀ c ∈ unpackNibbles bytes count, c < 16 := by
  have loop (out : Bytes) (small : ∀ c ∈ out, c < 16) : ∀ c ∈ unpackNibblesFrom count out bytes, c < 16 := by
    induction bytes generalizing out with
    | nil => exact fun c member => small c (List.mem_of_mem_take member)
    | cons byte rest ih =>
      have grown : ∀ c ∈ out ++ [(byte >>> 4) &&& 0x0F], c < 16 := by
        intro c member
        rcases List.mem_append.mp member with old | new
        · exact small c old
        · rw [List.mem_singleton.mp new]
          exact Gf2_4.mask_lt _
      refine ih _ fun c member => ?_
      split at member
      · rcases List.mem_append.mp member with old | new
        · exact grown c old
        · rw [List.mem_singleton.mp new]
          exact Gf2_4.mask_lt _
      · exact grown c member
  exact loop [] fun c member => (List.not_mem_nil member).elim

theorem CodedPacket.parse_inField {buf : Bytes} {packet : CodedPacket} (parsed : parse buf = .ok packet) :
    ∀ c ∈ packet.ev.coefficients, InField packet.ev.field c := by
  obtain ⟨_, _, vector, _⟩ := parse_ok parsed
  obtain ⟨_, _, read⟩ := vector.ids
  intro c member
  rcases read with ⟨_, none⟩ | ⟨_, listed⟩
  · rw [none] at member
    cases member
  · unfold EncodingVector.parseCoefs at listed
    generalize packet.ev.field = field at listed ⊢
    cases field with
    | gf2_8 => exact trivial
    | gf2_4 =>
      dsimp only at listed
      split at listed
      · cases listed
      · obtain ⟨raw, _, same⟩ := Outcome.bind_eq_ok.mp listed
        rw [← Outcome.ok.inj same] at member
        exact unpackNibbles_small c member

/-- The symbols of a session by id: those submitted, and zeros elsewhere. -/
def stream (config : EncoderConfig) (submitted : List Bytes) (id : SourceSymbolId) : Bytes :=
  submitted.getD id.toNat (List.replicate config.symbolSize 0)

theorem stream_sized {config : EncoderConfig} {submitted : List Bytes} (sized : ∀ data ∈ submitted, data.length = config.symbolSize)
    (id : SourceSymbolId) : (stream config submitted id).length = config.symbolSize := by
  by_cases inside : id.toNat < submitted.length
  · rw [stream, List.getD_eq_getElem _ _ inside]
    exact sized _ (List.getElem_mem inside)
  · rw [stream, List.getD_eq_default _ _ (Nat.le_of_not_lt inside), List.length_replicate]

theorem stream_of {config : EncoderConfig} {submitted : List Bytes} {id : SourceSymbolId} {data : Bytes}
    (found : submitted[id.toNat]? = some data) : stream config submitted id = data := by
  rw [stream, List.getD_eq_getElem?_getD, found]
  rfl

structure DecoderConfig.Matches (target : DecoderConfig) (config : EncoderConfig) : Prop where
  field : target.field = config.field
  symbolSize : target.symbolSize = config.symbolSize

def EncoderOutput.kind : EncoderOutput → PacketType
  | .source _ => .source
  | .coded _ => .coded

theorem EncoderOutput.reads_kind {output : EncoderOutput} (typed : (CommonHeader.ofBytes output.raw).pktType = output.kind.toU8)
    {arrival : Arrival} (reads : arrival.Reads output.raw) : arrival.kind = output.kind := by
  have injective : Function.Injective PacketType.toU8 := by
    intro first second same
    cases first <;> cases second <;> first | rfl | exact absurd same (by decide)
  exact injective (reads.typed.2.symm.trans typed)

def Arrival.ids : Arrival → List SourceSymbolId
  | .source packet => [packet.sourceSymbolId]
  | .coded packet => packet.ev.sourceIds

namespace Encoder
variable {W C F : Type} {config : EncoderConfig} {self after : Encoder W C F} {submitted whole : List Bytes}

theorem Sound.stream_held (sound : Sound config self submitted) (inside : submitted <+: whole) (few : whole.length < 4294967296)
    {s : WindowSymbol} (held : s ∈ self.window.symbols) : stream config whole s.id = s.data := by
  have shorter := inside.length_le
  have own := (sound.represents (by omega)).own s held
  obtain ⟨rest, rfl⟩ := inside
  apply stream_of
  rw [List.getElem?_append_left (List.getElem?_eq_some_iff.mp own).1, own]

variable [WindowPolicy W] [CongestionControl C] [FecRateController F] {action : EncoderAction} {outputs : List EncoderOutput}

theorem Acts.source_reads (sound : Sound config self submitted) (few : submitted.length < 4294967296)
    (acts : Acts self action (.ok outputs) after) {bytes : Bytes} (member : .source bytes ∈ outputs) {packet : SourcePacket}
    (parsed : SourcePacket.parse bytes = .ok packet) :
    acceptedBy action (.ok outputs) = [packet.payload] ∧ packet.sourceSymbolId.toNat = submitted.length := by
  cases acts with
  | fed => cases member
  | idle => cases member
  | coded => cases List.mem_singleton.mp member
  | @submitted data room window id pkt cc fec outputs _ sized made pushed serialised emits =>
    have source : bytes = pkt := by
      rcases List.mem_cons.mp member with same | later
      · cases same
        rfl
      · obtain ⟨_, impossible⟩ := emits.coded.1 _ later
        cases impossible
    subst source
    obtain ⟨header, read⟩ := SourcePacket.parse_of_serialise serialised
    cases parsed.symm.trans read
    refine ⟨rfl, ?_⟩
    rw [(EncodingWindow.push_eq pushed).2.1, (makeRoom_kept made).2]
    exact (sound.ordered few).1

theorem Acts.typed (sound : Sound config self submitted) (acts : Acts self action (.ok outputs) after) {output : EncoderOutput}
    (member : output ∈ outputs) : (CommonHeader.ofBytes output.raw).pktType = output.kind.toU8 := by
  cases output with
  | coded bytes =>
    obtain ⟨_, _, _, _, _, codes⟩ := acts.coded_mem sound member
    obtain ⟨_, _, _, _, _, serialised⟩ := codes.packet
    exact serialised_typed.2 _ serialised
  | source bytes =>
    cases acts with
    | fed => cases member
    | idle => cases member
    | coded => cases List.mem_singleton.mp member
    | submitted _ _ _ serialised emits =>
      rcases List.mem_cons.mp member with same | later
      · cases same
        exact serialised_typed.1 serialised
      · obtain ⟨_, impossible⟩ := emits.coded.1 _ later
        cases impossible

/-- A coded packet whose cover fits the wire format states the symbols of the session, and lists submitted ids only. -/
theorem Acts.coded_reads (sound : Sound config self submitted) (acts : Acts self action (.ok outputs) after)
    (inside : submitted ++ acceptedBy action (.ok outputs) <+: whole) (few : whole.length < 4294967296) {bytes : Bytes}
    (member : .coded bytes ∈ outputs) (fits : CoverFits (self.covers action)) {packet : CodedPacket}
    (parsed : CodedPacket.parse bytes = .ok packet) :
    packet.States config.field config.symbolSize (stream config whole) ∧
      ∀ id ∈ packet.ev.sourceIds, id.toNat < (submitted ++ acceptedBy action (.ok outputs)).length := by
  obtain ⟨middle, next, middleSound, ids, subset, codes⟩ := acts.coded_mem sound member
  rw [← ids] at subset
  have shorter := inside.length_le
  obtain ⟨counter, _, below⟩ := middleSound.ordered (by omega)
  obtain ⟨same, coefs, read, field, listed, derived, payload⟩ := codes.states middleSound fits.1 fits.2 fun id covered =>
    middleSound.found (x := stream config whole) (fun s held => middleSound.stream_held inside few held) (subset covered)
  cases parsed.symm.trans read
  have low (id : SourceSymbolId) (member : id ∈ packet.ev.sourceIds) :
      id.toNat < (submitted ++ acceptedBy action (.ok outputs)).length := by
    rw [← counter, ← lt_iff]
    exact below id (subset (listed ▸ member))
  refine ⟨⟨⟨field, fun c member => field ▸ CodedPacket.parse_inField parsed c member, fun id member => ?_⟩,
    listed ▸ fits.2.nodup, coefs, derived, listed ▸ payload⟩, low⟩
  have bounded := low id member
  rw [lt_iff, show (0xFFFFFFFF : UInt32).toNat = 4294967295 from rfl]
  omega

end Encoder

/-- What a datagram says of a session that submits `whole`: a packet that is read from it carries symbols of
the session, all of them among the first `count`. -/
structure Datagram.True (config : EncoderConfig) (whole : List Bytes) (count : ℕ) (datagram : Datagram) : Prop where
  carries : ∀ target : DecoderConfig, target.Matches config → ∀ arrival : Arrival, arrival.Reads datagram.raw →
    arrival.Carries target (stream config whole)
  below : ∀ arrival : Arrival, arrival.Reads datagram.raw → ∀ id ∈ arrival.ids, id.toNat < count

theorem Datagram.True.mono {config : EncoderConfig} {whole : List Bytes} {count more : ℕ} {datagram : Datagram}
    (holds : datagram.True config whole count) (grows : count ≤ more) : datagram.True config whole more :=
  ⟨holds.carries, fun arrival reads id member => Nat.lt_of_lt_of_le (holds.below arrival reads id member) grows⟩

/-- A datagram that is sent after another: its source packet is not one that the other has covered. -/
def Datagram.Follows (earlier later : Datagram) : Prop :=
  ∀ coded source, CodedPacket.parse earlier.raw = .ok coded → SourcePacket.parse later.raw = .ok source →
    source.sourceSymbolId ∉ coded.ev.sourceIds

namespace Network
variable {W C F P : Type}

/-- The covers of the coded packets of a step fit the wire format. -/
def CoversFit (call : Call (Network W C F P) NetworkAction NetworkReply) : Prop :=
  ∀ action outputs bytes, call.input = .encode action → call.output = .encoded (.ok outputs) → .coded bytes ∈ outputs →
    Encoder.CoverFits (call.before.encoder.covers action)

variable [WindowPolicy W] [CongestionControl C] [FecRateController F] {config : EncoderConfig}
  {before after : Encoder W C F} {submitted : List Bytes} {action : EncoderAction} {outputs : List EncoderOutput}

/-- Every datagram of a call is true of each session that the call is part of. -/
theorem outputs_true (sound : Encoder.Sound config before submitted) (acts : Encoder.Acts before action (.ok outputs) after)
    {whole : List Bytes} (inside : submitted ++ Encoder.acceptedBy action (.ok outputs) <+: whole) (few : whole.length < 4294967296)
    (fits : ∀ bytes, .coded bytes ∈ outputs → Encoder.CoverFits (before.covers action)) {datagram : Datagram}
    (member : datagram ∈ datagrams after (.ok outputs)) :
    datagram.True config whole (submitted ++ Encoder.acceptedBy action (.ok outputs)).length := by
  obtain ⟨output, listed, rfl⟩ := List.mem_map.mp member
  have shorter := inside.length_le
  have short : submitted.length < 4294967296 := by
    rw [List.length_append] at shorter
    omega
  have typed := acts.typed sound listed
  have source (packet : SourcePacket) (reads : (Arrival.source packet).Reads output.raw) :
      packet.payload = stream config whole packet.sourceSymbolId ∧
        packet.sourceSymbolId.toNat < (submitted ++ Encoder.acceptedBy action (.ok outputs)).length := by
    cases output with
    | coded bytes => cases EncoderOutput.reads_kind typed reads
    | source bytes =>
      obtain ⟨taken, rank⟩ := acts.source_reads sound short listed reads
      rw [taken] at inside ⊢
      obtain ⟨rest, rfl⟩ := inside
      refine ⟨(stream_of ?_).symm, ?_⟩
      · rw [rank, List.append_assoc, List.getElem?_append_right (Nat.le_refl _), Nat.sub_self]
        rfl
      · rw [rank, List.length_append, List.length_singleton]
        exact Nat.lt_succ_self _
  have coded (packet : CodedPacket) (reads : (Arrival.coded packet).Reads output.raw) :
      packet.States config.field config.symbolSize (stream config whole) ∧
        ∀ id ∈ packet.ev.sourceIds, id.toNat < (submitted ++ Encoder.acceptedBy action (.ok outputs)).length := by
    cases output with
    | source bytes => cases EncoderOutput.reads_kind typed reads
    | coded bytes => exact acts.coded_reads sound inside few listed (fits bytes listed) reads
  refine ⟨fun target fitting arrival reads => ?_, fun arrival reads id held => ?_⟩
  · cases arrival with
    | source packet => exact (source packet reads).1
    | coded packet =>
      rw [Arrival.Carries, fitting.field, fitting.symbolSize]
      exact (coded packet reads).1
  · cases arrival with
    | source packet =>
      cases List.mem_singleton.mp held
      exact (source packet reads).2
    | coded packet => exact (coded packet reads).2 id held

/-- No datagram of a call is a source packet that an earlier datagram has covered. -/
theorem outputs_follow (sound : Encoder.Sound config before submitted) (few : submitted.length < 4294967296)
    (acts : Encoder.Acts before action (.ok outputs) after) :
    (datagrams after (.ok outputs)).Pairwise Datagram.Follows ∧
      ∀ earlier : Datagram, earlier.True config submitted submitted.length → ∀ later ∈ datagrams after (.ok outputs),
        earlier.Follows later := by
  constructor
  · refine List.pairwise_map.mpr ?_
    have rest : ∀ output ∈ outputs.tail, output.kind = .coded := by
      cases acts with
      | submitted _ _ _ _ emits =>
        intro output later
        obtain ⟨bytes, rfl⟩ := emits.coded.1 output later
        rfl
      | fed | idle | coded => exact fun output member => (List.not_mem_nil member).elim
    cases outputs with
    | nil => exact .nil
    | cons first outputs =>
      have late (output : EncoderOutput) (member : output ∈ outputs) (earlier : EncoderOutput) :
          Datagram.Follows ⟨earlier.raw, after.window.idSlice⟩ ⟨output.raw, after.window.idSlice⟩ := by
        intro coded source _ reads
        have same : (Arrival.source source).kind = output.kind :=
          EncoderOutput.reads_kind (acts.typed sound (List.mem_cons_of_mem _ member)) reads
        cases same.trans (rest output member)
      exact List.pairwise_cons.mpr ⟨fun output member => late output member first,
        List.pairwise_of_forall_mem_list fun earlier _ output member => late output member earlier⟩
  · intro earlier holds later member coded source read reads listed
    obtain ⟨output, inside, rfl⟩ := List.mem_map.mp member
    have low := holds.below (.coded coded) read source.sourceSymbolId listed
    have same : (Arrival.source source).kind = output.kind := EncoderOutput.reads_kind (acts.typed sound inside) reads
    cases output with
    | coded bytes => cases same
    | source bytes =>
      rw [(acts.source_reads sound few inside reads).2] at low
      exact absurd low (Nat.lt_irrefl _)

section Runs
variable [FeedbackPolicy P] {windowPolicy : W} {cc : C} {fec : F} {receivers : ReceiverId → DecoderConfig × P}
  {calls : List (Call (Network W C F P) NetworkAction NetworkReply)} {final : Network W C F P}

structure Told (config : EncoderConfig) (calls : List (Call (Network W C F P) NetworkAction NetworkReply)) (state : Network W C F P) :
    Prop where
  sound : Encoder.Sound config state.encoder (accepted calls)
  sent : ∀ whole, accepted calls <+: whole → whole.length < 4294967296 → ∀ datagram ∈ state.sent,
    datagram.True config whole (accepted calls).length
  ordered : (accepted calls).length < 4294967296 → state.sent.Pairwise Datagram.Follows

theorem Told.step {before after : Network W C F P} {action : NetworkAction} {reply : NetworkReply}
    (told : Told config calls before) (steps : Steps before action reply after)
    (fits : CoversFit ⟨before, action, after, reply⟩) : Told config (calls ++ [⟨before, action, after, reply⟩]) after := by
  refine ⟨sound_step told.sound steps, ?_, ?_⟩
  · intro whole inside few datagram member
    rw [accepted_append] at inside ⊢
    have old (member : datagram ∈ before.sent) :
        datagram.True config whole (accepted calls ++ accepted [⟨before, action, after, reply⟩]).length :=
      (told.sent whole ((List.prefix_append _ _).trans inside) few datagram member).mono
        (by rw [List.length_append]; exact Nat.le_add_right _ _)
    cases steps with
    | @encoded action encoder reply acted =>
      rcases List.mem_append.mp member with earlier | new
      · exact old earlier
      · cases reply with
        | error => cases new
        | ok outputs =>
          have one : accepted [⟨before, .encode action, { before with encoder, sent := before.sent ++ datagrams encoder (.ok outputs) },
              .encoded (.ok outputs)⟩] = Encoder.acceptedBy action (.ok outputs) := List.append_nil _
          rw [one] at inside ⊢
          exact outputs_true told.sound (Encoder.act_ok acted) inside few
            (fun bytes coded => fits action outputs bytes rfl rfl coded) new
    | handled | dropped | acknowledged | ignored => exact old member
  · intro few
    rw [accepted_append, List.length_append] at few
    have short : (accepted calls).length < 4294967296 := by omega
    cases steps with
    | @encoded action encoder reply acted =>
      cases reply with
      | error =>
        rw [show before.sent ++ datagrams encoder (.error _) = before.sent from List.append_nil _]
        exact told.ordered short
      | ok outputs =>
        obtain ⟨new, cross⟩ := outputs_follow told.sound short (Encoder.act_ok acted)
        exact List.pairwise_append.mpr ⟨told.ordered short, new, fun earlier member =>
          cross earlier (told.sent _ (List.prefix_refl _) short earlier member)⟩
    | handled | dropped | acknowledged | ignored => exact told.ordered short

theorem run_told (run : Run step (new config windowPolicy cc fec receivers) calls final) (fits : ∀ call ∈ calls, CoversFit call) :
    Told config calls final := by
  refine run.preserves (Told config) CoversFit ⟨Encoder.new_sound _ _ _ _, ?_, fun _ => .nil⟩ ?_ fits
  · exact fun _ _ _ datagram member => (List.not_mem_nil member).elim
  · intro calls before action after reply told stepped fits
    exact told.step (step_ok stepped) fits

end Runs
end Network
end Delp
