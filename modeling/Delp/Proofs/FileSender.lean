import Delp.Cli.Send
import Delp.Proofs.Link

/-! What `delp send` puts on the wire: the packets of a run of its encoder, between two control frames. -/

namespace Delp
open Machine

/-- The calls that `delp send` makes: it reads no feedback, and targets no ids of its own choice. -/
def EncoderAction.Plain : EncoderAction → Prop
  | .submit _ | .coded | .recent _ | .forReceiver _ => True
  | .feedback _ _ | .targeted _ => False

namespace Encoder
variable {W C F : Type}

/-- The window holds the last symbols that have been submitted, without a hole. -/
def Unbroken (window : EncodingWindow) (rank : ℕ) : Prop :=
  ∃ first count, first + count = rank ∧ window.idSlice = (List.range' first count).map UInt32.ofNat ∧
    window.nextId = UInt32.ofNat rank

theorem Unbroken.evictOldest {window : EncodingWindow} {rank : ℕ} (unbroken : Unbroken window rank) : Unbroken window.evictOldest rank := by
  obtain ⟨first, count, total, ids, next⟩ := unbroken
  cases count with
  | zero =>
    refine ⟨first, 0, total, ?_, next⟩
    have ids : window.symbols.map (·.id) = [] := ids
    rw [EncodingWindow.idSlice, EncodingWindow.evictOldest, List.map_eq_nil_iff.mp ids]
    rfl
  | succ count =>
    refine ⟨first + 1, count, by omega, ?_, next⟩
    have ids : window.symbols.map (·.id) = (List.range' first (count + 1)).map UInt32.ofNat := ids
    rw [EncodingWindow.idSlice, EncodingWindow.evictOldest, List.map_drop, ids, ← List.map_drop, List.range'_succ]
    rfl

theorem Unbroken.push {window after : EncodingWindow} {rank : ℕ} {data : Bytes} {id : SourceSymbolId}
    (unbroken : Unbroken window rank) (pushed : window.push data = .ok (after, id)) : Unbroken after (rank + 1) := by
  obtain ⟨first, count, total, ids, next⟩ := unbroken
  obtain ⟨_, _, symbols, _, nextId, _⟩ := EncodingWindow.push_eq pushed
  refine ⟨first, count + 1, by omega, ?_, ?_⟩
  · have ids : window.symbols.map (·.id) = (List.range' first count).map UInt32.ofNat := ids
    rw [EncodingWindow.idSlice, symbols, List.map_append, ids, List.range'_1_concat, List.map_append, total, List.map_singleton,
      List.map_singleton, next]
  · rw [nextId, next, UInt32.ofNat_add]
    rfl

theorem Unbroken.coverFits {window : EncodingWindow} {rank : ℕ} (unbroken : Unbroken window rank) (few : rank ≤ 4294967296)
    (small : window.symbols.length ≤ 255) {cover : List SourceSymbolId} (part : cover.Sublist window.idSlice) : CoverFits cover := by
  obtain ⟨first, count, total, ids, _⟩ := unbroken
  have length : window.symbols.length = count := by
    rw [← List.length_map (f := fun s : WindowSymbol => s.id), show window.symbols.map _ = window.idSlice from rfl, ids,
      List.length_map, List.length_range']
  rw [ids] at part
  obtain ⟨ranks, chosen, rfl⟩ := List.sublist_map_iff.mp part
  have inside (k : ℕ) (member : k ∈ ranks) : first ≤ k ∧ k < first + count := by
    have listed := chosen.subset member
    rwa [List.mem_range'_1] at listed
  have word (k : ℕ) (member : k ∈ ranks) : (UInt32.ofNat k).toNat = k := toNat_ofNat (by have := inside k member; omega)
  have ascending : ranks.Pairwise (· < ·) := List.Pairwise.sublist chosen (List.pairwise_lt_range' (s := first) (n := count))
  refine ⟨?_, ?_⟩
  · rw [List.length_map]
    have shorter := chosen.length_le
    rw [List.length_range'] at shorter
    omega
  · refine (List.isChain_map _).mpr (List.Pairwise.isChain ?_)
    refine ascending.imp_of_mem fun first second less => ?_
    have low := inside _ first
    have high := inside _ second
    rw [word _ first, word _ second]
    omega

theorem Unbroken.pushed {self : Encoder W C F} {rank : ℕ} (unbroken : Unbroken self.window rank) {data : Bytes} {room window : EncodingWindow}
    {id : SourceSymbolId} (made : self.makeRoom = .ok room) (pushed : room.push data = .ok (window, id)) : Unbroken window (rank + 1) := by
  rcases makeRoom_ok made with rfl | rfl
  · exact unbroken.push pushed
  · exact unbroken.evictOldest.push pushed

variable [WindowPolicy W] [CongestionControl C] [FecRateController F] {config : EncoderConfig} {self after : Encoder W C F}
  {submitted : List Bytes} {action : EncoderAction} {reply : Except DelpError (List EncoderOutput)}

theorem Acts.unbroken (sound : Sound config self submitted) (unbroken : Unbroken self.window submitted.length)
    (acts : Acts self action reply after) (plain : action.Plain) :
    Unbroken after.window (submitted ++ acceptedBy action reply).length := by
  cases acts with
  | fed => exact plain.elim
  | refused => rwa [show acceptedBy _ _ = [] from rfl, List.append_nil]
  | idle generates => rwa [acceptedBy_generates generates, List.append_nil]
  | coded generates codes =>
    rw [acceptedBy_generates generates, List.append_nil, (sound.codes codes).2.1]
    exact unbroken
  | submitted sized made pushed serialised emits =>
    rw [((sound.pushed sized made pushed _ _).emits emits).2.1, List.length_append]
    exact unbroken.pushed made pushed

theorem Acts.plain_fits (sound : Sound config self submitted) (unbroken : Unbroken self.window submitted.length)
    {outputs : List EncoderOutput} (acts : Acts self action (.ok outputs) after) (plain : action.Plain)
    (small : config.windowCapacity ≤ 255) (few : (submitted ++ acceptedBy action (.ok outputs)).length ≤ 4294967296)
    {bytes : Bytes} (member : .coded bytes ∈ outputs) : CoverFits (self.covers action) := by
  have held : self.window.symbols.length ≤ 255 := Nat.le_trans sound.fits small
  cases acts with
  | fed => exact plain.elim
  | idle => cases member
  | coded generates codes =>
    rw [acceptedBy_generates generates, List.append_nil] at few
    refine unbroken.coverFits few held ?_
    cases action with
    | submit | feedback => exact generates.elim
    | targeted => exact plain.elim
    | coded => exact List.Sublist.refl _
    | recent n => exact List.drop_sublist _ _
    | forReceiver receiverId => exact List.filter_sublist
  | @submitted data made window id pkt cc fec emitted _ sized room pushed serialised emits =>
    have fits := (sound.pushed sized room pushed self.cc self.fec).fits
    rw [List.length_append] at few
    obtain ⟨ids, counter⟩ := makeRoom_kept room
    have ids : made.symbols.map (·.id) = self.kept := ids
    refine (unbroken.pushed room pushed).coverFits few (Nat.le_trans fits small) ?_
    rw [EncodingWindow.idSlice, (EncodingWindow.push_eq pushed).2.2.1, List.map_append, List.map_singleton, counter, ids]
    exact List.Sublist.refl _

end Encoder

namespace Network
variable {W C F P : Type} [WindowPolicy W] [CongestionControl C] [FecRateController F] [FeedbackPolicy P]

/-- The covers of a run of plain calls fit the wire format, while the window is small enough. -/
theorem plain_coversFit {config : EncoderConfig} {windowPolicy : W} {cc : C} {fec : F} {receivers : ReceiverId → DecoderConfig × P}
    {steps : List (Call (Network W C F P) NetworkAction NetworkReply)} {final : Network W C F P}
    (run : Run step (new config windowPolicy cc fec receivers) steps final) (small : config.windowCapacity ≤ 255)
    (few : (accepted steps).length ≤ 4294967296)
    (plain : ∀ call ∈ steps, ∀ action, call.input = .encode action → action.Plain)
    (encodes : ∀ call ∈ steps, ∃ action, call.input = .encode action) : ∀ call ∈ steps, CoversFit call := by
  have kept (earlier : List (Call (Network W C F P) NetworkAction NetworkReply)) (before : Network W C F P)
      (run : Run step (new config windowPolicy cc fec receivers) earlier before) (inside : earlier <+: steps) :
      Encoder.Sound config before.encoder (accepted earlier) ∧ Encoder.Unbroken before.encoder.window (accepted earlier).length := by
    refine run.preserves (fun calls state => Encoder.Sound config state.encoder (accepted calls) ∧
      Encoder.Unbroken state.encoder.window (accepted calls).length)
      (fun call => ∃ action : EncoderAction, call.input = .encode action ∧ action.Plain)
      ⟨Encoder.new_sound _ _ _ _, 0, 0, rfl, rfl, rfl⟩ ?_ fun call member => ?_
    · intro calls state action after reply held stepped allowed
      obtain ⟨own, input, plain⟩ := allowed
      cases input
      obtain ⟨⟨encoder, outputs⟩, acted, same⟩ := Outcome.bind_eq_ok.mp stepped
      cases same
      have one : accepted [⟨state, .encode own, { state with encoder, sent := state.sent ++ datagrams encoder outputs },
          .encoded outputs⟩] = Encoder.acceptedBy own outputs := List.append_nil _
      rw [accepted_append, one]
      exact ⟨held.1.acts (Encoder.act_ok acted), (Encoder.act_ok acted).unbroken held.1 held.2 plain⟩
    · obtain ⟨action, input⟩ := encodes call (inside.subset member)
      exact ⟨action, input, plain call (inside.subset member) action input⟩
  intro call member action outputs bytes input output coded
  obtain ⟨earlier, before, inside, stepped⟩ := run.at_call member
  obtain ⟨sound, unbroken⟩ := kept earlier call.before before ((List.prefix_append _ _).trans inside)
  rw [input] at stepped
  obtain ⟨⟨encoder, reply⟩, acted, same⟩ := Outcome.bind_eq_ok.mp stepped
  have reply : reply = .ok outputs := by
    have replied : NetworkReply.encoded reply = call.output := congrArg Prod.snd (Outcome.ok.inj same)
    rw [output] at replied
    exact NetworkReply.encoded.inj replied
  subst reply
  have one : accepted [call] = Encoder.acceptedBy action (.ok outputs) := by
    rw [accepted, List.flatMap_singleton, input, output]
  refine (Encoder.act_ok acted).plain_fits sound unbroken (plain call member action input) small ?_ coded
  have shorter : (accepted (earlier ++ [call])).length ≤ _ := List.IsPrefix.length_le <| accepted_prefix inside
  rw [accepted_append, one] at shorter
  exact Nat.le_trans shorter few

end Network

namespace Send

/-- A computation of the sender as a run of its encoder, which takes some of the given symbols, and all of them if it returns. -/
structure Drives (before : DefaultEncoder) (chunks : List Bytes) (sent : Sent DefaultEncoder)
    (calls : List (Call DefaultEncoder EncoderAction (Except DelpError (List EncoderOutput)))) (after : DefaultEncoder) : Prop where
  run : Run Encoder.act before calls after
  raws : sent.raws = Encoder.packets calls
  plain : ∀ call ∈ calls, call.input.Plain
  submits : Encoder.accepted calls <+: chunks
  returns : ∀ encoder, sent.result = .ok encoder → encoder = after ∧ Encoder.accepted calls = chunks

theorem Drives.nothing {before : DefaultEncoder} {chunks : List Bytes} {sent : Sent DefaultEncoder} (silent : sent.raws = [])
    (returns : ∀ encoder, sent.result = .ok encoder → encoder = before ∧ chunks = []) : Drives before chunks sent [] before :=
  ⟨.start, silent, fun _ member => (List.not_mem_nil member).elim, List.nil_prefix,
    fun encoder returned => ⟨(returns encoder returned).1, (returns encoder returned).2.symm⟩⟩

theorem Drives.bind {before middle : DefaultEncoder} {chunks : List Bytes} {sent : Sent DefaultEncoder}
    {next : DefaultEncoder → Sent DefaultEncoder} {calls : List (Call DefaultEncoder EncoderAction (Except DelpError (List EncoderOutput)))}
    (drives : Drives before chunks sent calls middle) (more : List Bytes)
    (rest : sent.result = .ok middle → ∃ later after, Drives middle more (next middle) later after) :
    ∃ calls after, Drives before (chunks ++ more) (sent >>= next) calls after := by
  have cut (reason : Result DefaultEncoder) (failed : ∀ encoder, reason ≠ .ok encoder) :
      Drives before (chunks ++ more) ⟨sent.raws, reason⟩ calls middle :=
    ⟨drives.run, drives.raws, drives.plain, drives.submits.trans (List.prefix_append _ _),
      fun encoder returned => absurd returned (failed encoder)⟩
  cases returned : sent.result with
  | err error =>
    have same : (sent >>= next) = ⟨sent.raws, .err error⟩ := by
      show Sent.bind sent next = _
      rw [Sent.bind, returned]
    exact ⟨calls, middle, same ▸ cut _ fun _ impossible => by cases impossible⟩
  | panic reason =>
    have same : (sent >>= next) = ⟨sent.raws, .panic reason⟩ := by
      show Sent.bind sent next = _
      rw [Sent.bind, returned]
    exact ⟨calls, middle, same ▸ cut _ fun _ impossible => by cases impossible⟩
  | ok encoder =>
    obtain ⟨rfl, whole⟩ := drives.returns encoder returned
    obtain ⟨later, after, further⟩ := rest returned
    have same : (sent >>= next) = ⟨sent.raws ++ (next encoder).raws, (next encoder).result⟩ := by
      show Sent.bind sent next = _
      rw [Sent.bind, returned]
    have packets : Encoder.packets (calls ++ later) = Encoder.packets calls ++ Encoder.packets later := List.flatMap_append
    have accepted : Encoder.accepted (calls ++ later) = chunks ++ Encoder.accepted later := by
      rw [Encoder.accepted, List.flatMap_append]
      exact congrArg (· ++ _) whole
    refine ⟨calls ++ later, after, ?_⟩
    rw [same]
    refine ⟨drives.run.append further.run, ?_, fun call member => ?_, ?_, fun last returned => ?_⟩
    · rw [packets, ← drives.raws, ← further.raws]
    · rcases List.mem_append.mp member with first | second
      · exact drives.plain call first
      · exact further.plain call second
    · rw [accepted]
      exact (List.prefix_append_right_inj chunks).mpr further.submits
    · obtain ⟨same, all⟩ := further.returns last returned
      exact ⟨same, by rw [accepted, all]⟩

private theorem one_call {before after : DefaultEncoder} {action : EncoderAction} {outputs : List EncoderOutput}
    (acted : before.act action = .ok (after, .ok outputs)) (plain : action.Plain) {chunks : List Bytes}
    (accepts : Encoder.acceptedBy action (.ok outputs) = chunks) :
    Drives before chunks ⟨outputs.map (·.raw), .ok after⟩ [⟨before, action, after, .ok outputs⟩] after := by
  have all : Encoder.accepted [⟨before, action, after, .ok outputs⟩] = chunks := (List.append_nil _).trans accepts
  refine ⟨.call .start acted, ?_, fun call member => ?_, ?_, fun encoder returned => ⟨(Outcome.ok.inj returned).symm, all⟩⟩
  · rw [Encoder.packets, List.flatMap_singleton]
    rfl
  · cases List.mem_singleton.mp member
    exact plain
  · rw [all]

private theorem generates_call {before : DefaultEncoder} {sent : Sent DefaultEncoder} (action : EncoderAction)
    (result : Result (DefaultEncoder × Option EncoderOutput)) (acts : ∀ after output, result = .ok (after, output) → before.act action = .ok (after, .ok output.toList))
    (generates : action.Generates) (plain : action.Plain)
    (fails : (∀ value, result ≠ .ok value) → sent.raws = [] ∧ ∀ encoder, sent.result ≠ .ok encoder)
    (goes : ∀ after output, result = .ok (after, output) → ∃ next : DefaultEncoder → Sent DefaultEncoder,
      sent = (⟨output.toList.map (·.raw), .ok after⟩ >>= next) ∧ ∃ later last, Drives after [] (next after) later last) :
    ∃ calls after, Drives before [] sent calls after := by
  cases found : result with
  | ok value =>
    obtain ⟨after, output⟩ := value
    obtain ⟨next, rfl, rest⟩ := goes after output found
    exact (one_call (acts after output found) plain (Encoder.acceptedBy_generates generates _)).bind [] fun _ => rest
  | err | panic =>
    obtain ⟨silent, failed⟩ := fails (by rw [found]; exact fun _ impossible => by cases impossible)
    exact ⟨[], before, .nothing silent fun encoder returned => absurd returned (failed encoder)⟩

private theorem pure_drives (encoder : DefaultEncoder) : ∃ calls after, Drives encoder [] (pure encoder) calls after :=
  ⟨[], encoder, .nothing rfl fun _ returned => ⟨(Outcome.ok.inj returned).symm, rfl⟩⟩

private theorem targeted_drives (cfg : Config) (encoder : DefaultEncoder) : ∃ calls after, Drives encoder [] (do
    let (encoder, extra) ← Sent.call (targeted cfg encoder)
    Sent.send (extra.toList.map (·.raw))
    pure encoder) calls after := by
  have failed (result : Result (DefaultEncoder × Option EncoderOutput)) (none : ∀ value, result ≠ .ok value) :
      (do
        let (encoder, extra) ← Sent.call result
        Sent.send (extra.toList.map (·.raw))
        pure encoder : Sent DefaultEncoder).raws = [] ∧ ∀ encoder, (do
        let (encoder, extra) ← Sent.call result
        Sent.send (extra.toList.map (·.raw))
        pure encoder : Sent DefaultEncoder).result ≠ .ok encoder := by
    cases result with
    | ok value => exact absurd rfl (none value)
    | err | panic => exact ⟨rfl, fun _ impossible => by cases impossible⟩
  unfold targeted
  cases cfg.altc with
  | none => exact pure_drives encoder
  | recent =>
    refine generates_call (.recent cfg.altcRecent) (encoder.generateCodedRecent cfg.altcRecent) (fun after output generated => ?_) trivial trivial (failed _)
      fun after output generated => ⟨pure, by rw [generated]; rfl, pure_drives after⟩
    rw [Encoder.act, generated]
    rfl
  | perReceiver =>
    refine generates_call (.forReceiver cfg.dest) (encoder.generateCodedForReceiver cfg.dest) (fun after output generated => ?_) trivial trivial (failed _)
      fun after output generated => ⟨pure, by rw [generated]; rfl, pure_drives after⟩
    rw [Encoder.act, generated]
    rfl

private theorem symbol_drives (cfg : Config) (encoder : DefaultEncoder) (chunk : Bytes) :
    ∃ calls after, Drives encoder [chunk] (symbol cfg encoder chunk) calls after := by
  cases submitted : encoder.submitSource chunk with
  | err error =>
    have same : symbol cfg encoder chunk = ⟨[], .err error⟩ := by
      rw [symbol, submitted]
      rfl
    exact ⟨[], encoder, same ▸ .nothing rfl fun _ impossible => by cases impossible⟩
  | panic reason =>
    have same : symbol cfg encoder chunk = ⟨[], .panic reason⟩ := by
      rw [symbol, submitted]
      rfl
    exact ⟨[], encoder, same ▸ .nothing rfl fun _ impossible => by cases impossible⟩
  | ok value =>
    obtain ⟨middle, outputs⟩ := value
    have acted : encoder.act (.submit chunk) = .ok (middle, .ok outputs) := by
      rw [Encoder.act, submitted]
    have same : symbol cfg encoder chunk = ((⟨outputs.map (·.raw), .ok middle⟩ : Sent DefaultEncoder) >>= fun encoder => do
        let (encoder, extra) ← Sent.call (targeted cfg encoder)
        Sent.send (extra.toList.map (·.raw))
        pure encoder) := by
      rw [symbol, submitted]
      rfl
    rw [same]
    exact (one_call acted trivial rfl).bind [] fun _ => targeted_drives cfg middle

private theorem symbols_drive (cfg : Config) (encoder : DefaultEncoder) (chunks : List Bytes) :
    ∃ calls after, Drives encoder chunks (chunks.foldlM (symbol cfg) encoder) calls after := by
  induction chunks generalizing encoder with
  | nil => exact pure_drives encoder
  | cons chunk chunks ih =>
    obtain ⟨calls, after, drives⟩ := symbol_drives cfg encoder chunk
    rw [List.foldlM_cons]
    exact drives.bind chunks fun _ => ih after

private theorem flush_drives (encoder : DefaultEncoder) (count : ℕ) : ∃ calls after, Drives encoder [] (flush encoder count) calls after := by
  induction count generalizing encoder with
  | zero => exact pure_drives encoder
  | succ count ih =>
    refine generates_call .coded encoder.generateCoded (fun after output generated => ?_) trivial trivial
      (fun none => ?_) fun after output generated => ?_
    · rw [Encoder.act, generated]
      rfl
    · rw [flush]
      cases found : encoder.generateCoded with
      | ok value => exact absurd found (none value)
      | err | panic => exact ⟨rfl, fun _ impossible => by cases impossible⟩
    · cases output with
      | none => exact ⟨pure, by rw [flush, generated]; rfl, pure_drives after⟩
      | some coded => exact ⟨(flush · count), by rw [flush, generated]; rfl, ih after⟩

private theorem sent_assoc {α β γ : Type} (first : Sent α) (next : α → Sent β) (last : β → Sent γ) :
    (first >>= next >>= last) = (first >>= fun value => next value >>= last) := by
  obtain ⟨raws, result⟩ := first
  cases result with
  | err | panic => rfl
  | ok value =>
    show Sent.bind ⟨raws ++ (next value).raws, (next value).result⟩ last = Sent.bind ⟨raws, .ok value⟩ fun value => next value >>= last
    show _ = (⟨raws ++ (Sent.bind (next value) last).raws, (Sent.bind (next value) last).result⟩ : Sent γ)
    unfold Sent.bind
    cases (next value).result with
    | err | panic => rfl
    | ok other =>
      dsimp only
      rw [List.append_assoc]

private theorem closes {α : Type} (stream : Sent α) (frame : Bytes) :
    (stream >>= fun _ => Sent.send [frame]).raws ⊆ stream.raws ++ [frame] ∧
      ((stream >>= fun _ => Sent.send [frame]).result = .ok () →
        (stream >>= fun _ => Sent.send [frame]).raws = stream.raws ++ [frame] ∧ ∃ value, stream.result = .ok value) := by
  obtain ⟨raws, result⟩ := stream
  cases result with
  | ok value => exact ⟨List.Subset.refl _, fun _ => ⟨rfl, value, rfl⟩⟩
  | err | panic => exact ⟨List.subset_append_left _ _, fun impossible => by cases impossible⟩

structure Streams (sha256 : Bytes → Digest) (cfg : Config) (encCfg : EncoderConfig) (fec : ConstantFecRate)
    (calls : List (Call DefaultEncoder EncoderAction (Except DelpError (List EncoderOutput)))) (final : DefaultEncoder) : Prop where
  built : cfg.encoder.build = .ok encCfg
  run : Run Encoder.act (Encoder.new encCfg {} {} fec : DefaultEncoder) calls final
  plain : ∀ call ∈ calls, call.input.Plain
  submits : Encoder.accepted calls <+: cfg.chunks
  raws : (Send.run sha256 cfg).raws ⊆ buildStartFrame (UInt16.ofNat cfg.symbolSize) (UInt32.ofNat cfg.nSymbols)
    (UInt64.ofNat cfg.file.length) (sha256 cfg.file) :: (Encoder.packets calls ++ [buildEndFrame])
  whole : (Send.run sha256 cfg).result = .ok () → Encoder.accepted calls = cfg.chunks ∧
    (Send.run sha256 cfg).raws = buildStartFrame (UInt16.ofNat cfg.symbolSize) (UInt32.ofNat cfg.nSymbols)
      (UInt64.ofNat cfg.file.length) (sha256 cfg.file) :: (Encoder.packets calls ++ [buildEndFrame])

/-- What the sender puts on the wire: nothing, if it refuses its configuration, or the START frame, then the packets of a run of
its encoder, and then the END frame, if all symbols are taken. -/
theorem run_sends (sha256 : Bytes → Digest) (cfg : Config) :
    ((run sha256 cfg).raws = [] ∧ (run sha256 cfg).result ≠ .ok ()) ∨
      ∃ encCfg fec calls final, Streams sha256 cfg encCfg fec calls final := by
  have cut {α : Type} {refused : Result α} (failed : ∀ value, refused ≠ .ok value) (next : α → Sent Unit) :
      (Sent.call refused >>= next).raws = [] ∧ (Sent.call refused >>= next).result ≠ .ok () := by
    cases refused with
    | ok value => exact absurd rfl (failed value)
    | err | panic => exact ⟨rfl, fun impossible => by cases impossible⟩
  have goes {α : Type} (value : α) (next : α → Sent Unit) : (Sent.call (.ok value) >>= next) = next value := rfl
  by_cases zero : cfg.symbolSize = 0
  · left
    rw [run]
    exact cut (fun value returned => absurd zero (Outcome.require_eq_ok.mp returned)) _
  cases built : cfg.encoder.build with
  | err | panic =>
    left
    rw [run, Outcome.require_of zero, goes, built]
    exact cut (fun _ impossible => by cases impossible) _
  | ok encCfg =>
    cases rate : ConstantFecRate.new cfg.fecN cfg.fecD with
    | err | panic =>
      left
      rw [run, Outcome.require_of zero, goes, built, goes, rate]
      exact cut (fun _ impossible => by cases impossible) _
    | ok fec =>
      obtain ⟨first, middle, symbols⟩ := symbols_drive cfg (Encoder.new encCfg {} {} fec) cfg.chunks
      have streams : ∃ calls after, Drives (Encoder.new encCfg {} {} fec) (cfg.chunks ++ [])
          (cfg.chunks.foldlM (symbol cfg) (Encoder.new encCfg {} {} fec) >>= (flush · (cfg.window * 2))) calls after :=
        symbols.bind [] fun _ => flush_drives middle _
      obtain ⟨calls, final, drives⟩ := streams
      rw [List.append_nil] at drives
      have spelled : run sha256 cfg = (Sent.send [buildStartFrame (UInt16.ofNat cfg.symbolSize) (UInt32.ofNat cfg.nSymbols)
          (UInt64.ofNat cfg.file.length) (sha256 cfg.file)] >>= fun _ =>
            cfg.chunks.foldlM (symbol cfg) (Encoder.new encCfg {} {} fec) >>= (flush · (cfg.window * 2)) >>= fun _ =>
              Sent.send [buildEndFrame]) := by
        rw [run, Outcome.require_of zero, goes, built, goes, rate, goes]
        simp only [sent_assoc]
      obtain ⟨part, whole⟩ := closes (cfg.chunks.foldlM (symbol cfg) (Encoder.new encCfg {} {} fec) >>= (flush · (cfg.window * 2)))
        buildEndFrame
      rw [drives.raws] at part whole
      refine .inr ⟨encCfg, fec, calls, final, built, drives.run, drives.plain, drives.submits, ?_, ?_⟩
      · rw [spelled]
        exact List.cons_subset_cons _ part
      · rw [spelled]
        intro returned
        obtain ⟨all, encoder, ended⟩ := whole returned
        exact ⟨(drives.returns encoder ended).2, congrArg _ all⟩

theorem Streams.tagged {sha256 : Bytes → Digest} {cfg : Config} {encCfg : EncoderConfig} {fec : ConstantFecRate}
    {calls : List (Call DefaultEncoder EncoderAction (Except DelpError (List EncoderOutput)))} {final : DefaultEncoder}
    (streams : Streams sha256 cfg encCfg fec calls final) {raw : Bytes} (member : raw ∈ Encoder.packets calls) :
    raw.getD 3 0 = PacketType.source.toU8 ∨ raw.getD 3 0 = PacketType.coded.toU8 := by
  obtain ⟨call, listed, sent⟩ := List.mem_flatMap.mp member
  obtain ⟨earlier, before, _, acted⟩ := streams.run.at_call listed
  cases reply : call.output with
  | error error =>
    rw [reply] at sent
    cases sent
  | ok outputs =>
    rw [reply] at sent acted
    obtain ⟨output, made, rfl⟩ := List.mem_map.mp sent
    have typed : output.raw.getD 3 0 = output.kind.toU8 := (Encoder.act_ok acted).typed (Encoder.runs_sound before) made
    cases output with
    | source bytes => exact .inl typed
    | coded bytes => exact .inr typed

theorem Streams.configured {sha256 : Bytes → Digest} {cfg : Config} {encCfg : EncoderConfig} {fec : ConstantFecRate}
    {calls : List (Call DefaultEncoder EncoderAction (Except DelpError (List EncoderOutput)))} {final : DefaultEncoder}
    (streams : Streams sha256 cfg encCfg fec calls final) :
    (0 < cfg.symbolSize ∧ cfg.symbolSize ≤ 65535) ∧ encCfg.symbolSize = cfg.symbolSize ∧ encCfg.windowCapacity = cfg.window ∧
      encCfg.field = .gf2_8 := by
  have valid := EncoderConfigBuilder.build_valid streams.built
  have fields : encCfg.symbolSize = cfg.symbolSize ∧ encCfg.windowCapacity = cfg.window ∧ encCfg.field = .gf2_8 := by
    have built := streams.built
    unfold EncoderConfigBuilder.build at built
    split at built
    · cases built
    split at built
    · cases built
    split at built
    · cases built
    split at built
    · cases built
    · cases built
      exact ⟨rfl, rfl, rfl⟩
  exact ⟨fields.1 ▸ valid.symbolSize, fields⟩

namespace Config

theorem length_chunks (cfg : Config) : cfg.chunks.length = cfg.nSymbols := by
  rw [chunks, List.length_map, List.length_range]

theorem chunks_flatten (cfg : Config) : cfg.chunks.flatten = cfg.padded.take (cfg.nSymbols * cfg.symbolSize) := by
  have slices (count : ℕ) : ((List.range count).map fun i => (cfg.padded.drop (i * cfg.symbolSize)).take cfg.symbolSize).flatten =
      cfg.padded.take (count * cfg.symbolSize) := by
    induction count with
    | zero => rw [Nat.zero_mul, List.take_zero]; rfl
    | succ count ih =>
      rw [List.range_succ, List.map_append, List.flatten_append, ih, Nat.succ_mul, List.take_add]
      exact congrArg _ (List.append_nil _)
  exact slices cfg.nSymbols

/-- The symbols hold the whole file, and zeros behind it. -/
theorem file_of_chunks (cfg : Config) (positive : 0 < cfg.symbolSize) :
    cfg.file.length ≤ cfg.nSymbols * cfg.symbolSize ∧ cfg.chunks.flatten.take cfg.file.length = cfg.file := by
  have room : cfg.file.length ≤ cfg.nSymbols * cfg.symbolSize := by
    have division := Nat.lt_div_mul_add (a := cfg.file.length + cfg.symbolSize - 1) positive
    unfold nSymbols
    omega
  refine ⟨room, ?_⟩
  rw [chunks_flatten, List.take_take, Nat.min_eq_left room, padded, List.take_left]

end Config
end Send
end Delp
