import Delp.Proofs.Cadence
import Delp.Proofs.FileTransfer

/-! A file arrives. Over a channel that keeps the order and loses no datagrams but coded packets, the receiver of a file that has
been sent ends, and has written the file. -/

namespace Delp
open Machine

namespace Encoder
variable {W C F : Type} [WindowPolicy W] [CongestionControl C] [FecRateController F] {config : EncoderConfig}
  {self after : Encoder W C F} {submitted : List Bytes} {action : EncoderAction} {outputs : List EncoderOutput}

theorem Acts.reads (sound : Sound config self submitted) (acts : Acts self action (.ok outputs) after) {output : EncoderOutput}
    (member : output ∈ outputs) (fits : ∀ bytes, .coded bytes ∈ outputs → CoverFits (self.covers action)) :
    ∃ arrival : Arrival, arrival.Reads output.raw := by
  cases output with
  | coded bytes =>
    obtain ⟨_, _, coding, _, _, codes⟩ := acts.coded_mem sound member
    obtain ⟨short, spaced⟩ := fits bytes member
    obtain ⟨_, packet, _, _, read, _⟩ := codes.reads coding short spaced
    exact ⟨.coded packet, read⟩
  | source bytes =>
    cases acts with
    | fed | idle => cases member
    | coded => cases List.mem_singleton.mp member
    | submitted _ _ _ serialised emits =>
      rcases List.mem_cons.mp member with same | later
      · cases same
        obtain ⟨header, read⟩ := SourcePacket.parse_of_serialise serialised
        exact ⟨.source _, read⟩
      · obtain ⟨_, impossible⟩ := emits.coded.1 _ later
        cases impossible

end Encoder

namespace Network
variable {W C F P : Type} [WindowPolicy W] [CongestionControl C] [FecRateController F] [FeedbackPolicy P] {config : EncoderConfig}
  {windowPolicy : W} {cc : C} {fec : F} {receivers : ReceiverId → DecoderConfig × P}
  {calls : List (Call (Network W C F P) NetworkAction NetworkReply)} {final : Network W C F P}

theorem run_packets (run : Run step (new config windowPolicy cc fec receivers) calls final) (fits : ∀ call ∈ calls, CoversFit call) :
    ∀ datagram ∈ final.sent, ∃ arrival : Arrival, arrival.Reads datagram.raw := by
  refine (run.preserves (fun calls state => Encoder.Sound config state.encoder (accepted calls) ∧
    ∀ datagram ∈ state.sent, ∃ arrival : Arrival, arrival.Reads datagram.raw) CoversFit
    ⟨Encoder.new_sound _ _ _ _, fun _ member => (List.not_mem_nil member).elim⟩ ?_ fits).2
  intro calls before action after reply kept stepped fits
  have steps := step_ok stepped
  refine ⟨sound_step kept.1 steps, ?_⟩
  cases steps with
  | @encoded action encoder reply acted =>
    intro datagram member
    rcases List.mem_append.mp member with old | new
    · exact kept.2 datagram old
    · cases reply with
      | error error => cases new
      | ok outputs =>
        obtain ⟨output, listed, rfl⟩ := List.mem_map.mp new
        exact (Encoder.act_ok acted).reads kept.1 listed fun bytes coded => fits action outputs bytes rfl rfl coded
  | handled | dropped | acknowledged | ignored => exact kept.2

end Network

theorem EncodingVector.codedId_of_coefs {ev : EncodingVector} {coefs : Bytes} (derived : ev.coefs = .ok coefs)
    (implicit : ev.hasExplicitCoefs = false) (some : ev.sourceIds ≠ []) : ev.codedId ≠ 0 := by
  obtain ⟨id, rest, ids⟩ := List.exists_cons_of_ne_nil some
  have first : (id, 0) ∈ ev.sourceIds.zipIdx := by
    rw [ids]
    exact List.mem_cons_self
  obtain ⟨c, _, derived⟩ := Outcome.ok_of_mapM derived first
  have derived : DecodingMatrix.coefAt ev 0 id = .ok c := derived
  rw [DecodingMatrix.coefAt, if_neg (by rw [implicit]; exact Bool.false_ne_true)] at derived
  have positive : 1 ≤ ev.codedId := by
    unfold CoefGen.vandermondeCoef at derived
    split at derived
    · obtain ⟨_, derived, _⟩ := Outcome.bind_eq_ok.mp derived
      obtain ⟨_, holds, _⟩ := Outcome.bind_eq_ok.mp derived
      exact Outcome.require_eq_ok.mp holds
    · obtain ⟨_, derived, _⟩ := Outcome.bind_eq_ok.mp derived
      obtain ⟨_, holds, _⟩ := Outcome.bind_eq_ok.mp derived
      exact Outcome.require_eq_ok.mp holds
  intro zero
  rw [zero] at positive
  exact absurd positive (by decide)

theorem Arrival.Carries.survives {P : Type} {config : DecoderConfig} {x : SourceSymbolId → Bytes} {arrival : Arrival}
    (carries : arrival.Carries config x) (below : ∀ id ∈ arrival.ids, id < 0xFFFFFFFF) {before : Decoder P}
    (same : before.config = config) : before.Survives arrival := by
  cases arrival with
  | source packet =>
    intro _ last
    have low := below packet.sourceSymbolId (List.mem_singleton.mpr rfl)
    rw [last] at low
    exact absurd low (by decide)
  | coded packet =>
    intro _
    have states : packet.States config.field config.symbolSize x := carries
    obtain ⟨coefs, derived, _⟩ := states.payload
    rw [same]
    exact ⟨EncodingVector.codedId_of_coefs derived, fun _ _ lists => (states.regular.lists lists).1,
      fun _ _ lists => (states.regular.lists lists).2⟩

namespace Recv

theorem mem_gather {symbols : Std.TreeMap SourceSymbolId Bytes} {delivered : List (SourceSymbolId × Bytes)} {id : SourceSymbolId} :
    id ∈ gather symbols delivered ↔ id ∈ symbols ∨ id ∈ delivered.map (·.1) := by
  induction delivered generalizing symbols with
  | nil => simp [gather]
  | cons symbol delivered ih =>
    have next : gather symbols (symbol :: delivered) = gather (symbols.insert symbol.1 symbol.2) delivered := rfl
    rw [next, ih, Std.TreeMap.mem_insert, List.map_cons, List.mem_cons, Std.LawfulEqCmp.compare_eq_iff_eq]
    tauto

theorem mem_of_enough {ids : List SourceSymbolId} {count rank : ℕ} (apart : ids.Nodup) (below : ∀ id ∈ ids, id.toNat < count)
    (enough : count ≤ ids.length) (less : rank < count) : UInt32.ofNat rank ∈ ids := by
  have ranks : (ids.map UInt32.toNat).Nodup := apart.map fun first second same => UInt32.toNat_inj.mp same
  have inside : ids.map UInt32.toNat ⊆ List.range count := by
    intro rank member
    obtain ⟨id, listed, rfl⟩ := List.mem_map.mp member
    exact List.mem_range.mpr (below id listed)
  have all := (ranks.subperm inside).perm_of_length_le (by rw [List.length_range, List.length_map]; exact enough)
  obtain ⟨id, listed, rfl⟩ := List.mem_map.mp (all.mem_iff.mpr (List.mem_range.mpr less))
  rwa [UInt32.ofNat_toNat]

namespace Progress

def Harmless (config : DecoderConfig) (raw : Bytes) : Prop :=
  ∃ arrival : Arrival, arrival.Reads raw ∧ arrival.Complete ∧
    ∀ before : Decoder ConstantFeedbackPolicy, before.config = config → before.Survives arrival

theorem dispatch_returns {config : DecoderConfig} {self : Progress} (shaped : self.decoder.Shaped config) {raw : Bytes}
    (harmless : Harmless config raw) : ∃ after, self.dispatch raw = .ok (after, false) ∧ after.decoder.Shaped config := by
  obtain ⟨arrival, reads, complete, survives⟩ := harmless
  have survives := survives self.decoder shaped.sameConfig
  rw [dispatch_eq self (tag_apart reads).2, reads.processOne]
  cases handled : self.decoder.handle arrival with
  | err error => exact absurd handled (Decoder.handle_noError _ _ _)
  | panic reason => exact absurd handled (Decoder.handle_returns shaped complete survives reason)
  | ok result =>
    obtain ⟨decoder, reply⟩ := result
    have next := Decoder.handle_shaped shaped complete survives handled
    cases reply with
    | ok events => exact ⟨_, rfl, next⟩
    | error error => exact ⟨_, rfl, next⟩

/-- The loop ends at the END frame, or when it is complete. -/
theorem receive_ends {session : Session} {config : DecoderConfig} {self : Progress} (shaped : self.decoder.Shaped config)
    {wakes : List Wake} {kept : List Bytes} (harmless : ∀ raw ∈ kept, Harmless config raw)
    (arrive : wakes.map (·.raw) = (kept ++ [Send.buildEndFrame]).map some) :
    ∃ after taken own, self.receive session wakes = .ok (some after) ∧ Collects self taken after own ∧ taken <+: kept ∧
      (after.complete session = true ∨ taken = kept) := by
  induction kept generalizing self wakes with
  | nil =>
    obtain ⟨wake, rfl, raw⟩ := List.map_eq_singleton_iff.mp arrive
    cases wake with
    | timedOut | failed => cases raw
    | datagram raw' late =>
      cases raw
      exact ⟨self, [], [], rfl, ⟨.start, rfl, rfl⟩, List.nil_prefix, .inr rfl⟩
  | cons raw kept ih =>
    obtain ⟨wake, later, rfl, first, others⟩ := List.map_eq_cons_iff.mp arrive
    cases wake with
    | timedOut | failed => cases first
    | datagram raw' late =>
      cases first
      have packet := harmless raw List.mem_cons_self
      obtain ⟨middle, dispatched, next⟩ := dispatch_returns shaped packet
      obtain ⟨own, collects⟩ := dispatch_collects dispatched
      have long : ¬ raw.length < 4 := by
        obtain ⟨arrival, reads, _⟩ := packet
        exact Nat.not_lt.mpr reads.typed.1.1
      have turn : self.receive session (.datagram raw late :: later) =
          if middle.complete session ∧ late then .ok (some middle) else middle.receive session later := by
        rw [receive, if_neg long, dispatched]
        simp [codec]
      rw [turn]
      by_cases done : middle.complete session = true ∧ late = true
      · rw [if_pos done]
        exact ⟨middle, [raw], own, rfl, collects, List.prefix_cons_inj raw |>.mpr List.nil_prefix, .inl done.1⟩
      · rw [if_neg done]
        obtain ⟨after, taken, rest, received, collects', front, ended⟩ :=
          ih next (fun other member => harmless other (List.mem_cons_of_mem _ member)) others
        exact ⟨after, raw :: taken, own ++ rest, received, collects.append collects', List.prefix_cons_inj raw |>.mpr front,
          ended.imp_right (congrArg _)⟩

theorem stitch_of {session : Session} {self : Progress} {parts : List Bytes} (room : session.fileSize.toNat < 2 ^ 63)
    (count : parts.length = session.nSymbols.toNat)
    (stored : ∀ (i : ℕ) part, parts[i]? = some part → self.symbols[UInt32.ofNat i]? = some part) :
    self.stitch session = .ok (parts.flatten.take session.fileSize.toNat) := by
  refine Outcome.bind_eq_ok.mpr ⟨(), Outcome.require_of room _, Outcome.bind_eq_ok.mpr ⟨parts, Outcome.mapM_eq_ok.mpr ?_, rfl⟩⟩
  refine List.forall₂_iff_get.mpr ⟨by rw [List.length_range, count], fun i inside listed => ?_⟩
  rw [List.get_eq_getElem, List.get_eq_getElem, List.getElem_range, stored i _ (List.getElem?_eq_getElem listed)]
  rfl

end Progress

/-- A channel that keeps the order, and loses no datagrams but coded packets. -/
inductive LosesCoded : List Bytes → List Bytes → Prop where
  | done : LosesCoded [] []
  | keep (raw : Bytes) {sent arrived : List Bytes} (rest : LosesCoded sent arrived) : LosesCoded (raw :: sent) (raw :: arrived)
  | lose {raw : Bytes} {sent arrived : List Bytes} (coded : raw.getD 3 0 = PacketType.coded.toU8) (rest : LosesCoded sent arrived) :
      LosesCoded (raw :: sent) arrived

namespace LosesCoded
variable {sent arrived : List Bytes}

theorem subset (loses : LosesCoded sent arrived) : arrived ⊆ sent := by
  induction loses with
  | done => exact List.Subset.refl _
  | keep raw _ ih => exact List.cons_subset_cons raw ih
  | lose _ _ ih => exact List.subset_cons_of_subset _ ih

theorem last {frame : Bytes} (control : frame.getD 3 0 ≠ PacketType.coded.toU8) (loses : LosesCoded (sent ++ [frame]) arrived) :
    ∃ kept, arrived = kept ++ [frame] ∧ LosesCoded sent kept := by
  induction sent generalizing arrived with
  | nil =>
    cases loses with
    | keep _ rest =>
      cases rest
      exact ⟨[], rfl, .done⟩
    | lose coded => exact absurd coded control
  | cons raw sent ih =>
    cases loses with
    | keep _ rest =>
      obtain ⟨kept, rfl, front⟩ := ih rest
      exact ⟨raw :: kept, rfl, .keep raw front⟩
    | lose coded rest =>
      obtain ⟨kept, rfl, front⟩ := ih rest
      exact ⟨kept, rfl, .lose coded front⟩

/-- Where the packets that arrive have been sent: in order, and at the positions of all source packets. -/
structure At (sent arrived : List Bytes) (positions : List ℕ) : Prop where
  ascending : positions.Pairwise (· < ·)
  placed : positions.map (sent[·]?.bind Arrival.ofRaw) = (arrived.filterMap Arrival.ofRaw).map some
  sources : ∀ (index : ℕ) raw packet, sent[index]? = some raw → (Arrival.source packet).Reads raw → index ∈ positions

private theorem shift {positions : List ℕ} (located : At sent arrived positions) (raw : Bytes) :
    (positions.map (· + 1)).Pairwise (· < ·) ∧ (positions.map (· + 1)).map ((raw :: sent)[·]?.bind Arrival.ofRaw) =
      (arrived.filterMap Arrival.ofRaw).map some := by
  refine ⟨List.pairwise_map.mpr (located.ascending.imp fun less => Nat.succ_lt_succ less), ?_⟩
  rw [List.map_map, ← located.placed]
  exact List.map_congr_left fun index _ => congrArg (·.bind Arrival.ofRaw) List.getElem?_cons_succ

theorem located (loses : LosesCoded sent arrived) : ∃ positions, At sent arrived positions := by
  induction loses with
  | done => exact ⟨[], .nil, rfl, fun _ _ _ found => by cases found⟩
  | @keep raw sent arrived _ ih =>
    obtain ⟨positions, located⟩ := ih
    obtain ⟨ascending, placed⟩ := shift located raw
    have behind (index : ℕ) (other : Bytes) (packet : SourcePacket) (found : (raw :: sent)[index + 1]? = some other)
        (reads : (Arrival.source packet).Reads other) : index + 1 ∈ positions.map (· + 1) :=
      List.mem_map_of_mem (located.sources index other packet found reads)
    cases read : Arrival.ofRaw raw with
    | none =>
      refine ⟨positions.map (· + 1), ascending, ?_, fun index other packet found reads => ?_⟩
      · rw [placed, List.filterMap_cons_none read]
      · cases index with
        | zero =>
          cases found
          cases read.symm.trans (Arrival.ofRaw_eq_some.mpr reads)
        | succ index => exact behind index other packet found reads
    | some arrival =>
      refine ⟨0 :: positions.map (· + 1), List.pairwise_cons.mpr ⟨fun index member => ?_, ascending⟩, ?_,
        fun index other packet found reads => ?_⟩
      · obtain ⟨earlier, _, rfl⟩ := List.mem_map.mp member
        exact Nat.succ_pos earlier
      · rw [List.map_cons, placed, List.filterMap_cons_some read]
        exact congrArg (· :: _) read
      · cases index with
        | zero => exact List.mem_cons_self
        | succ index => exact List.mem_cons_of_mem _ (behind index other packet found reads)
  | @lose raw sent arrived coded _ ih =>
    obtain ⟨positions, located⟩ := ih
    obtain ⟨ascending, placed⟩ := shift located raw
    refine ⟨positions.map (· + 1), ascending, placed, fun index other packet found reads => ?_⟩
    cases index with
    | zero =>
      cases found
      have tag : raw.getD 3 0 = PacketType.source.toU8 := reads.typed.2
      exact absurd (tag.symm.trans coded) (by decide)
    | succ index => exact List.mem_map_of_mem (located.sources index other packet found reads)

theorem uncoded (sent : List Bytes) : LosesCoded sent (sent.filter fun raw => raw.getD 3 0 ≠ PacketType.coded.toU8) := by
  induction sent with
  | nil => exact .done
  | cons raw sent ih =>
    by_cases coded : raw.getD 3 0 = PacketType.coded.toU8
    · rw [List.filter_cons_of_neg (by simpa using coded)]
      exact .lose coded ih
    · rw [List.filter_cons_of_pos (by simpa using coded)]
      exact .keep raw ih

end LosesCoded

section Arrives
variable {sha256 : Bytes → Send.Digest} {cfg : Send.Config} {wakes : List Wake} {encCfg : EncoderConfig} {fec : ConstantFecRate}
  {calls : List (Call DefaultEncoder EncoderAction (Except DelpError (List EncoderOutput)))} {final : DefaultEncoder}
  {decCfg : DecoderConfig}

theorem packets_harmless (streams : Send.Streams sha256 cfg encCfg fec calls final) (few : cfg.nSymbols < 4294967296)
    (small : cfg.window ≤ 255) (policy : ConstantFeedbackPolicy) (matched : decCfg.Matches encCfg) :
    ∀ raw ∈ Encoder.packets calls, Progress.Harmless decCfg raw := by
  have silent : Run Decoder.handle (.new decCfg policy) [] (.new decCfg policy) := .start
  have none : ([] : List ℕ).map ((Encoder.packets calls)[·]?.bind Arrival.ofRaw) =
      ([] : List (Call (Decoder ConstantFeedbackPolicy) Arrival Reply)).map fun call => some call.input := rfl
  obtain ⟨steps, net, mirrors⟩ := mirrors_of streams few small silent none
  intro raw member
  rw [← mirrors.sent] at member
  obtain ⟨datagram, sent, rfl⟩ := List.mem_map.mp member
  obtain ⟨arrival, reads⟩ := Network.run_packets mirrors.run mirrors.fits datagram sent
  have short := few_accepted streams few
  rw [← mirrors.accepted] at short
  have holds := (Network.run_told mirrors.run mirrors.fits).sent _ List.prefix_rfl short datagram sent
  have parsed : arrival.Parsed := by
    cases arrival with
    | source packet | coded packet => exact ⟨_, reads⟩
  have carries := holds.carries decCfg matched arrival reads
  refine ⟨arrival, reads, parsed.complete, fun before same => carries.survives (fun id held => ?_) same⟩
  have low := holds.below arrival reads id held
  rw [lt_iff, show (0xFFFFFFFF : UInt32).toNat = 4294967295 from rfl]
  omega

theorem ranks_of_complete (few : cfg.nSymbols < 4294967296) {after : Progress} {delivered : List (SourceSymbolId × Bytes)}
    (symbols : after.symbols = gather ∅ delivered) (complete : after.complete (announced sha256 cfg) = true)
    (below : ∀ id ∈ delivered.map (·.1), id.toNat < cfg.chunks.length) {rank : ℕ} (less : rank < cfg.chunks.length) :
    UInt32.ofNat rank ∈ delivered.map (·.1) := by
  have keys (id : SourceSymbolId) (member : id ∈ after.symbols.keys) : id ∈ delivered.map (·.1) := by
    rw [Std.TreeMap.mem_keys, symbols, mem_gather] at member
    exact member.resolve_left Std.TreeMap.not_mem_emptyc
  refine keys _ (mem_of_enough Std.TreeMap.nodup_keys (fun id member => below id (keys id member)) ?_ less)
  have enough : (announced sha256 cfg).nSymbols ≤ UInt32.ofNat after.symbols.size := of_decide_eq_true complete
  calc cfg.chunks.length = (announced sha256 cfg).nSymbols.toNat := cfg.length_chunks.trans (toNat_ofNat few).symm
    _ ≤ (UInt32.ofNat after.symbols.size).toNat := (le_iff _ _).mp enough
    _ ≤ after.symbols.size := Nat.mod_le _ _
    _ = after.symbols.keys.length := Std.TreeMap.length_keys.symm

theorem Mirrors.readsSources {policy : ConstantFeedbackPolicy} {positions : List ℕ} {kept : List Bytes}
    {own : List (Call (Decoder ConstantFeedbackPolicy) Arrival Reply)} {decoder : Decoder ConstantFeedbackPolicy}
    {steps : List (Call (Network AnyAckPolicy NoCongestionControl ConstantFecRate ConstantFeedbackPolicy) NetworkAction NetworkReply)}
    {net : Network AnyAckPolicy NoCongestionControl ConstantFecRate ConstantFeedbackPolicy}
    (mirrors : Mirrors encCfg fec calls decCfg policy positions own decoder steps net)
    (located : LosesCoded.At (Encoder.packets calls) kept positions) : Network.ReadsSources 0 steps net := by
  intro index datagram found source
  obtain ⟨packet, reads⟩ := source
  have sent : (Encoder.packets calls)[index]? = some datagram.raw := by
    rw [← mirrors.sent, List.getElem?_map, found]
    rfl
  obtain ⟨call, listed, input, same⟩ := mirrors.sees index (located.sources index datagram.raw packet sent reads)
  exact ⟨call, listed, input, same ▸ found⟩

/-- When the loop ends, it has all symbols of the file. -/
theorem all_stored (streams : Send.Streams sha256 cfg encCfg fec calls final) (few : cfg.nSymbols < 4294967296)
    (small : cfg.window ≤ 255) {policy : ConstantFeedbackPolicy} (matched : decCfg.Matches encCfg)
    (whole : Encoder.accepted calls = cfg.chunks) {kept taken : List Bytes} (loses : LosesCoded (Encoder.packets calls) kept)
    {after : Progress} {own : List (Call (Decoder ConstantFeedbackPolicy) Arrival Reply)}
    (collects : Progress.Collects ⟨.new decCfg policy, ∅⟩ taken after own) (front : taken <+: kept)
    (ended : after.complete (announced sha256 cfg) = true ∨ taken = kept) :
    ∀ (i : ℕ) part, cfg.chunks[i]? = some part → after.symbols[UInt32.ofNat i]? = some part := by
  obtain ⟨positions, located⟩ := loses.located
  have inputs : own.map (·.input) = (kept.filterMap Arrival.ofRaw).take own.length := by
    have inside : own.map (·.input) <+: kept.filterMap Arrival.ofRaw := collects.inputs ▸ front.filterMap _
    have same := List.prefix_iff_eq_take.mp inside
    rwa [List.length_map] at same
  have placed : (positions.take own.length).map ((Encoder.packets calls)[·]?.bind Arrival.ofRaw) =
      own.map fun call => some call.input := by
    rw [List.map_take, located.placed, ← List.map_take, ← inputs, List.map_map]
    rfl
  obtain ⟨steps, net, mirrors⟩ := mirrors_of streams few small collects.run placed
  have short := few_accepted streams few
  rw [← mirrors.accepted] at short
  have inOrder : Network.InOrder 0 steps := by
    rw [Network.InOrder, mirrors.places]
    exact (located.ascending.sublist (List.take_sublist _ _)).imp Nat.le_of_lt
  have conveyed := Network.conveys mirrors.run mirrors.fits short matched
    (Network.inOrder_sourcesFirst mirrors.run mirrors.fits short inOrder)
  rw [mirrors.arrivals, mirrors.accepted, whole] at conveyed
  have below (id : SourceSymbolId) (member : id ∈ (Decoder.deliveries own).map (·.1)) : id.toNat < cfg.chunks.length := by
    obtain ⟨symbol, delivered, rfl⟩ := List.mem_map.mp member
    exact (List.getElem?_eq_some_iff.mp (conveyed.own symbol delivered)).1
  have every (rank : ℕ) (less : rank < cfg.chunks.length) : UInt32.ofNat rank ∈ (Decoder.deliveries own).map (·.1) := by
    rcases ended with complete | all
    · exact ranks_of_complete few collects.symbols complete below less
    · have entire : positions.take own.length = positions := by
        refine List.take_of_length_le ?_
        have count := congrArg List.length located.placed
        have counted := congrArg List.length collects.inputs
        rw [List.length_map, List.length_map] at count
        rw [List.length_map, all] at counted
        omega
      rw [entire] at mirrors
      obtain ⟨_, gapless, reached⟩ := Network.run_lossless mirrors.run mirrors.fits short 0 matched inOrder
        (mirrors.readsSources located)
      rw [mirrors.arrivals] at gapless
      rw [mirrors.accepted, whole] at reached
      have delivered := conveyed.complete gapless
      rw [List.take_of_length_le reached] at delivered
      refine mem_of_enough (conveyed.ordered.imp UInt32.ne_of_lt) below ?_ less
      rw [← delivered, List.length_map, List.length_map]
  intro i part found
  have inside := (List.getElem?_eq_some_iff.mp found).1
  have held : UInt32.ofNat i ∈ after.symbols := by
    rw [collects.symbols]
    exact mem_gather.mpr (.inr (every i inside))
  obtain ⟨data, stored⟩ := Option.isSome_iff_exists.mp (Std.TreeMap.mem_iff_isSome_getElem?.mp held)
  rcases gather_source (collects.symbols ▸ stored) with nothing | delivered
  · cases nothing
  · have chunk := conveyed.own _ delivered
    rw [cfg.length_chunks] at inside
    rw [toNat_ofNat (by omega), found] at chunk
    rw [stored, chunk]

/-- What has been sent as a whole, and has lost no datagrams but coded packets on a channel that keeps the order, ends in the file at
the receiver, with a digest that agrees. -/
theorem file_arrives (few : cfg.nSymbols < 4294967296) (small : cfg.window ≤ 255) (sent : (Send.run sha256 cfg).result = .ok ())
    {arrived : List Bytes} (channel : LosesCoded (Send.run sha256 cfg).raws arrived) (arrive : wakes.map (·.raw) = arrived.map some) :
    ∃ received, run sha256 wakes = .ok (some received) ∧ received.written = cfg.file ∧ received.result = .ok () := by
  rcases Send.run_sends sha256 cfg with silent | ⟨encCfg, fec, calls, final, streams⟩
  · exact absurd sent silent.2
  obtain ⟨whole, raws⟩ := streams.whole sent
  rw [raws] at channel
  cases channel with
  | lose coded => exact absurd coded (show Send.ctrlStart ≠ PacketType.coded.toU8 by decide)
  | keep _ rest =>
    obtain ⟨kept, rfl, loses⟩ := rest.last (show Send.buildEndFrame.getD 3 0 ≠ PacketType.coded.toU8 by decide)
    obtain ⟨wake, later, rfl, first, others⟩ := List.map_eq_cons_iff.mp arrive
    cases wake with
    | timedOut | failed => cases first
    | datagram raw late =>
      have same := Option.some.inj first
      subst same
      obtain ⟨⟨positive, most⟩, size, _, field⟩ := streams.configured
      have started : awaitStart (.datagram (Send.buildStartFrame (UInt16.ofNat cfg.symbolSize) (UInt32.ofNat cfg.nSymbols)
          (UInt64.ofNat cfg.file.length) (sha256 cfg.file)) late :: later) = .ok (some (announced sha256 cfg, later)) := by
        rw [awaitStart, if_pos ⟨by simp [Send.buildStartFrame, Send.magic], rfl⟩, announced_read streams]
        rfl
      obtain ⟨decCfg, configured, matched⟩ : ∃ decCfg, DecoderConfigBuilder.build { symbolSize := cfg.symbolSize } = .ok decCfg ∧
          decCfg.Matches encCfg := ⟨_, if_neg (by dsimp only; omega), field.symm, size.symm⟩
      obtain ⟨policy, made⟩ : ∃ policy, ConstantFeedbackPolicy.new 8 = .ok policy := ⟨_, rfl⟩
      have shaped : (⟨.new decCfg policy, ∅⟩ : Progress).decoder.Shaped decCfg := Decoder.new_shaped decCfg policy
      obtain ⟨after, taken, own, received, collects, front, ended⟩ := Progress.receive_ends shaped
        (fun raw member => packets_harmless streams few small policy matched raw (loses.subset member)) others
      have stored := all_stored streams few small matched whole loses collects front ended
      have counted : cfg.chunks.length = (announced sha256 cfg).nSymbols.toNat := cfg.length_chunks.trans (toNat_ofNat few).symm
      obtain ⟨bytes, room⟩ := announced_size streams few
      have stitched := Progress.stitch_of (by rw [bytes]; exact room) counted stored
      rw [bytes, (cfg.file_of_chunks positive).2] at stitched
      refine ⟨⟨cfg.file, .ok ()⟩, ?_, rfl, rfl⟩
      refine Outcome.bind_eq_ok.mpr ⟨_, started, Outcome.bind_eq_ok.mpr ⟨decCfg, codec_eq_ok.mpr configured,
        Outcome.bind_eq_ok.mpr ⟨policy, codec_eq_ok.mpr made, Outcome.bind_eq_ok.mpr ⟨_, received,
          Outcome.bind_eq_ok.mpr ⟨_, stitched, ?_⟩⟩⟩⟩⟩
      exact congrArg (fun result => Outcome.ok (some (Received.mk cfg.file result))) (if_pos rfl)

end Arrives

/-- Without any of its coded packets. -/
theorem file_arrives_uncoded : ∃ received, run sumDigest (((Send.run sumDigest fiveBytes).raws.filter fun raw =>
    raw.getD 3 0 ≠ PacketType.coded.toU8).map (.datagram · false)) = .ok (some received) ∧ received.written = [1, 2, 3, 4, 5] ∧
      received.result = .ok () := by
  have sent : (Send.run sumDigest fiveBytes).result = .ok () := by
    decide +kernel
  exact file_arrives (show fiveBytes.nSymbols < 4294967296 by decide) (by decide) sent (LosesCoded.uncoded _) List.map_map

end Recv
end Delp
