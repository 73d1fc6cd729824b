import Delp.Proofs.FullDelivery
import Delp.Proofs.OrderedChannel

/-! When a decoder reports a gap, and that it reports none where no source packet is lost or overtaken. -/

namespace Delp
open Machine

theorem Arrival.SourcesFirst.front {arrivals front : List Arrival} (first : SourcesFirst arrivals) (inside : front <+: arrivals) :
    SourcesFirst front := by
  obtain ⟨rest, rfl⟩ := inside
  intro i below
  have timely := first i (by rw [List.length_append]; omega)
  rwa [List.getElem_append_left below, List.take_append_of_le_length (Nat.le_of_lt below)] at timely

namespace Decoder
variable {P : Type}

/-- After the call of a coded packet, all symbols in front of its cover are known. -/
def Backed (call : Call (Decoder P) Arrival Reply) : Prop :=
  ∀ packet, call.input = .coded packet → ∀ first ∈ packet.ev.sourceIds.head?, ∀ id < first, id ∈ call.after.known

variable [FeedbackPolicy P] {config : DecoderConfig}

theorem CaughtUp.no_gap {calls : List (Call (Decoder P) Arrival Reply)} {before after : Decoder P} (caught : before.CaughtUp)
    (accounted : Accounted config calls before) {arrival : Arrival} (regular : arrival.Regular config.field)
    {events : List DecoderEvent} (handled : before.handle arrival = .ok (after, .ok events))
    (backed : Backed ⟨before, arrival, after, .ok events⟩) : events.filterMap (·.gap) = [] := by
  obtain ⟨matrix, gained, takes, settles, pointer, _, absorbed⟩ := caught.settled accounted regular handled
  rw [takes.events_eq.2]
  rcases settles.ends with ⟨_, _, none⟩ | ⟨above, _, _⟩
  · rw [none]
    rfl
  · exfalso
    have start : before.buffer.nextDeliveryId ≤ (before.buffer.absorb gained).drainDeliverable.1.nextDeliveryId := by
      rw [le_iff]
      omega
    rcases before.floor_eq arrival with same | ⟨packet, input, head, _⟩
    · have low := caught.floor
      rw [same, lt_iff] at above
      rw [le_iff] at low start
      omega
    · have known := backed packet input _ head _ above
      refine settles.stuck (settles.drains.mem_rest.mpr ⟨?_, (absorbed _ start).mpr known⟩)
      rw [SymbolBuffer.absorb_next]
      omega

/-- A call leaves the pointer at or above the window minimum, and reports no gap unless it raises that minimum. -/
theorem Accounted.no_gap {calls : List (Call (Decoder P) Arrival Reply)} {before after : Decoder P}
    (accounted : Accounted config calls before) (low : before.encoderWinMin ≤ before.buffer.nextDeliveryId) {arrival : Arrival}
    (regular : arrival.Regular config.field) {events : List DecoderEvent} (handled : before.handle arrival = .ok (after, .ok events)) :
    after.encoderWinMin ≤ after.buffer.nextDeliveryId ∧
      (before.floor arrival = before.encoderWinMin → events.filterMap (·.gap) = []) := by
  obtain ⟨matrix, gained, takes⟩ := handle_ok handled
  obtain ⟨_, settles, pointer⟩ := accounted.settled regular takes
  rw [takes.winMin, takes.buffer, takes.events_eq.2]
  rcases settles.ends with ⟨reached, stays, none⟩ | ⟨above, jumps, _⟩
  · rw [stays, none]
    exact ⟨reached, fun _ => rfl⟩
  · rw [jumps, SymbolBuffer.Settles.pruned_next above]
    refine ⟨UInt32.le_refl _, fun same => ?_⟩
    rw [same, lt_iff] at above
    rw [le_iff] at low
    omega

variable {policy : P} {calls : List (Call (Decoder P) Arrival Reply)} {final : Decoder P}

/-- A packet without a cover reports no gap, whatever has been reported before. -/
theorem run_no_gap (run : Run handle (new config policy) calls final) (regular : ∀ call ∈ calls, call.input.Regular config.field)
    (taken : ∀ call ∈ calls, ∃ events, call.output = .ok events) :
    ∀ call ∈ calls, (∀ packet, call.input = .coded packet → packet.ev.sourceIds = []) →
      call.output.events.filterMap (·.gap) = [] := by
  refine (run.preserves (fun calls state => Accounted config calls state ∧ state.encoderWinMin ≤ state.buffer.nextDeliveryId ∧
      ∀ call ∈ calls, (∀ packet, call.input = .coded packet → packet.ev.sourceIds = []) →
        call.output.events.filterMap (·.gap) = [])
    (fun call => call.input.Regular config.field ∧ ∃ events, call.output = .ok events)
    ⟨run_accounted .start (by simp), Nat.le_refl _, by simp⟩ ?_ fun call member => ⟨regular call member, taken call member⟩).2.2
  intro calls before arrival after reply kept handled allowed
  obtain ⟨regular, events, replied⟩ := allowed
  dsimp only at replied
  subst replied
  obtain ⟨accounted, low, quiet⟩ := kept
  obtain ⟨settled, none⟩ := accounted.no_gap low regular handled
  refine ⟨accounted.call regular handled, settled, fun call member uncovered => ?_⟩
  rcases List.mem_append.mp member with old | new
  · exact quiet call old uncovered
  · cases List.mem_singleton.mp new
    apply none
    rcases before.floor_eq arrival with same | ⟨packet, input, head, _⟩
    · exact same
    · rw [uncovered packet input] at head
      cases head

theorem whole_of_backed (run : Run handle (new config policy) calls final)
    (regular : ∀ call ∈ calls, call.input.Regular config.field) (taken : ∀ call ∈ calls, ∃ events, call.output = .ok events)
    (backed : ∀ call ∈ calls, Backed call) : gaps calls = [] := by
  refine (run.preserves (fun calls state => Accounted config calls state ∧ state.CaughtUp ∧ gaps calls = [])
    (fun call => call.input.Regular config.field ∧ (∃ events, call.output = .ok events) ∧ Backed call)
    ⟨run_accounted .start (by simp), run_caughtUp .start (by simp) (by simp) rfl, rfl⟩ ?_
    fun call member => ⟨regular call member, taken call member, backed call member⟩).2.2
  intro calls before arrival after reply kept handled allowed
  obtain ⟨regular, replied, backed⟩ := allowed
  obtain ⟨events, replied⟩ := replied
  dsimp only at replied
  subst replied
  obtain ⟨accounted, caught, whole⟩ := kept
  have none := caught.no_gap accounted regular handled backed
  refine ⟨accounted.call regular handled, caught.call accounted regular handled none, ?_⟩
  rw [gaps, List.flatMap_append, List.append_eq_nil_iff]
  refine ⟨whole, ?_⟩
  rw [List.flatMap_singleton]
  exact none

/-- A decoder that takes all its packets reports a gap exactly when a coded packet starts behind a symbol that the decoder does
not know, even with that packet; and no packet without a cover makes it report one. -/
theorem gaps_iff (run : Run handle (new config policy) calls final) (regular : ∀ call ∈ calls, call.input.Regular config.field)
    (taken : ∀ call ∈ calls, ∃ events, call.output = .ok events) : (gaps calls = [] ↔ ∀ call ∈ calls, Backed call) ∧
      ∀ call ∈ calls, (∀ packet, call.input = .coded packet → packet.ev.sourceIds = []) →
        call.output.events.filterMap (·.gap) = [] := by
  refine ⟨⟨fun whole call member packet input first head id below => ?_, whole_of_backed run regular taken⟩,
    run_no_gap run regular taken⟩
  obtain ⟨earlier, before, inside, handled⟩ := run.at_call member
  have shorter : Run handle (new config policy) (earlier ++ [call]) call.after := before.call handled
  have none : gaps (earlier ++ [call]) = [] := by
    obtain ⟨later, same⟩ := inside
    rw [← same, gaps, List.flatMap_append, List.append_eq_nil_iff] at whole
    exact whole.1
  have took (other : Call (Decoder P) Arrival Reply) (listed : other ∈ earlier ++ [call]) := taken other (inside.subset listed)
  have caught := run_caughtUp shorter (fun other listed => regular other (inside.subset listed)) took none
  have low := run_floor shorter took (List.mem_append_right _ (List.mem_singleton.mpr rfl)) input head
  refine caught.behind id ?_
  have reached := caught.floor
  rw [lt_iff] at *
  rw [le_iff] at low reached
  omega

/-- A source packet is lost, and the coded packet behind it starts at the next one. -/
theorem gaps_iff_lost : ∃ (calls : List (Call (Decoder ImmediateFeedbackPolicy) Arrival Reply)) (final : Decoder ImmediateFeedbackPolicy),
    Run handle (small 512) calls final ∧ gaps calls = [(0, 5)] ∧ ¬ ∀ call ∈ calls, Backed call := by
  obtain ⟨calls, final, run, check⟩ := Run.exists_of_check handle (small 512) [.coded fifthAlone]
    (fun result => decide (gaps result.1 = [(0, 5)] ∧ ∀ call ∈ result.1, call.input = .coded fifthAlone ∧ call.output.events ≠ []))
    (by decide +kernel)
  obtain ⟨lost, inputs⟩ := of_decide_eq_true check
  refine ⟨calls, final, run, lost, fun backed => ?_⟩
  have none := (gaps_iff run (fun call member => ?_) fun call member => ?_).1.mpr backed
  · rw [lost] at none
    cases none
  · rw [(inputs call member).1]
    refine ⟨fun id listed => ?_, fun id c lists => ?_⟩
    · cases List.mem_singleton.mp listed
      exact (show (5 : UInt32) < 0xFFFFFFFF by decide)
    · rw [(fifthAlone_lists lists).2]
      exact Gf.inField_one
  · have events := (inputs call member).2
    cases reply : call.output with
    | ok events => exact ⟨events, rfl⟩
    | error error =>
      rw [reply] at events
      exact absurd rfl events

end Decoder

namespace Network
variable {W C F P : Type}

def SourceAmong (sent : List Datagram) (rank : ℕ) : Prop :=
  ∃ datagram ∈ sent, ∃ packet : SourcePacket, (Arrival.source packet).Reads datagram.raw ∧ packet.sourceSymbolId.toNat = rank

theorem SourceAmong.mono {sent more : List Datagram} {rank : ℕ} (among : SourceAmong sent rank) (inside : sent ⊆ more) :
    SourceAmong more rank := by
  obtain ⟨datagram, member, found⟩ := among
  exact ⟨datagram, inside member, found⟩

/-- The source packets of all symbols have been sent, and those of the symbols in front of a cover before its coded packet. -/
structure Preceded (sent : List Datagram) (count : ℕ) : Prop where
  all : ∀ rank < count, SourceAmong sent rank
  front : ∀ (p : ℕ) datagram packet, sent[p]? = some datagram → (Arrival.coded packet).Reads datagram.raw →
    ∀ first ∈ packet.ev.sourceIds.head?, ∀ id < first, SourceAmong (sent.take p) id.toNat

variable [WindowPolicy W] [CongestionControl C] [FecRateController F] {config : EncoderConfig} {before after : Encoder W C F}
  {submitted : List Bytes} {action : EncoderAction} {outputs : List EncoderOutput}

theorem source_first (sound : Encoder.Sound config before submitted) (few : submitted.length < 4294967296)
    (acts : Encoder.Acts before action (.ok outputs) after) : Encoder.acceptedBy action (.ok outputs) = [] ∨
      (Encoder.acceptedBy action (.ok outputs)).length = 1 ∧ SourceAmong (datagrams after (.ok outputs)) submitted.length := by
  have all := acts
  cases acts with
  | fed => exact .inl rfl
  | idle generates => exact .inl (Encoder.acceptedBy_generates generates _)
  | coded generates => exact .inl (Encoder.acceptedBy_generates generates _)
  | @submitted data room window id pkt cc fec outputs _ sized made pushed serialised emits =>
    obtain ⟨header, read⟩ := SourcePacket.parse_of_serialise serialised
    exact .inr ⟨rfl, _, List.mem_map_of_mem List.mem_cons_self, _, read, (all.source_reads sound few List.mem_cons_self read).2⟩

theorem Preceded.encoded {sent : List Datagram} (preceded : Preceded sent submitted.length)
    (sound : Encoder.Sound config before submitted) (acts : Encoder.Acts before action (.ok outputs) after)
    (few : (submitted ++ Encoder.acceptedBy action (.ok outputs)).length < 4294967296)
    (fits : ∀ bytes, .coded bytes ∈ outputs → Encoder.CoverFits (before.covers action)) :
    Preceded (sent ++ datagrams after (.ok outputs)) (submitted ++ Encoder.acceptedBy action (.ok outputs)).length := by
  have few' := few
  rw [List.length_append] at few'
  have one := source_first sound (by omega) acts
  have most : (Encoder.acceptedBy action (.ok outputs)).length ≤ 1 := by
    rcases one with none | some
    · rw [none]
      exact Nat.zero_le 1
    · exact some.1.le
  refine ⟨fun rank below => ?_, fun p datagram packet found reads first head id less => ?_⟩
  · by_cases old : rank < submitted.length
    · exact (preceded.all rank old).mono (List.subset_append_left _ _)
    · rw [List.length_append] at below
      rcases one with none | some
      · rw [none, List.length_nil] at below
        omega
      · obtain rfl : rank = submitted.length := by omega
        exact some.2.mono (List.subset_append_right _ _)
  · by_cases old : p < sent.length
    · rw [List.getElem?_append_left old] at found
      rw [List.take_append_of_le_length (Nat.le_of_lt old)]
      exact preceded.front p datagram packet found reads first head id less
    · rw [List.getElem?_append_right (Nat.le_of_not_lt old)] at found
      have holds := outputs_true sound acts (List.prefix_refl _) few fits (List.mem_of_getElem? found)
      have top := holds.below (.coded packet) reads first (List.mem_of_mem_head? head)
      rw [List.length_append] at top
      rw [lt_iff] at less
      refine (preceded.all id.toNat (by omega)).mono ?_
      rw [List.take_append, List.take_of_length_le (Nat.le_of_not_lt old)]
      exact List.subset_append_left _ _

section Runs
variable [FeedbackPolicy P] {windowPolicy : W} {cc : C} {fec : F} {receivers : ReceiverId → DecoderConfig × P}
  {calls : List (Call (Network W C F P) NetworkAction NetworkReply)} {final : Network W C F P} {receiver : ReceiverId}

theorem run_preceded (run : Run step (new config windowPolicy cc fec receivers) calls final) (fits : ∀ call ∈ calls, CoversFit call)
    (few : (accepted calls).length < 4294967296) : Preceded final.sent (accepted calls).length := by
  refine (run.preserves (fun calls state => Encoder.Sound config state.encoder (accepted calls) ∧
    ((accepted calls).length < 4294967296 → Preceded state.sent (accepted calls).length)) CoversFit
    ⟨Encoder.new_sound _ _ _ _, fun _ => ⟨fun rank below => absurd below (Nat.not_lt_zero rank), ?_⟩⟩ ?_ fits).2 few
  · intro p datagram packet found
    cases found
  · intro calls before action after reply kept stepped fits
    have steps := step_ok stepped
    refine ⟨sound_step kept.1 steps, fun few => ?_⟩
    rw [accepted_append] at few ⊢
    have short : (accepted calls).length < 4294967296 := by
      rw [List.length_append] at few
      omega
    have old := kept.2 short
    cases steps with
    | @encoded action encoder reply acted =>
      have one : accepted [⟨before, .encode action, { before with encoder, sent := before.sent ++ datagrams encoder reply },
          .encoded reply⟩] = Encoder.acceptedBy action reply := List.append_nil _
      rw [one] at few ⊢
      cases reply with
      | error error =>
        have none : Encoder.acceptedBy action (.error error) = [] := by cases action <;> rfl
        rw [none, List.append_nil, show datagrams encoder (.error error) = [] from rfl, List.append_nil]
        exact old
      | ok outputs =>
        exact old.encoded kept.1 (Encoder.act_ok acted) few fun bytes coded => fits action outputs bytes rfl rfl coded
    | handled | dropped | acknowledged | ignored =>
      rw [show accepted [_] = [] from rfl, List.append_nil]
      exact old

def ReadsSources (receiver : ReceiverId) (calls : List (Call (Network W C F P) NetworkAction NetworkReply)) (final : Network W C F P) :
    Prop :=
  ∀ (index : ℕ) datagram, final.sent[index]? = some datagram → (∃ packet, (Arrival.source packet).Reads datagram.raw) →
    ∃ call ∈ calls, call.input = .deliver receiver index ∧ call.before.sent[index]? = some datagram

theorem receiver_learned (run : Run step (new config windowPolicy cc fec receivers) calls final) (fits : ∀ call ∈ calls, CoversFit call)
    (few : (accepted calls).length < 4294967296) (matched : (receivers receiver).1.Matches config)
    (first : Arrival.SourcesFirst ((arrivals receiver calls).map (·.input))) :
    Decoder.Learned (receivers receiver).1 (stream config (accepted calls)) (arrivals receiver calls) (final.decoders receiver) := by
  refine Decoder.run_learned (receiver_run run receiver) ?_ (fun own member => (arrivals_true run fits few matched member).1) first
  rw [matched.symbolSize]
  exact stream_sized (accepted_sized run)

theorem sent_grows (run : Run step (new config windowPolicy cc fec receivers) calls final) :
    ∀ call ∈ calls, ∀ (index : ℕ) datagram, call.before.sent[index]? = some datagram → final.sent[index]? = some datagram := by
  refine run.preserves (fun calls state => ∀ call ∈ calls, ∀ (index : ℕ) datagram, call.before.sent[index]? = some datagram →
    state.sent[index]? = some datagram) (fun _ => True) (fun _ member => (List.not_mem_nil member).elim) ?_ fun _ _ => trivial
  intro calls before action after reply kept stepped _ call member index datagram found
  rcases List.mem_append.mp member with old | new
  · exact step_sent (step_ok stepped) (kept call old index datagram found)
  · cases List.mem_singleton.mp new
    exact step_sent (step_ok stepped) found

theorem arrival_of_deliver (run : Run step (new config windowPolicy cc fec receivers) calls final)
    {call : Call (Network W C F P) NetworkAction NetworkReply} (member : call ∈ calls) {index : ℕ} {datagram : Datagram}
    (input : call.input = .deliver receiver index) (found : call.before.sent[index]? = some datagram) {arrival : Arrival}
    (reads : arrival.Reads datagram.raw) :
    ∃ own, arrivalAt receiver call = some own ∧ own.input = arrival := by
  obtain ⟨_, _, _, stepped⟩ := run.at_call member
  have replied : ∃ reply, call.output = .decoded reply := by
    obtain ⟨before, action, after, output⟩ := call
    cases input
    have steps : Steps before (.deliver receiver index) output after := step_ok stepped
    cases steps with
    | handled | dropped => exact ⟨_, rfl⟩
  obtain ⟨reply, output⟩ := replied
  exact ⟨⟨_, arrival, _, reply⟩, arrivalAt_eq_some.mpr ⟨index, datagram, input, output, found, reads, rfl, rfl⟩, rfl⟩

theorem run_lossless (run : Run step (new config windowPolicy cc fec receivers) calls final) (fits : ∀ call ∈ calls, CoversFit call)
    (few : (accepted calls).length < 4294967296) (receiver : ReceiverId) (matched : (receivers receiver).1.Matches config)
    (inOrder : InOrder receiver calls) (sources : ReadsSources receiver calls final) :
    Conveys (accepted calls) (arrivals receiver calls) (final.decoders receiver) ∧ Decoder.gaps (arrivals receiver calls) = [] ∧
      (accepted calls).length ≤ (final.decoders receiver).buffer.nextDeliveryId.toNat := by
  have first := inOrder_sourcesFirst run fits few inOrder
  have conveyed := conveys run fits few matched first
  have preceded := run_preceded run fits few
  have learned := receiver_learned run fits few matched first
  have own := receiver_run run receiver
  have regular (call : Call (Decoder P) Arrival Reply) (member : call ∈ arrivals receiver calls) :
      call.input.Regular (receivers receiver).1.field := by
    obtain ⟨carries, below⟩ := arrivals_true run fits few matched member
    refine carries.regular fun id held => ?_
    have inside := below id held
    rw [lt_iff, show (0xFFFFFFFF : UInt32).toNat = 4294967295 from rfl]
    omega
  have whole : Decoder.gaps (arrivals receiver calls) = [] := by
    refine Decoder.whole_of_backed own regular conveyed.taken fun own member packet input head lists id below => ?_
    obtain ⟨call, listed, is⟩ := List.mem_filterMap.mp member
    obtain ⟨index, datagram, delivers, _, sent, reads, _, after⟩ := arrivalAt_eq_some.mp is
    obtain ⟨earlier, before, inside, stepped⟩ := run.at_call listed
    have shorter : Run step (new config windowPolicy cc fec receivers) (earlier ++ [call]) call.after := before.call stepped
    -- the source packet of the symbol has been sent, and read, before the coded packet
    obtain ⟨source, among, packet', reads', rank⟩ := preceded.front index datagram packet (sent_grows run call listed index datagram sent)
      (input ▸ reads) head lists id below
    obtain ⟨position, place⟩ := List.getElem?_of_mem among
    rw [List.getElem?_take] at place
    split at place
    next less =>
      obtain ⟨prior, priorListed, delivers', sent'⟩ := sources position source place ⟨packet', reads'⟩
      have earlierMember : prior ∈ earlier := by
        have placed : positionAt receiver call = some index := by
          rw [positionAt, delivers]
          exact if_pos rfl
        have placed' : positionAt receiver prior = some position := by
          rw [positionAt, delivers']
          exact if_pos rfl
        obtain ⟨later, all⟩ := inside
        rw [← all] at priorListed
        rw [InOrder, ← all, List.filterMap_append] at inOrder
        have apart := (List.pairwise_append.mp inOrder).2.2
        rcases List.mem_append.mp priorListed with front | behind
        · rcases List.mem_append.mp front with old | same
          · exact old
          · cases List.mem_singleton.mp same
            cases placed.symm.trans placed'
            exact absurd less (Nat.lt_irrefl _)
        · have ordered := apart index (List.mem_filterMap.mpr ⟨call, List.mem_append_right _ (List.mem_singleton.mpr rfl), placed⟩)
            position (List.mem_filterMap.mpr ⟨prior, behind, placed'⟩)
          omega
      obtain ⟨own', is', same⟩ := arrival_of_deliver run priorListed delivers' sent' reads'
      have start : (accepted (earlier ++ [call])).length ≤ (accepted calls).length := List.IsPrefix.length_le <| accepted_prefix inside
      have learned := receiver_learned shorter (fun other member => fits other (inside.subset member))
        (Nat.lt_of_le_of_lt start few) matched
        (Arrival.SourcesFirst.front first ((inside.filterMap _).map _))
      rw [after]
      refine learned.sources own' (List.mem_filterMap.mpr ⟨prior, List.mem_append_left _ earlierMember, is'⟩) (same ▸ rfl) _ ?_
      rw [same, ← (eq_iff _ _).mpr rank]
      exact List.mem_singleton.mpr rfl
    next => cases place
  refine ⟨conveyed, whole, ?_⟩
  have caught := receiver_caughtUp run fits few matched first whole
  by_contra short
  obtain ⟨datagram, sent, packet, reads, rank⟩ := preceded.all _ (Nat.not_le.mp short)
  obtain ⟨index, found⟩ := List.getElem?_of_mem sent
  obtain ⟨call, listed, input, before⟩ := sources index datagram found ⟨packet, reads⟩
  obtain ⟨own, is, same⟩ := arrival_of_deliver run listed input before reads
  refine caught.next (learned.sources own (List.mem_filterMap.mpr ⟨call, listed, is⟩) (same ▸ rfl) _ ?_)
  rw [same, ← (eq_iff _ _).mpr rank]
  exact List.mem_singleton.mpr rfl

/-- Over a channel that keeps the order and loses no source packet, whatever becomes of the coded ones, a receiver delivers exactly
what has been submitted, and reports no gap. -/
theorem lossless_delivers (run : Run step (new config windowPolicy cc fec receivers) calls final) (fits : ∀ call ∈ calls, CoversFit call)
    (few : (accepted calls).length < 4294967296) (receiver : ReceiverId) (matched : (receivers receiver).1.Matches config)
    (inOrder : InOrder receiver calls) (sources : ReadsSources receiver calls final) :
    Decoder.gaps (arrivals receiver calls) = [] ∧ (Decoder.deliveries (arrivals receiver calls)).map (·.2) = accepted calls := by
  obtain ⟨conveyed, whole, reached⟩ := run_lossless run fits few receiver matched inOrder sources
  refine ⟨whole, ?_⟩
  rw [conveyed.complete whole, List.take_of_length_le reached]

end Runs

def readsSources (receiver : ReceiverId) (calls : List (Call SmallNetwork NetworkAction NetworkReply)) (final : SmallNetwork) : Bool :=
  final.sent.zipIdx.all fun sent => !(SourcePacket.parse sent.1.raw).passes (fun _ => true) ||
    calls.any fun call => decide (call.input = .deliver receiver sent.2 ∧ call.before.sent[sent.2]? = some sent.1)

theorem of_readsSources {receiver : ReceiverId} {calls : List (Call SmallNetwork NetworkAction NetworkReply)} {final : SmallNetwork}
    (checked : readsSources receiver calls final = true) : ReadsSources receiver calls final := by
  intro index datagram found source
  obtain ⟨packet, reads⟩ := source
  have parsed : SourcePacket.parse datagram.raw = .ok packet := reads
  have each := List.all_eq_true.mp checked (datagram, index) (List.mk_mem_zipIdx_iff_getElem?.mpr found)
  rw [parsed] at each
  obtain ⟨call, member, same⟩ := List.any_eq_true.mp each
  exact ⟨call, member, of_decide_eq_true same⟩

/-- The coded packet between two source packets is lost. -/
theorem lossless_delivers_two :
    ∃ (calls : List (Call SmallNetwork NetworkAction NetworkReply)) (final : SmallNetwork),
      Run step (new Encoder.smallConfig {} {} ⟨0, 1, 0⟩ smallReceivers) calls final ∧ accepted calls = [[1], [2]] ∧
        Decoder.gaps (arrivals 7 calls) = [] ∧ (Decoder.deliveries (arrivals 7 calls)).map (·.2) = [[1], [2]] := by
  obtain ⟨calls, final, run, check⟩ := Run.exists_of_check step
    (new Encoder.smallConfig {} {} ⟨0, 1, 0⟩ smallReceivers : SmallNetwork)
    [.encode (.submit [1]), .encode .coded, .encode (.submit [2]), .deliver 7 0, .deliver 7 2]
    (fun result => decide (accepted result.1 = [[1], [2]] ∧ result.1.filterMap (positionAt 7) = [0, 2]) &&
      (coversFit result.1 && readsSources 7 result.1 result.2)) (by decide +kernel)
  obtain ⟨shape, checked⟩ := Bool.and_eq_true_iff.mp check
  obtain ⟨fits, sources⟩ := Bool.and_eq_true_iff.mp checked
  obtain ⟨symbols, positions⟩ := of_decide_eq_true shape
  have few : (accepted calls).length < 4294967296 := by
    rw [symbols]
    decide
  have delivered := lossless_delivers run (of_coversFit fits) few 7 ⟨rfl, rfl⟩ (by rw [InOrder, positions]; decide)
    (of_readsSources sources)
  rw [symbols] at delivered
  exact ⟨calls, final, run, symbols, delivered⟩

end Network
end Delp
