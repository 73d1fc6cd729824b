import Delp.Proofs.ControlFrames
import Delp.Proofs.FileSender
import Delp.Proofs.Link
import Delp.Proofs.ReliableDelivery

/-! A file from one end to the other. Whatever the network loses, duplicates or reorders, a file that is stitched together is the
one that was sent, while no source packet is read behind a coded packet that covers it. -/

namespace Delp.Recv
open Machine

def Wake.raw : Wake → Option Bytes
  | .datagram raw _ => some raw
  | .timedOut | .failed _ => none

theorem tag_apart {raw : Bytes} {arrival : Arrival} (reads : arrival.Reads raw) :
    raw.getD 3 0 ≠ Send.ctrlStart ∧ raw.getD 3 0 ≠ Send.ctrlEnd := by
  have tag : raw.getD 3 0 = arrival.kind.toU8 := reads.typed.2
  rw [tag]
  cases arrival with
  | source packet => exact (show PacketType.source.toU8 ≠ Send.ctrlStart ∧ PacketType.source.toU8 ≠ Send.ctrlEnd by decide)
  | coded packet => exact (show PacketType.coded.toU8 ≠ Send.ctrlStart ∧ PacketType.coded.toU8 ≠ Send.ctrlEnd by decide)

def gather (symbols : Std.TreeMap SourceSymbolId Bytes) (delivered : List (SourceSymbolId × Bytes)) :
    Std.TreeMap SourceSymbolId Bytes := delivered.foldl (fun symbols symbol => symbols.insert symbol.1 symbol.2) symbols

theorem gather_append (symbols : Std.TreeMap SourceSymbolId Bytes) (delivered more : List (SourceSymbolId × Bytes)) :
    gather symbols (delivered ++ more) = gather (gather symbols delivered) more := List.foldl_append

theorem gather_source {symbols : Std.TreeMap SourceSymbolId Bytes} {delivered : List (SourceSymbolId × Bytes)} {id : SourceSymbolId}
    {data : Bytes} (found : (gather symbols delivered)[id]? = some data) : symbols[id]? = some data ∨ (id, data) ∈ delivered := by
  induction delivered generalizing symbols with
  | nil => exact .inl found
  | cons symbol delivered ih =>
    rcases ih found with stored | later
    · rw [Std.TreeMap.getElem?_insert] at stored
      split at stored
      next same =>
        cases Std.LawfulEqCmp.compare_eq_iff_eq.mp same
        cases stored
        exact .inr List.mem_cons_self
      next => exact .inl stored
    · exact .inr (List.mem_cons_of_mem _ later)

namespace Progress

theorem collect_eq (symbols : Std.TreeMap SourceSymbolId Bytes) (events : List DecoderEvent) :
    collect symbols events = gather symbols (events.filterMap (·.delivery)) := by
  induction events generalizing symbols with
  | nil => rfl
  | cons event events ih =>
    cases event with
    | sourceReady | sendFeedback | unrecoverableGap => exact ih _

/-- What the loop makes of some datagrams: a run of its decoder, whose deliveries it keeps. -/
structure Collects (before : Progress) (raws : List Bytes) (after : Progress)
    (own : List (Call (Decoder ConstantFeedbackPolicy) Arrival Reply)) : Prop where
  run : Run Decoder.handle before.decoder own after.decoder
  inputs : own.map (·.input) = raws.filterMap Arrival.ofRaw
  symbols : after.symbols = gather before.symbols (Decoder.deliveries own)

theorem Collects.append {before middle after : Progress} {raws more : List Bytes}
    {own later : List (Call (Decoder ConstantFeedbackPolicy) Arrival Reply)} (collects : Collects before raws middle own)
    (rest : Collects middle more after later) : Collects before (raws ++ more) after (own ++ later) := by
  refine ⟨collects.run.append rest.run, ?_, ?_⟩
  · rw [List.map_append, collects.inputs, rest.inputs, List.filterMap_append]
  · rw [rest.symbols, collects.symbols, Decoder.deliveries_append, gather_append]

theorem Collects.none {raw : Bytes} (self : Progress) (other : Arrival.ofRaw raw = .none) : Collects self [raw] self [] :=
  ⟨.start, by rw [List.filterMap_cons_none other]; rfl, rfl⟩

private theorem unread {raw : Bytes} (closed : ∀ arrival : Arrival, ¬ arrival.Reads raw) : Arrival.ofRaw raw = .none := by
  cases found : Arrival.ofRaw raw with
  | none => rfl
  | some arrival => exact absurd (Arrival.ofRaw_eq_some.mp found) (closed arrival)

theorem dispatch_collects {self after : Progress} {raw : Bytes} {gotEnd : Bool} (returned : self.dispatch raw = .ok (after, gotEnd)) :
    ∃ own, Collects self [raw] after own := by
  by_cases last : raw.getD 3 0 = Send.ctrlEnd
  · have same : self = after := by
      rw [dispatch, if_pos last] at returned
      exact congrArg Prod.fst (Outcome.ok.inj returned)
    exact ⟨[], same ▸ Collects.none self (unread fun arrival reads => (tag_apart reads).2 last)⟩
  · rw [dispatch_eq self last] at returned
    obtain ⟨next, absorbed, same⟩ := Outcome.bind_eq_ok.mp returned
    cases same
    obtain ⟨⟨decoder, reply⟩, processed, absorbed⟩ := Outcome.bind_eq_ok.mp absorbed
    obtain ⟨own, run, inputs, deliveries, _⟩ := Decoder.processOne_run processed
    refine ⟨own, ?_⟩
    cases reply with
    | ok events =>
      cases absorbed
      refine ⟨run, inputs, ?_⟩
      rw [deliveries]
      exact collect_eq self.symbols events
    | error error =>
      cases absorbed
      refine ⟨run, inputs, ?_⟩
      rw [deliveries]
      rfl

/-- What the loop keeps when it ends comes from the datagrams that it has read so far. -/
theorem receive_collects {session : Session} {self after : Progress} {wakes : List Wake}
    (returned : self.receive session wakes = .ok (some after)) :
    ∃ taken own, taken <+: wakes.filterMap (·.raw) ∧ Collects self taken after own := by
  have idle (self : Progress) : Collects self [] self [] := ⟨.start, rfl, rfl⟩
  induction wakes generalizing self with
  | nil => cases returned
  | cons wake wakes ih =>
    cases wake with
    | failed error => cases returned
    | timedOut =>
      rw [receive] at returned
      split at returned
      · cases returned
        exact ⟨[], [], List.nil_prefix, idle _⟩
      · cases returned
    | datagram raw late =>
      rw [List.filterMap_cons_some (show Wake.raw (.datagram raw late) = some raw from rfl)]
      rw [receive] at returned
      split at returned
      next short =>
        obtain ⟨taken, own, front, collects⟩ := ih returned
        refine ⟨raw :: taken, own, List.prefix_cons_inj raw |>.mpr front, ?_⟩
        have nothing : Collects self [raw] self [] := .none self (unread fun arrival reads => by
          have long : 4 ≤ raw.length := reads.typed.1.1
          omega)
        exact nothing.append collects
      next =>
        obtain ⟨⟨middle, gotEnd⟩, dispatched, returned⟩ := Outcome.bind_eq_ok.mp returned
        have dispatched : self.dispatch raw = .ok (middle, gotEnd) := by
          cases found : self.dispatch raw with
          | ok value =>
            rw [found] at dispatched
            exact congrArg _ (Outcome.ok.inj dispatched)
          | err | panic =>
            rw [found] at dispatched
            cases dispatched
        obtain ⟨own, collects⟩ := dispatch_collects dispatched
        dsimp only at returned
        split at returned
        · cases returned
          exact ⟨[raw], own, List.prefix_cons_inj raw |>.mpr List.nil_prefix, collects⟩
        · obtain ⟨taken, later, front, rest⟩ := ih returned
          exact ⟨raw :: taken, own ++ later, List.prefix_cons_inj raw |>.mpr front, collects.append rest⟩

end Progress

theorem awaitStart_ok {wakes later : List Wake} {session : Session} (returned : awaitStart wakes = .ok (some (session, later))) :
    ∃ wake ∈ wakes, ∃ raw, wake.raw = some raw ∧ raw.getD 3 0 = Send.ctrlStart ∧ parseStart raw = .ok session ∧ later ⊆ wakes := by
  induction wakes with
  | nil => cases returned
  | cons wake wakes ih =>
    cases wake with
    | failed | timedOut => cases returned
    | datagram raw late =>
      rw [awaitStart] at returned
      split at returned
      next frame =>
        obtain ⟨other, parsed, same⟩ := Outcome.bind_eq_ok.mp returned
        cases same
        exact ⟨_, List.mem_cons_self, raw, rfl, frame.2, parsed, List.subset_cons_self _ _⟩
      next =>
        obtain ⟨wake, member, found⟩ := ih returned
        obtain ⟨raw, is, tag, parsed, inside⟩ := found
        exact ⟨wake, List.mem_cons_of_mem _ member, raw, is, tag, parsed, List.subset_cons_of_subset _ inside⟩

theorem codec_eq_ok {α : Type} {result : Result α} {value : α} : codec result = .ok value ↔ result = .ok value := by
  cases result with
  | ok | err | panic => simp [codec]

structure Receives (sha256 : Bytes → Send.Digest) (wakes : List Wake) (received : Received) (session : Session) (later : List Wake)
    (decCfg : DecoderConfig) (policy : ConstantFeedbackPolicy) (progress : Progress) : Prop where
  started : awaitStart wakes = .ok (some (session, later))
  configured : DecoderConfigBuilder.build { symbolSize := session.symbolSize } = .ok decCfg
  collected : Progress.receive session ⟨.new decCfg policy, ∅⟩ later = .ok (some progress)
  stitched : progress.stitch session = .ok received.written
  result : received.result = if sha256 received.written = session.sha256 then .ok () else .error .digestMismatch

theorem run_receives {sha256 : Bytes → Send.Digest} {wakes : List Wake} {received : Received}
    (returned : run sha256 wakes = .ok (some received)) :
    ∃ session later decCfg policy progress, Receives sha256 wakes received session later decCfg policy progress := by
  obtain ⟨start, started, returned⟩ := Outcome.bind_eq_ok.mp returned
  cases start with
  | none => cases returned
  | some pair =>
    obtain ⟨session, later⟩ := pair
    obtain ⟨decCfg, configured, returned⟩ := Outcome.bind_eq_ok.mp returned
    obtain ⟨policy, _, returned⟩ := Outcome.bind_eq_ok.mp returned
    obtain ⟨progress, collected, returned⟩ := Outcome.bind_eq_ok.mp returned
    cases progress with
    | none => cases returned
    | some progress =>
      obtain ⟨written, stitched, same⟩ := Outcome.bind_eq_ok.mp returned
      cases same
      exact ⟨session, later, decCfg, policy, progress, started, codec_eq_ok.mp configured, collected, stitched, rfl⟩

theorem Progress.stitch_ok {session : Session} {self : Progress} {written : Bytes} (stitched : self.stitch session = .ok written) :
    ∃ parts : List Bytes, parts.length = session.nSymbols.toNat ∧ written = parts.flatten.take session.fileSize.toNat ∧
      ∀ (i : ℕ) part, parts[i]? = some part → self.symbols[UInt32.ofNat i]? = some part := by
  obtain ⟨_, _, stitched⟩ := Outcome.bind_eq_ok.mp stitched
  obtain ⟨parts, read, same⟩ := Outcome.bind_eq_ok.mp stitched
  have length := Outcome.length_mapM read
  rw [List.length_range] at length
  refine ⟨parts, length, (Outcome.ok.inj same).symm, fun i part found => ?_⟩
  obtain ⟨inside, rfl⟩ := List.getElem?_eq_some_iff.mp found
  have each := (Outcome.mapM_eq_ok.mp read).get (by rw [List.length_range, ← length]; exact inside) inside
  rw [List.get_eq_getElem, List.getElem_range] at each
  dsimp only at each
  split at each
  next data stored =>
    rw [stored]
    exact congrArg some (Outcome.ok.inj each)
  next => cases each

section Transfers
variable {sha256 : Bytes → Send.Digest} {cfg : Send.Config} {wakes : List Wake}

def FromWire (sha256 : Bytes → Send.Digest) (cfg : Send.Config) (wakes : List Wake) : Prop :=
  ∀ wake ∈ wakes, ∀ raw, wake.raw = some raw → raw ∈ (Send.run sha256 cfg).raws

/-- What the receive loop is woken by. -/
def afterStart (wakes : List Wake) : List Wake :=
  match awaitStart wakes with
  | .ok (some (_, later)) => later
  | _ => []

def InTime (wakes : List Wake) : Prop := Arrival.SourcesFirst (((afterStart wakes).filterMap (·.raw)).filterMap Arrival.ofRaw)

instance (wakes : List Wake) : Decidable (InTime wakes) := inferInstanceAs (Decidable (Arrival.SourcesFirst _))

def announced (sha256 : Bytes → Send.Digest) (cfg : Send.Config) : Session where
  symbolSize := cfg.symbolSize
  nSymbols := UInt32.ofNat cfg.nSymbols
  fileSize := UInt64.ofNat cfg.file.length
  sha256 := sha256 cfg.file

variable {encCfg : EncoderConfig} {fec : ConstantFecRate}
  {calls : List (Call DefaultEncoder EncoderAction (Except DelpError (List EncoderOutput)))} {final : DefaultEncoder}

theorem announced_read (streams : Send.Streams sha256 cfg encCfg fec calls final) :
    parseStart (Send.buildStartFrame (UInt16.ofNat cfg.symbolSize) (UInt32.ofNat cfg.nSymbols) (UInt64.ofNat cfg.file.length)
      (sha256 cfg.file)) = .ok (announced sha256 cfg) := by
  have small := streams.configured.1.2
  have frame := parseStart_frame (UInt16.ofNat cfg.symbolSize) (announced sha256 cfg) 0 []
    (UInt16.toNat_ofNat_of_lt' (show cfg.symbolSize < 2 ^ 16 by omega)).symm
  have same : (Send.buildStartFrame (UInt16.ofNat cfg.symbolSize) (UInt32.ofNat cfg.nSymbols) (UInt64.ofNat cfg.file.length)
      (sha256 cfg.file)).set 5 0 ++ [] = Send.buildStartFrame (UInt16.ofNat cfg.symbolSize) (UInt32.ofNat cfg.nSymbols)
      (UInt64.ofNat cfg.file.length) (sha256 cfg.file) := by
    simp [Send.buildStartFrame, Send.magic]
  exact (congrArg parseStart same).symm.trans frame

theorem announced_size (streams : Send.Streams sha256 cfg encCfg fec calls final) (few : cfg.nSymbols < 4294967296) :
    (announced sha256 cfg).fileSize.toNat = cfg.file.length ∧ cfg.file.length < 2 ^ 63 := by
  obtain ⟨⟨positive, most⟩, _⟩ := streams.configured
  have small : cfg.file.length < 2 ^ 48 := by
    calc cfg.file.length ≤ cfg.nSymbols * cfg.symbolSize := (cfg.file_of_chunks positive).1
      _ ≤ 4294967295 * 65535 := Nat.mul_le_mul (by omega) most
      _ < 2 ^ 48 := by norm_num
  exact ⟨UInt64.toNat_ofNat_of_lt' (Nat.lt_trans small (by norm_num)), Nat.lt_trans small (by norm_num)⟩

/-- What the receiver takes for a START frame is the one that was sent. -/
theorem session_of (streams : Send.Streams sha256 cfg encCfg fec calls final) (wire : FromWire sha256 cfg wakes) {session : Session}
    {later : List Wake} (started : awaitStart wakes = .ok (some (session, later))) :
    session = announced sha256 cfg ∧ later ⊆ wakes := by
  obtain ⟨wake, member, raw, is, tag, parsed, inside⟩ := awaitStart_ok started
  refine ⟨?_, inside⟩
  rcases List.mem_cons.mp (streams.raws (wire wake member raw is)) with rfl | other
  · exact Outcome.ok.inj (parsed.symm.trans (announced_read streams))
  · exfalso
    rcases List.mem_append.mp other with packet | last
    · rcases streams.tagged packet with kind | kind
      · exact absurd (tag.symm.trans kind) (by decide)
      · exact absurd (tag.symm.trans kind) (by decide)
    · rw [List.mem_singleton.mp last] at tag
      exact absurd tag (by decide)

theorem packet_of (streams : Send.Streams sha256 cfg encCfg fec calls final) {raw : Bytes} (sent : raw ∈ (Send.run sha256 cfg).raws)
    {arrival : Arrival} (reads : arrival.Reads raw) : raw ∈ Encoder.packets calls := by
  have apart := tag_apart reads
  rcases List.mem_cons.mp (streams.raws sent) with rfl | other
  · exact absurd rfl apart.1
  · rcases List.mem_append.mp other with packet | last
    · exact packet
    · rw [List.mem_singleton.mp last] at apart
      exact absurd rfl apart.2

/-- A network that sends the packets of a sender, and reads those at some positions at one receiver. -/
structure Mirrors (encCfg : EncoderConfig) (fec : ConstantFecRate)
    (calls : List (Call DefaultEncoder EncoderAction (Except DelpError (List EncoderOutput)))) (decCfg : DecoderConfig)
    (policy : ConstantFeedbackPolicy) (positions : List ℕ) (own : List (Call (Decoder ConstantFeedbackPolicy) Arrival Reply))
    (decoder : Decoder ConstantFeedbackPolicy)
    (steps : List (Call (Network AnyAckPolicy NoCongestionControl ConstantFecRate ConstantFeedbackPolicy) NetworkAction NetworkReply))
    (net : Network AnyAckPolicy NoCongestionControl ConstantFecRate ConstantFeedbackPolicy) : Prop where
  run : Run Network.step (.new encCfg {} {} fec fun _ => (decCfg, policy)) steps net
  fits : ∀ call ∈ steps, Network.CoversFit call
  accepted : Network.accepted steps = Encoder.accepted calls
  sent : net.sent.map (·.raw) = Encoder.packets calls
  decoders : net.decoders 0 = decoder
  arrivals : Network.arrivals 0 steps = own
  places : steps.filterMap (Network.positionAt 0) = positions
  sees : ∀ index ∈ positions, ∃ call ∈ steps, call.input = .deliver 0 index ∧ call.before.sent = net.sent

private theorem places_of {W C F P : Type} {receiver : ReceiverId} {more : List (Call (Network W C F P) NetworkAction NetworkReply)}
    {positions : List ℕ} (inputs : more.map (·.input) = positions.map (.deliver receiver)) :
    more.filterMap (Network.positionAt receiver) = positions := by
  induction more generalizing positions with
  | nil => exact (List.map_eq_nil_iff.mp inputs.symm).symm
  | cons call more ih =>
    cases positions with
    | nil => cases inputs
    | cons index positions =>
      have input : call.input = .deliver receiver index := (List.cons.inj inputs).1
      have place : Network.positionAt receiver call = some index := by
        rw [Network.positionAt, input]
        exact if_pos rfl
      rw [List.filterMap_cons_some place, ih (List.cons.inj inputs).2]

theorem few_accepted (streams : Send.Streams sha256 cfg encCfg fec calls final) (few : cfg.nSymbols < 4294967296) :
    (Encoder.accepted calls).length < 4294967296 :=
  Nat.lt_of_le_of_lt (streams.submits.length_le.trans_eq cfg.length_chunks) few

/-- What a decoder makes of some packets of the sender, a network mirrors. -/
theorem mirrors_of (streams : Send.Streams sha256 cfg encCfg fec calls final) (few : cfg.nSymbols < 4294967296)
    (small : cfg.window ≤ 255) {policy : ConstantFeedbackPolicy} {decCfg : DecoderConfig}
    {own : List (Call (Decoder ConstantFeedbackPolicy) Arrival Reply)} {decoder : Decoder ConstantFeedbackPolicy}
    (run : Run Decoder.handle (.new decCfg policy) own decoder) {positions : List ℕ}
    (placed : positions.map ((Encoder.packets calls)[·]?.bind Arrival.ofRaw) = own.map fun call => some call.input) :
    ∃ steps net, Mirrors encCfg fec calls decCfg policy positions own decoder steps net := by
  let net : Network AnyAckPolicy NoCongestionControl ConstantFecRate ConstantFeedbackPolicy :=
    .new encCfg {} {} fec fun _ => (decCfg, policy)
  have encoder : Run Encoder.act net.encoder calls final := streams.run
  obtain ⟨steps, next, encodes, _⟩ := Network.encodes_of encoder
  have sent : next.sent.map (·.raw) = Encoder.packets calls := encodes.sent
  have decoders : next.decoders 0 = .new decCfg policy := congrFun encodes.decoders 0
  rw [← decoders] at run
  rw [← sent] at placed
  obtain ⟨more, last, reads⟩ := Network.reads_at run placed
  have only (call : _) (member : call ∈ steps) : ∃ action, call.input = .encode action := by
    obtain ⟨own, _, input, _⟩ := encodes.encodes call member
    exact ⟨own.input, input⟩
  have plain (call : _) (member : call ∈ steps) (action : EncoderAction) (input : call.input = .encode action) : action.Plain := by
    obtain ⟨own, listed, same, _⟩ := encodes.encodes call member
    cases input.symm.trans same
    exact streams.plain own listed
  have fits := Network.plain_coversFit encodes.run (streams.configured.2.2.1 ▸ small)
    (by rw [encodes.accepted]; exact Nat.le_of_lt (few_accepted streams few)) plain only
  have placeless : steps.filterMap (Network.positionAt 0) = [] := by
    refine List.filterMap_eq_nil_iff.mpr fun call member => ?_
    obtain ⟨action, input⟩ := only call member
    rw [Network.positionAt, input]
  refine ⟨steps ++ more, last, encodes.run.append reads.run, fun call member => ?_, ?_, ?_, ?_, ?_, ?_, fun index member => ?_⟩
  · rcases List.mem_append.mp member with old | new
    · exact fits call old
    · exact (reads.passive call new).fits
  · have split : Network.accepted (steps ++ more) = Network.accepted steps ++ Network.accepted more := List.flatMap_append
    rw [split, Network.Passive.accepted reads.passive, List.append_nil, encodes.accepted]
  · rw [reads.sent]
    exact sent
  · rw [reads.decoders, Function.update_self]
  · have split : Network.arrivals 0 (steps ++ more) = Network.arrivals 0 steps ++ Network.arrivals 0 more := List.filterMap_append
    rw [split, Network.arrivals_of_encodes only, List.nil_append, reads.own]
  · rw [List.filterMap_append, placeless, places_of reads.inputs, List.nil_append]
  · have delivered : NetworkAction.deliver 0 index ∈ more.map (·.input) := reads.inputs ▸ List.mem_map_of_mem member
    obtain ⟨call, listed, input⟩ := List.mem_map.mp delivered
    exact ⟨call, List.mem_append_right _ listed, input, (reads.sees call listed).trans reads.sent.symm⟩

/-- What the receiver delivers are symbols of the file, under their numbers. -/
theorem delivers_chunks (streams : Send.Streams sha256 cfg encCfg fec calls final) (few : cfg.nSymbols < 4294967296)
    (small : cfg.window ≤ 255) (policy : ConstantFeedbackPolicy) {decCfg : DecoderConfig} (matched : decCfg.Matches encCfg)
    {own : List (Call (Decoder ConstantFeedbackPolicy) Arrival Reply)} {decoder : Decoder ConstantFeedbackPolicy}
    (run : Run Decoder.handle (.new decCfg policy) own decoder)
    (sent : ∀ call ∈ own, ∃ raw ∈ Encoder.packets calls, call.input.Reads raw) (first : Arrival.SourcesFirst (own.map (·.input))) :
    ∀ symbol ∈ Decoder.deliveries own, cfg.chunks[symbol.1.toNat]? = some symbol.2 := by
  obtain ⟨positions, placed⟩ := Network.positions_of sent
  obtain ⟨steps, net, mirrors⟩ := mirrors_of streams few small run placed
  have timely : Arrival.SourcesFirst ((Network.arrivals 0 steps).map (·.input)) := by
    rw [mirrors.arrivals]
    exact first
  have conveyed := Network.conveys mirrors.run mirrors.fits (by rw [mirrors.accepted]; exact few_accepted streams few) matched timely
  rw [mirrors.arrivals, mirrors.accepted] at conveyed
  intro symbol member
  obtain ⟨rest, all⟩ := streams.submits
  have found := conveyed.own symbol member
  rw [← all, List.getElem?_append_left (List.getElem?_eq_some_iff.mp found).1]
  exact found

/-- A file that the receiver stitches together is the one that was sent, and its digest agrees, whatever datagrams the network
loses, repeats or reorders, while no source packet comes late. -/
theorem received_exactly {received : Received} (few : cfg.nSymbols < 4294967296) (small : cfg.window ≤ 255)
    (wire : FromWire sha256 cfg wakes) (first : InTime wakes) (returned : run sha256 wakes = .ok (some received)) :
    received.written = cfg.file ∧ received.result = .ok () := by
  obtain ⟨session, later, decCfg, policy, progress, receives⟩ := run_receives returned
  rcases Send.run_sends sha256 cfg with silent | ⟨encCfg, fec, calls, final, streams⟩
  · obtain ⟨wake, member, raw, is, _⟩ := awaitStart_ok receives.started
    have impossible := wire wake member raw is
    rw [silent.1] at impossible
    cases impossible
  obtain ⟨rfl, inside⟩ := session_of streams wire receives.started
  obtain ⟨⟨positive, _⟩, size, _, field⟩ := streams.configured
  obtain ⟨taken, own, front, collects⟩ := Progress.receive_collects receives.collected
  have matched : decCfg.Matches encCfg := by
    have configured := receives.configured
    unfold DecoderConfigBuilder.build at configured
    split at configured
    · cases configured
    · cases configured
      exact ⟨field.symm, size.symm⟩
  have delivers := delivers_chunks streams few small policy matched collects.run (fun call member => by
      have listed : call.input ∈ taken.filterMap Arrival.ofRaw := collects.inputs ▸ List.mem_map_of_mem member
      obtain ⟨raw, read, found⟩ := List.mem_filterMap.mp listed
      obtain ⟨wake, at', is⟩ := List.mem_filterMap.mp (front.subset read)
      have reads := Arrival.ofRaw_eq_some.mp found
      exact ⟨raw, packet_of streams (wire wake (inside at') raw is) reads, reads⟩)
    (Arrival.SourcesFirst.front (by rwa [InTime, afterStart, receives.started] at first) (collects.inputs ▸ front.filterMap _))
  obtain ⟨parts, length, written, stored⟩ := Progress.stitch_ok receives.stitched
  have count : (announced sha256 cfg).nSymbols.toNat = cfg.nSymbols := toNat_ofNat few
  obtain ⟨_, file⟩ := cfg.file_of_chunks positive
  have whole : parts = cfg.chunks := by
    refine List.ext_getElem? fun i => ?_
    by_cases below : i < parts.length
    · have found : parts[i]? = some parts[i] := List.getElem?_eq_getElem below
      rw [found]
      rcases gather_source (collects.symbols ▸ stored i _ found) with nothing | delivered
      · cases nothing
      · have chunk := delivers _ delivered
        rw [toNat_ofNat (by omega)] at chunk
        exact chunk.symm
    · rw [List.getElem?_eq_none (by omega), List.getElem?_eq_none]
      rw [cfg.length_chunks]
      omega
  have same : received.written = cfg.file := by
    rw [written, whole, (announced_size streams few).1, file]
  refine ⟨same, ?_⟩
  rw [receives.result, same]
  exact if_pos rfl

end Transfers

def sumDigest (data : Bytes) : Send.Digest := ⟨List.replicate 32 data.sum, List.length_replicate⟩

def fiveBytes : Send.Config where
  file := [1, 2, 3, 4, 5]
  dest := 7
  symbolSize := 2
  window := 2
  fecN := 1
  fecD := 2
  strategy := .vandermonde
  altc := .none
  altcRecent := 0

/-- The first source packet is lost, and a coded packet replaces it. -/
theorem received_exactly_lossy : ∃ received, run sumDigest (((Send.run sumDigest fiveBytes).raws.eraseIdx 1).map (.datagram · false)) =
    .ok (some received) ∧ received.written = [1, 2, 3, 4, 5] := by
  have ends : (run sumDigest (((Send.run sumDigest fiveBytes).raws.eraseIdx 1).map (.datagram · false))).passes (·.isSome) = true := by
    decide +kernel
  obtain ⟨ended, returned, some⟩ := Outcome.passes_iff.mp ends
  obtain ⟨received, rfl⟩ := Option.isSome_iff_exists.mp some
  refine ⟨received, returned, (received_exactly (show fiveBytes.nSymbols < 4294967296 by decide) (by decide) ?_ (by decide +kernel) returned).1⟩
  intro wake member raw is
  obtain ⟨sent, listed, rfl⟩ := List.mem_map.mp member
  cases is
  exact List.mem_of_mem_eraseIdx listed

end Delp.Recv
