import Delp.Proofs.CodedEquations
import Delp.Proofs.Recovery
import Delp.Proofs.SourceIds
import Delp.Proofs.WindowPoints

/-! The coded packets of a run as equations over the symbols that it has submitted. -/

namespace Delp
open Machine Config Gf Elimination

namespace Encoder
variable {W C F : Type}

def holds (self : Encoder W C F) : EncoderAction → List SourceSymbolId
  | .submit _ => self.kept ++ [self.window.nextId]
  | _ => self.window.idSlice

def covers (self : Encoder W C F) : EncoderAction → List SourceSymbolId
  | .submit _ => self.kept ++ [self.window.nextId]
  | action => self.cover action

/-- What the wire format asks of a cover: at most 255 ids, ascending in steps of at most 16 bits. -/
def CoverFits (cover : List SourceSymbolId) : Prop := cover.length ≤ 255 ∧ IdStorage.Spaced cover

theorem Sound.symbolsOf_held {config : EncoderConfig} {self : Encoder W C F} {submitted : List Bytes}
    (sound : Sound config self submitted) (distinct : self.window.idSlice.Nodup) {s : WindowSymbol}
    (held : s ∈ self.window.symbols) : symbolsOf submitted s.id = s.data := by
  obtain ⟨ks, tracks⟩ := sound.tracks
  exact tracks.symbolsOf_eq distinct held

theorem Sound.found {config : EncoderConfig} {self : Encoder W C F} {submitted : List Bytes} {x : SourceSymbolId → Bytes}
    (sound : Sound config self submitted) (agrees : ∀ s ∈ self.window.symbols, x s.id = s.data) {id : SourceSymbolId}
    (held : id ∈ self.window.idSlice) :
    (x id).length = config.symbolSize ∧ ∀ data, self.window.get id = some data → data = x id := by
  obtain ⟨s, inside, rfl⟩ := List.mem_map.mp held
  obtain ⟨ks, tracks⟩ := sound.tracks
  refine ⟨by rw [agrees s inside, sound.sized_of_held inside], fun data got => ?_⟩
  exact (agrees _ (tracks.get_some got)).symm

theorem cover_subset (self : Encoder W C F) (action : EncoderAction) : self.cover action ⊆ self.window.idSlice := by
  intro id member
  cases action with
  | submit | feedback => cases member
  | coded => exact member
  | targeted coverIds => simpa using (List.mem_filter.mp member).2
  | recent n => exact List.mem_of_mem_drop member
  | forReceiver receiverId => exact List.mem_of_mem_filter member

variable [CongestionControl C]

theorem Emits.coded_mem {config : EncoderConfig} {self after : Encoder W C F} {submitted : List Bytes}
    {outputs : List EncoderOutput} (sound : Sound config self submitted) (emits : Emits self outputs after) {bytes : Bytes}
    (member : .coded bytes ∈ outputs) :
    ∃ middle next : Encoder W C F, Sound config middle submitted ∧ middle.window = self.window ∧
      Codes middle self.window.idSlice bytes next := by
  induction emits with
  | done => cases member
  | @next self middle _ first _ codes later ih =>
    rcases List.mem_cons.mp member with same | rest
    · cases same
      exact ⟨self, middle, sound, rfl, codes⟩
    · obtain ⟨middleSound, window, _⟩ := sound.codes codes
      obtain ⟨state, next, stateSound, same, codes⟩ := ih middleSound rest
      rw [window] at same codes
      exact ⟨state, next, stateSound, same, codes⟩

variable [WindowPolicy W] [FecRateController F]

theorem Acts.coded_mem {config : EncoderConfig} {self after : Encoder W C F} {submitted : List Bytes}
    (sound : Sound config self submitted) {action : EncoderAction} {outputs : List EncoderOutput}
    (acts : Acts self action (.ok outputs) after) {bytes : Bytes} (member : .coded bytes ∈ outputs) :
    ∃ middle next : Encoder W C F, Sound config middle (submitted ++ acceptedBy action (.ok outputs)) ∧
      middle.window.idSlice = self.holds action ∧ self.covers action ⊆ self.holds action ∧
      Codes middle (self.covers action) bytes next := by
  cases acts with
  | @submitted data room pushedWindow id pkt cc fec emitted _ sized made pushed serialised emits =>
    have coded : EncoderOutput.coded bytes ∈ emitted := (List.mem_cons.mp member).resolve_left (fun impossible => by cases impossible)
    obtain ⟨middle, next, middleSound, window, codes⟩ := emits.coded_mem (sound.pushed sized made pushed _ _) coded
    obtain ⟨ids, counter⟩ := makeRoom_kept made
    have held : pushedWindow.idSlice = self.kept ++ [self.window.nextId] := by
      rw [EncodingWindow.idSlice, (EncodingWindow.push_eq pushed).2.2.1, List.map_append, List.map_singleton, ← ids, ← counter]
      rfl
    refine ⟨middle, next, middleSound, ?_, List.Subset.refl _, ?_⟩
    · rw [window]
      exact held
    · rw [covers, ← held]
      exact codes
  | fed => cases member
  | idle => cases member
  | coded generates codes =>
    cases List.mem_singleton.mp member
    have same : self.holds action = self.window.idSlice ∧ self.covers action = self.cover action := by
      cases action with
      | submit | feedback => exact generates.elim
      | coded | targeted | recent | forReceiver => exact ⟨rfl, rfl⟩
    rw [acceptedBy_generates generates, List.append_nil, same.1, same.2]
    exact ⟨self, after, sound, rfl, self.cover_subset action, codes⟩

/-- Every coded packet whose cover fits the wire format, from a window without repeated ids,
states what was submitted. -/
theorem coded_packets_true {config : EncoderConfig} {windowPolicy : W} {cc : C} {fec : F}
    {calls : List (Call (Encoder W C F) EncoderAction (Except DelpError (List EncoderOutput)))} {final : Encoder W C F}
    (runs : Runs config windowPolicy cc fec calls final) :
    ∀ earlier call, earlier ++ [call] <+: calls → (call.before.holds call.input).Nodup →
      CoverFits (call.before.covers call.input) → ∀ outputs bytes, call.output = .ok outputs → .coded bytes ∈ outputs →
        StatesCover config (symbolsOf (accepted (earlier ++ [call]))) (call.before.covers call.input) bytes := by
  intro earlier call inside distinct fits outputs bytes replied member
  obtain ⟨before, stepped⟩ := runs.at_prefix inside
  have acts := act_ok stepped
  rw [replied] at acts
  obtain ⟨middle, next, sound, ids, subset, codes⟩ := acts.coded_mem (runs_sound before) member
  rw [← replied, ← accepted_append] at sound
  rw [← ids] at distinct subset
  refine codes.states sound fits.1 fits.2 fun id covered => ?_
  exact sound.found (fun s held => sound.symbolsOf_held distinct held) (subset covered)

private def soleCoded : Except DelpError (List EncoderOutput) → Option Bytes
  | .ok [.coded bytes] => some bytes
  | _ => none

private theorem soleCoded_eq {reply : Except DelpError (List EncoderOutput)} {bytes : Bytes}
    (sole : soleCoded reply = some bytes) : reply = .ok [.coded bytes] := by
  unfold soleCoded at sole
  split at sole
  · cases sole
    rfl
  · cases sole

theorem coded_packets_true_two :
    ∃ (calls : List (Call SmallEncoder EncoderAction (Except DelpError (List EncoderOutput)))) (final : SmallEncoder) (bytes : Bytes),
      Runs smallConfig {} {} ⟨0, 1, 0⟩ calls final ∧ accepted calls = [[1], [2]] ∧
        StatesCover smallConfig (symbolsOf [[1], [2]]) [0, 1] bytes := by
  obtain ⟨calls, final, runs, check⟩ := Run.exists_of_check act (new smallConfig {} {} ⟨0, 1, 0⟩ : SmallEncoder)
    [.submit [1], .submit [2], .coded]
    (fun result => decide (accepted result.1 = [[1], [2]]) && result.1.getLast?.any
      fun (call : Call SmallEncoder EncoderAction (Except DelpError (List EncoderOutput))) =>
      decide (call.before.holds call.input = [0, 1] ∧ call.before.covers call.input = [0, 1]) &&
        (soleCoded call.output).isSome) (by decide +kernel)
  obtain ⟨symbols, last⟩ := Bool.and_eq_true_iff.mp check
  have symbols : accepted calls = [[1], [2]] := of_decide_eq_true symbols
  obtain ⟨call, found, last⟩ := (Option.any_eq_true _ _).mp last
  obtain ⟨shape, replied⟩ := Bool.and_eq_true_iff.mp last
  obtain ⟨held, covered⟩ := of_decide_eq_true shape
  obtain ⟨bytes, sole⟩ := Option.isSome_iff_exists.mp replied
  obtain ⟨earlier, same⟩ := List.getLast?_eq_some_iff.mp found
  have same : calls = earlier ++ [call] := same
  have states := coded_packets_true runs earlier call (by rw [same]) (by rw [held]; decide)
    (by rw [covered]; exact ⟨by decide, by decide⟩) _ bytes (soleCoded_eq sole) (List.mem_singleton.mpr rfl)
  rw [← same, symbols, covered] at states
  exact ⟨calls, final, bytes, runs, symbols, states⟩

/-- A window of 256 symbols, the default capacity, is announced as a cover of none. -/
theorem coded_packets_true_fails :
    ∃ (calls : List (Call SmallEncoder EncoderAction (Except DelpError (List EncoderOutput)))) (final : SmallEncoder)
      (call : Call SmallEncoder EncoderAction (Except DelpError (List EncoderOutput))) (bytes : Bytes),
      Runs ⟨1, 256, .gf2_4, 0, 1, .reject, .vandermonde⟩ {} {} ⟨0, 1, 0⟩ calls final ∧ call ∈ calls ∧
        call.input = .coded ∧ call.output = .ok [.coded bytes] ∧ ∀ x,
          ¬ StatesCover ⟨1, 256, .gf2_4, 0, 1, .reject, .vandermonde⟩ x (call.before.covers call.input) bytes := by
  obtain ⟨calls, final, runs, check⟩ := Run.exists_of_check act
    (new ⟨1, 256, .gf2_4, 0, 1, .reject, .vandermonde⟩ {} {} ⟨0, 1, 0⟩ : SmallEncoder)
    (List.replicate 256 (.submit [1]) ++ [.coded])
    (fun result => (result.1.drop 256).any fun call => decide (call.input = .coded) && !call.before.window.idSlice.isEmpty &&
      (soleCoded call.output).any fun bytes => (CodedPacket.parse bytes).passes fun packet =>
        packet.ev.sourceIds.isEmpty) (by decide +kernel)
  obtain ⟨call, member, check⟩ := List.any_eq_true.mp check
  obtain ⟨shape, parsed⟩ := Bool.and_eq_true_iff.mp check
  obtain ⟨coded, held⟩ := Bool.and_eq_true_iff.mp shape
  have coded : call.input = .coded := of_decide_eq_true coded
  obtain ⟨bytes, sole, parsed⟩ := (Option.any_eq_true _ _).mp parsed
  obtain ⟨packet, parsed, empty⟩ := Outcome.passes_iff.mp parsed
  refine ⟨calls, final, call, bytes, runs, List.mem_of_mem_drop member, coded, soleCoded_eq sole, fun x states => ?_⟩
  obtain ⟨other, _, same, _, ids, _⟩ := states
  cases parsed.symm.trans same
  rw [coded, List.isEmpty_iff.mp empty] at ids
  rw [show call.before.window.idSlice = [] from ids.symm] at held
  cases held

/-- A packet over the wanted ids, whose equation, as a decoder builds it, holds of the symbols. -/
def TrueToCover (config : EncoderConfig) (x : SourceSymbolId → Bytes) (wanted : SourceSymbolId → Prop) (bytes : Bytes) : Prop :=
  ∃ packet, CodedPacket.parse bytes = .ok packet ∧ packet.ev.field = config.field ∧
    (∀ id, id ∈ packet.ev.sourceIds ↔ wanted id) ∧ (∃ map, DecodingMatrix.coefMap packet.ev = .ok map) ∧
    packet.payload.length = config.symbolSize ∧
    ((packet.ev.row config.field, symbol config.field packet.payload) : SymbolEquation config.field) ∈ truths config.field x

omit [CongestionControl C] [WindowPolicy W] [FecRateController F] in
theorem StatesCover.true {config : EncoderConfig} {x : SourceSymbolId → Bytes} {cover : List SourceSymbolId} {bytes : Bytes}
    (states : StatesCover config x cover bytes) (distinct : cover.Nodup)
    (sized : ∀ id ∈ cover, (x id).length = config.symbolSize) : TrueToCover config x (· ∈ cover) bytes := by
  obtain ⟨packet, coefs, parsed, field, rfl, derived, payload⟩ := states
  refine ⟨packet, parsed, field, fun id => Iff.rfl, (DecodingMatrix.coefMap_columns config.field distinct derived).1, ?_, ?_⟩
  · rw [payload]
    exact (combine_symbols sized coefs).1
  · rw [payload]
    exact equation_mem_of distinct derived sized fun id _ => symbolEquation_mem_truths.mpr rfl

/-- A targeted packet is true to every cover whose windowed ids ascend in steps of at most 16 bits. -/
theorem targeted_packets_true {config : EncoderConfig} {windowPolicy : W} {cc : C} {fec : F}
    {calls : List (Call (Encoder W C F) EncoderAction (Except DelpError (List EncoderOutput)))} {self : Encoder W C F}
    (runs : Runs config windowPolicy cc fec calls self) (few : self.window.symbols.length ≤ 255)
    {x : SourceSymbolId → Bytes} (windowed : ∀ s ∈ self.window.symbols, x s.id = s.data)
    {coverIds : List SourceSymbolId} (spaced : IdStorage.Spaced (coverIds.filter fun id => self.window.idSlice.contains id))
    {after : Encoder W C F} {bytes : Bytes}
    (generated : self.generateCodedTargeted coverIds = .ok (after, some (.coded bytes))) :
    TrueToCover config x (fun id => id ∈ coverIds ∧ id ∈ self.window.idSlice) bytes := by
  have sound := runs_sound runs
  rcases generateCodedTargeted_ok generated with ⟨impossible, _⟩ | ⟨_, same, codes⟩
  · cases impossible
  cases same
  have inside {id : SourceSymbolId} : id ∈ (coverIds.filter fun id => self.window.idSlice.contains id) ↔
      id ∈ coverIds ∧ id ∈ self.window.idSlice := by
    rw [List.mem_filter, List.contains_iff_mem]
  have short : (coverIds.filter fun id => self.window.idSlice.contains id).length ≤ 255 := by
    refine le_trans (spaced.nodup.subperm fun id member => (inside.mp member).2).length_le ?_
    rwa [EncodingWindow.idSlice, List.length_map]
  have found {id : SourceSymbolId} (member : id ∈ coverIds.filter fun id => self.window.idSlice.contains id) :=
    sound.found windowed (inside.mp member).2
  have holds := (codes.states sound short spaced fun id member => found member).true spaced.nodup fun id member => (found member).1
  obtain ⟨packet, parsed, field, ids, rest⟩ := holds
  exact ⟨packet, parsed, field, fun id => (ids id).trans inside, rest⟩

theorem targeted_packets_true_two :
    ∃ (calls : List (Call SmallEncoder EncoderAction (Except DelpError (List EncoderOutput)))) (final after : SmallEncoder)
      (bytes : Bytes) (x : SourceSymbolId → Bytes),
      Runs smallConfig {} {} ⟨0, 1, 0⟩ calls final ∧ generateCodedTargeted final [7, 0, 1] = .ok (after, some (.coded bytes)) ∧
        TrueToCover smallConfig x (fun id => id ∈ [7, 0, 1] ∧ id ∈ final.window.idSlice) bytes := by
  obtain ⟨calls, final, runs, check⟩ := Run.exists_of_check act (new smallConfig {} {} ⟨0, 1, 0⟩ : SmallEncoder)
    [.submit [1], .submit [2]]
    (fun result => decide (result.2.window.symbols = [⟨0, [1]⟩, ⟨1, [2]⟩]) &&
      (result.2.generateCodedTargeted [7, 0, 1]).passes fun generated => generated.2.any fun
        | .coded _ => true
        | .source _ => false) (by decide +kernel)
  obtain ⟨symbols, generated⟩ := Bool.and_eq_true_iff.mp check
  have symbols : final.window.symbols = [⟨0, [1]⟩, ⟨1, [2]⟩] := of_decide_eq_true symbols
  obtain ⟨⟨after, output⟩, generated, shape⟩ := Outcome.passes_iff.mp generated
  obtain ⟨packet, same, shape⟩ := (Option.any_eq_true _ _).mp shape
  split at shape
  next bytes =>
    cases same
    refine ⟨calls, final, after, bytes, fun id => if id = 0 then [1] else [2], runs, generated,
      targeted_packets_true runs (by rw [symbols]; decide) ?_ ?_ generated⟩
    · rw [symbols]
      simp
    · rw [EncodingWindow.idSlice, symbols]
      decide
  next => cases shape

/-- A cover in descending order is announced with another id than it sums. -/
theorem targeted_packets_true_fails :
    ∃ (calls : List (Call SmallEncoder EncoderAction (Except DelpError (List EncoderOutput)))) (final after : SmallEncoder)
      (bytes : Bytes),
      Runs smallConfig {} {} ⟨0, 1, 0⟩ calls final ∧ final.window.idSlice = [0, 1] ∧
        generateCodedTargeted final [1, 0] = .ok (after, some (.coded bytes)) ∧ ∀ x,
          ¬ TrueToCover smallConfig x (fun id => id ∈ [1, 0] ∧ id ∈ final.window.idSlice) bytes := by
  obtain ⟨calls, final, runs, check⟩ := Run.exists_of_check act (new smallConfig {} {} ⟨0, 1, 0⟩ : SmallEncoder)
    [.submit [1], .submit [2]]
    (fun result => decide (result.2.window.idSlice = [0, 1]) &&
      (result.2.generateCodedTargeted [1, 0]).passes fun generated => generated.2.any fun
        | .coded bytes => (CodedPacket.parse bytes).passes fun packet => decide (packet.ev.sourceIds = [1, 65536])
        | .source _ => false) (by decide +kernel)
  obtain ⟨ids, generated⟩ := Bool.and_eq_true_iff.mp check
  obtain ⟨⟨after, output⟩, generated, shape⟩ := Outcome.passes_iff.mp generated
  obtain ⟨packet, same, shape⟩ := (Option.any_eq_true _ _).mp shape
  split at shape
  next bytes =>
    cases same
    obtain ⟨packet, parsed, announced⟩ := Outcome.passes_iff.mp shape
    refine ⟨calls, final, after, bytes, runs, of_decide_eq_true ids, generated, fun x holds => ?_⟩
    obtain ⟨other, same, _, wanted, _⟩ := holds
    cases parsed.symm.trans same
    have outside := (wanted 65536).mp (by rw [of_decide_eq_true announced]; simp)
    exact absurd outside.1 (by decide)
  next => cases shape

end Encoder
end Delp
