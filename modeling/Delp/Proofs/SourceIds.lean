import Delp.Proofs.EncoderRun
import Delp.Proofs.PacketRoundTrip
import Delp.Policy.Defaults

/-! The ids that an encoder gives to its symbols, in runs of any length. -/

namespace Delp
open Machine Outcome

section Quiet

private theorem points_noError (srcId codedId : UInt32) :
    (Gf2_8.vandermonde srcId codedId).NoError ∧ (Gf2_4.vandermonde srcId codedId).NoError :=
  ⟨noError_bind noError_require fun _ _ => noError_ok _, noError_bind noError_require fun _ _ => noError_ok _⟩

private theorem inv_noError : (∀ a : Gf2_8, a.inv.NoError) ∧ ∀ a : Gf2_4, a.inv.NoError :=
  ⟨fun _ => noError_bind noError_require fun _ _ => noError_ok _,
    fun _ => noError_bind noError_require fun _ _ => noError_ok _⟩

theorem CoefGen.vandermondeBatch_noError (field : Config.Field) (ids : List UInt32) (codedId : UInt32) :
    (vandermondeBatch field ids codedId).NoError := by
  unfold vandermondeBatch
  cases field with
  | gf2_8 => exact mapM_noError (fun id => noError_bind (points_noError id codedId).1 fun _ _ => noError_ok _) _
  | gf2_4 => exact mapM_noError (fun id => noError_bind (points_noError id codedId).2 fun _ _ => noError_ok _) _

theorem CoefGen.cauchyBatch_noError (ids : List UInt32) (codedId : UInt32) (generation : UInt8) :
    (cauchyBatchGf2_8 ids codedId generation).NoError ∧ (cauchyBatchGf2_4 ids codedId generation).NoError := by
  constructor
  · refine mapM_noError (fun id => ?_) _
    refine noError_bind noError_require fun _ _ => noError_bind noError_addU32 fun _ _ => ?_
    exact noError_bind noError_addU8 fun _ _ => noError_bind (inv_noError.1 _) fun _ _ => noError_ok _
  · refine mapM_noError (fun id => ?_) _
    refine noError_bind noError_require fun _ _ => noError_bind noError_addU32 fun _ _ => ?_
    exact noError_bind noError_addU8 fun _ _ => noError_bind (inv_noError.2 _) fun _ _ => noError_ok _

theorem IdStorage.isContiguous_noError (ids : List UInt32) : (isContiguous ids).NoError := by
  induction ids with
  | nil => exact noError_ok _
  | cons first rest ih =>
    cases rest with
    | nil => exact noError_ok _
    | cons second rest =>
      refine noError_bind noError_addU32 fun expected _ => ?_
      split
      · exact ih
      · exact noError_ok _

theorem IdStorage.bestFor_noError (ids : List UInt32) : (bestFor ids).NoError := by
  unfold bestFor
  split
  · exact noError_ok _
  · exact noError_bind (isContiguous_noError ids) fun _ _ => noError_ok _

theorem IdStorage.toBlocks_noError (ids : List UInt32) : (toBlocks ids).NoError := by
  unfold toBlocks
  split
  · exact noError_ok _
  next first rest =>
    refine noError_bind (foldlM_noError (fun state id => ?_) _ _) fun _ _ => noError_bind noError_addU32 fun _ _ => noError_ok _
    refine noError_bind noError_addU32 fun _ _ => ?_
    split <;> exact noError_ok _

theorem IdStorage.encode_noError (ids : List UInt32) (format : IdStorageFormat) : (encode ids format).NoError := by
  cases format with
  | none => exact noError_ok _
  | compressedList => exact noError_bind noError_get fun _ _ => noError_ok _
  | uncompressedEdges =>
    refine noError_bind (toBlocks_noError ids) fun _ _ => noError_bind noError_get fun _ _ => foldlM_noError (fun out block => ?_) _ _
    exact noError_bind noError_guarded fun _ _ => noError_bind noError_guarded fun _ _ => noError_ok _
  | compressedEdges =>
    refine noError_bind (toBlocks_noError ids) fun _ _ => noError_bind noError_get fun _ _ => ?_
    refine noError_bind (foldlM_noError (fun state block => ?_) _ _) fun _ _ => noError_ok _
    refine noError_bind noError_guarded fun _ _ => noError_bind noError_guarded fun _ _ => ?_
    exact noError_bind noError_guarded fun _ _ => noError_bind noError_guarded fun _ _ => noError_ok _

theorem SourcePacket.serialise_noError (id : UInt32) (payload cci : Bytes) (tsi : Option UInt32) :
    (serialise id payload cci tsi).NoError := by
  refine noError_bind noError_require fun _ _ => noError_bind noError_addU8 fun _ _ => ?_
  exact noError_bind noError_addU8 fun _ _ => noError_bind noError_addU8 fun _ _ => noError_ok _

theorem CodedPacket.serialise_noError (id : UInt32) (ev : EncodingVector) (payload cci : Bytes) (tsi : Option UInt32) :
    (serialise id ev payload cci tsi).NoError := by
  refine noError_bind noError_require fun _ _ => noError_bind ?_ fun _ _ => ?_
  · exact noError_bind (IdStorage.encode_noError _ _) fun _ _ => noError_ok _
  refine noError_bind noError_addU8 fun _ _ => noError_bind noError_addU8 fun _ _ => ?_
  exact noError_bind noError_addU8 fun _ _ => noError_bind noError_addU8 fun _ _ => noError_ok _

namespace Encoder
variable {W C F : Type}

theorem coefficientsFor_noError (self : Encoder W C F) (cover : List SourceSymbolId) (codedId : CodedSymbolId)
    (generation : UInt8) : (self.coefficientsFor cover codedId generation).NoError := by
  unfold coefficientsFor
  split
  · refine noError_bind (CoefGen.vandermondeBatch_noError _ _ _) fun _ _ => noError_bind ?_ fun _ _ => noError_ok _
    exact noError_bind (IdStorage.bestFor_noError _) fun _ _ => noError_ok _
  · have explicit (coefs : Bytes) : (EncodingVector.explicit self.config.field codedId cover coefs).NoError :=
      noError_bind noError_require fun _ _ => noError_bind (IdStorage.bestFor_noError _) fun _ _ => noError_ok _
    refine noError_bind noError_require fun _ _ => ?_
    split
    · exact noError_bind (CoefGen.cauchyBatch_noError _ _ _).1 fun _ _ => noError_bind (explicit _) fun _ _ => noError_ok _
    · exact noError_bind (CoefGen.cauchyBatch_noError _ _ _).2 fun _ _ => noError_bind (explicit _) fun _ _ => noError_ok _

theorem payload_noError (self : Encoder W C F) (cover : List SourceSymbolId) (coefs : Bytes) :
    (self.computeCodedPayloadTargeted cover coefs).NoError := by
  refine foldlM_noError (fun scratch term => ?_) _ _
  unfold accumulate
  cases self.config.field
  all_goals
    dsimp only
    split
    · exact noError_ok _
    · exact noError_bind noError_get fun _ _ => noError_bind noError_require fun _ _ => noError_ok _

variable [CongestionControl C]

theorem generateCodedInner_noError (self : Encoder W C F) (cover : List SourceSymbolId) :
    (self.generateCodedInner cover).NoError := by
  refine noError_bind noError_require fun _ _ => noError_bind (noError_bind noError_addU32 fun _ _ => ?_) fun next _ => ?_
  · dsimp only
    split <;> exact noError_ok _
  refine noError_bind (next.coefficientsFor_noError _ _ _) fun _ _ => noError_bind (next.payload_noError _ _) fun _ _ => ?_
  exact noError_bind (CodedPacket.serialise_noError _ _ _ _ _) fun _ _ => noError_ok _

theorem emitCoded_noError (self : Encoder W C F) (outputs : List EncoderOutput) (count : ℕ) :
    (self.emitCoded outputs count).NoError := by
  induction count generalizing self outputs with
  | zero => exact noError_ok _
  | succ count ih =>
    refine noError_bind ?_ fun result _ => ?_
    · unfold generateCoded
      split
      · exact noError_ok _
      · exact generateCodedInner_noError _ _
    · split
      · exact ih _ _
      · exact noError_ok _

/-- A submission is refused for its size or for a full window, and for nothing else. -/
theorem submitSource_err [FecRateController F] {self : Encoder W C F} {data : Bytes} {error : DelpError}
    (refused : self.submitSource data = .err error) :
    error = .symbolSizeMismatch self.config.symbolSize data.length ∨ error = .windowFull self.config.windowCapacity := by
  unfold submitSource at refused
  split at refused
  · cases refused
    exact .inl rfl
  rcases bind_eq_err.mp refused with full | ⟨room, _, refused⟩
  · unfold makeRoom at full
    split at full
    · split at full
      · cases full
        exact .inr rfl
      · cases full
    · cases full
  · refine absurd refused (noError_bind (noError_bind noError_require fun _ _ => noError_ok _) (fun pushed _ => ?_) error)
    exact noError_bind (SourcePacket.serialise_noError _ _ _ _) fun _ _ => emitCoded_noError _ _ _

end Encoder

end Quiet
namespace Encoder
variable {W C F : Type} [WindowPolicy W] [CongestionControl C] [FecRateController F]

def assigned (call : Call (Encoder W C F) EncoderAction (Except DelpError (List EncoderOutput))) : List SourceSymbolId :=
  match call.input, call.output with
  | .submit _, .ok (.source bytes :: _) =>
    match SourcePacket.parse bytes with
    | .ok pkt => [pkt.sourceSymbolId]
    | _ => []
  | _, _ => []

/-- Ids only ascend, and a submission that finds none left is refused. -/
structure NeverReused (calls : List (Call (Encoder W C F) EncoderAction (Except DelpError (List EncoderOutput)))) : Prop where
  ascending : (calls.flatMap assigned).Pairwise (· < ·)
  exhausted : ∀ earlier call, earlier ++ [call] <+: calls → ∀ data, call.input = .submit data →
    4294967296 ≤ (accepted earlier).length →
    call.output = .error .sourceIdExhausted ∧ call.after.window = call.before.window

theorem Sound.assigned_eq {config : EncoderConfig} {before after : Encoder W C F} {submitted : List Bytes}
    (sound : Sound config before submitted) {action : EncoderAction} {reply : Except DelpError (List EncoderOutput)}
    (acts : Acts before action reply after) :
    assigned ⟨before, action, after, reply⟩ =
      (acceptedBy action reply).map fun _ => UInt32.ofNat submitted.length := by
  cases acts with
  | refused => rfl
  | @submitted data room window id pkt cc fec outputs _ sized made pushed serialised emits =>
    obtain ⟨ks, tracks⟩ := sound.tracks
    have next : id = UInt32.ofNat submitted.length := by
      rw [(EncodingWindow.push_eq pushed).2.1, ← tracks.next]
      rcases makeRoom_ok made with rfl | rfl <;> rfl
    have fits : CciFits (CongestionControl.generateCci before.cc) := by
      obtain ⟨_, fits, _⟩ := bind_eq_ok.mp serialised
      exact require_eq_ok.mp fits
    obtain ⟨header, written, parsed⟩ := SourcePacket.parse_serialise fits none id data
    obtain rfl := Outcome.ok.inj (serialised.symm.trans written)
    show (match SourcePacket.parse (frontOf header (CongestionControl.generateCci before.cc) none id ++ data) with
      | .ok pkt => [pkt.sourceSymbolId]
      | _ => []) = [UInt32.ofNat submitted.length]
    rw [parsed, ← next]
  | fed => rfl
  | idle generates =>
    rw [acceptedBy_generates generates]
    cases action with
    | submit | feedback => exact generates.elim
    | coded | targeted | recent | forReceiver => rfl
  | coded generates =>
    rw [acceptedBy_generates generates]
    cases action with
    | submit | feedback => exact generates.elim
    | coded | targeted | recent | forReceiver => rfl

theorem runs_assigned {config : EncoderConfig} {windowPolicy : W} {cc : C} {fec : F}
    {calls : List (Call (Encoder W C F) EncoderAction (Except DelpError (List EncoderOutput)))} {final : Encoder W C F}
    (runs : Runs config windowPolicy cc fec calls final) :
    calls.flatMap assigned = (List.range (accepted calls).length).map UInt32.ofNat := by
  refine (runs.preserves (fun calls state => Sound config state (accepted calls) ∧
    calls.flatMap assigned = (List.range (accepted calls).length).map UInt32.ofNat) (fun _ => True)
    ⟨new_sound config _ _ _, rfl⟩ ?_ fun _ _ => trivial).2
  rintro calls state input after output ⟨sound, counted⟩ stepped _
  have acts := act_ok stepped
  rw [accepted_append]
  refine ⟨sound.acts acts, ?_⟩
  rw [List.flatMap_append, counted, List.flatMap_singleton, sound.assigned_eq acts]
  unfold acceptedBy
  split
  · rw [List.length_append, List.length_singleton, List.range_succ, List.map_append, List.map_singleton, List.map_singleton]
  · rw [List.append_nil, List.map_nil, List.append_nil]

theorem pairwise_ofNat_iff (count : ℕ) :
    ((List.range count).map UInt32.ofNat).Pairwise (· < ·) ↔ count ≤ 4294967296 := by
  rw [List.pairwise_map]
  constructor
  · intro ascending
    by_contra many
    have wrapped := List.pairwise_iff_getElem.mp ascending 0 4294967296 (by simp; omega) (by simp; omega) (by decide)
    simp only [List.getElem_range] at wrapped
    exact absurd wrapped (by decide)
  · intro few
    refine List.pairwise_lt_range.imp_of_mem fun {i j} _ member less => ?_
    have inside := List.mem_range.mp member
    rw [lt_iff, toNat_ofNat (by omega), toNat_ofNat (by omega)]
    exact less

theorem acts_error {self after : Encoder W C F} {data : Bytes} {error : DelpError}
    (acts : Acts self (.submit data) (.error error) after) : self.submitSource data = .err error := by
  cases acts with
  | refused refusal => exact refusal

omit [WindowPolicy W] [CongestionControl C] [FecRateController F] in
/-- A run that submits only while fewer than `limit` symbols are accepted accepts at most that many. -/
theorem accepted_le {limit : ℕ} {calls : List (Call (Encoder W C F) EncoderAction (Except DelpError (List EncoderOutput)))}
    (few : ∀ earlier call, earlier ++ [call] <+: calls → ∀ data, call.input = .submit data → (accepted earlier).length < limit) :
    (accepted calls).length ≤ limit := by
  induction calls using List.reverseRecOn with
  | nil => exact Nat.zero_le _
  | append_singleton calls call ih =>
    have before := ih fun earlier other inside => few earlier other (inside.trans (List.prefix_append _ _))
    rw [accepted_append, List.length_append]
    unfold acceptedBy
    split
    next data _ submits _ => exact few calls call List.prefix_rfl data submits
    next => exact before

/-- Ids are never reused exactly in the runs that submit nothing once all ids have been used. -/
theorem never_reused_iff {config : EncoderConfig} {windowPolicy : W} {cc : C} {fec : F}
    {calls : List (Call (Encoder W C F) EncoderAction (Except DelpError (List EncoderOutput)))} {final : Encoder W C F}
    (runs : Runs config windowPolicy cc fec calls final) :
    NeverReused calls ↔ ∀ earlier call, earlier ++ [call] <+: calls → ∀ data, call.input = .submit data →
      (accepted earlier).length < 4294967296 := by
  constructor
  · intro never earlier call before data submits
    by_contra many
    obtain ⟨refused, _⟩ := never.exhausted earlier call before data submits (Nat.le_of_not_lt many)
    obtain ⟨_, _, _, stepped⟩ := runs.at_call (before.subset (List.mem_append_right _ (List.mem_singleton.mpr rfl)))
    have acts := act_ok stepped
    rw [submits, refused] at acts
    -- no path reports an exhausted counter
    rcases submitSource_err (acts_error acts) with impossible | impossible <;> cases impossible
  · intro few
    constructor
    · rw [runs_assigned runs, pairwise_ofNat_iff]
      exact accepted_le few
    · intro earlier call before data submits many
      exact absurd (few earlier call before data submits) (Nat.not_lt.mpr many)

omit [WindowPolicy W] [CongestionControl C] [FecRateController F] in
theorem length_accepted_le (calls : List (Call (Encoder W C F) EncoderAction (Except DelpError (List EncoderOutput)))) :
    (accepted calls).length ≤ calls.length := by
  induction calls using List.reverseRecOn with
  | nil => exact Nat.zero_le _
  | append_singleton calls call ih =>
    have one : (acceptedBy call.input call.output).length ≤ 1 := by
      unfold acceptedBy
      split
      · exact le_rfl
      · exact Nat.zero_le _
    rw [accepted_append, List.length_append, List.length_append, List.length_singleton]
    omega

def smallConfig : EncoderConfig := ⟨1, 2, .gf2_8, 0, 1, .evictOldest, .vandermonde⟩

abbrev SmallEncoder := Encoder AnyAckPolicy NoCongestionControl ConstantFecRate

theorem never_reused_iff_three :
    ∃ (calls : List (Call SmallEncoder EncoderAction (Except DelpError (List EncoderOutput)))) (final : SmallEncoder),
      Runs smallConfig {} {} ⟨0, 1, 0⟩ calls final ∧ (accepted calls).length = 3 ∧ NeverReused calls := by
  obtain ⟨calls, final, runs, check⟩ := Run.exists_of_check act (new smallConfig {} {} ⟨0, 1, 0⟩ : SmallEncoder)
    [.submit [1], .submit [2], .submit [3]]
    (fun result => decide ((accepted result.1).length = 3 ∧ result.1.length = 3)) (by decide +kernel)
  obtain ⟨count, length⟩ := of_decide_eq_true check
  refine ⟨calls, final, runs, count, (never_reused_iff runs).mpr fun earlier call inside data submits => ?_⟩
  have short := inside.length_le
  have counted := length_accepted_le earlier
  rw [List.length_append, length] at short
  omega

private theorem small_submits {self : SmallEncoder} {submitted : List Bytes} (sound : Sound smallConfig self submitted)
    (steady : self.fec = ⟨0, 1, 0⟩) :
    ∃ (after : SmallEncoder) (outputs : List EncoderOutput), self.act (.submit [0]) = .ok (after, .ok outputs) ∧ after.fec = ⟨0, 1, 0⟩ := by
  have roomy : ∃ room, self.makeRoom = .ok room ∧ room.isFull = false := by
    unfold makeRoom
    split
    next full =>
      rw [sound.configured]
      refine ⟨_, rfl, ?_⟩
      have fits := sound.fits
      simp only [EncodingWindow.isFull, EncodingWindow.evictOldest, List.length_drop, sound.capacity, decide_eq_false_iff_not]
      simp only [smallConfig] at fits ⊢
      omega
    next free => exact ⟨_, rfl, by simpa using free⟩
  obtain ⟨room, made, free⟩ := roomy
  have fits : CciFits (CongestionControl.generateCci self.cc) := LawfulCongestionControl.cciFits self.cc
  obtain ⟨header, written, _⟩ := SourcePacket.parse_serialise fits none room.nextId [0]
  have sized : ¬ ([0] : Bytes).length ≠ self.config.symbolSize := by rw [sound.configured]; decide
  have accepts : ∃ after outputs, self.submitSource [0] = .ok (after, outputs) ∧ after.fec = ⟨0, 1, 0⟩ := by
    rw [submitSource, if_neg sized, made, ok_bind, EncodingWindow.push, require_of free, ok_bind, pure_def, ok_bind]
    dsimp only
    rw [written, ok_bind, steady]
    exact ⟨_, _, rfl, rfl⟩
  obtain ⟨after, outputs, accepts, steady⟩ := accepts
  exact ⟨after, outputs, by rw [act, accepts], steady⟩

private theorem small_runs (count : ℕ) :
    ∃ (calls : List (Call SmallEncoder EncoderAction (Except DelpError (List EncoderOutput)))) (final : SmallEncoder),
      Runs smallConfig {} {} ⟨0, 1, 0⟩ calls final ∧ (accepted calls).length = count ∧ calls.length = count ∧
        (∀ call ∈ calls, call.input = .submit [0]) ∧ final.fec = ⟨0, 1, 0⟩ := by
  induction count with
  | zero => exact ⟨[], _, .start, rfl, rfl, fun _ member => (List.not_mem_nil member).elim, rfl⟩
  | succ count ih =>
    obtain ⟨calls, final, runs, counted, length, submits, steady⟩ := ih
    obtain ⟨after, outputs, stepped, steady⟩ := small_submits (runs_sound runs) steady
    refine ⟨_, after, .call runs stepped, ?_, ?_, ?_, steady⟩
    · rw [accepted_append, List.length_append, counted]
      rfl
    · rw [List.length_append, length]
      rfl
    · intro call member
      rcases List.mem_append.mp member with old | new
      · exact submits call old
      · rw [List.mem_singleton.mp new]

/-- Submitting one symbol after another, the last of 2^32 + 1 gets the id of the first. -/
theorem never_reused_fails :
    ∃ (calls : List (Call SmallEncoder EncoderAction (Except DelpError (List EncoderOutput)))) (final : SmallEncoder),
      Runs smallConfig {} {} ⟨0, 1, 0⟩ calls final ∧ calls.length = 4294967297 ∧
        (∀ call ∈ calls, call.input = .submit [0]) ∧ ¬ NeverReused calls := by
  obtain ⟨calls, final, runs, counted, length, submits, _⟩ := small_runs 4294967297
  refine ⟨calls, final, runs, length, submits, fun never => ?_⟩
  have few := never.ascending
  rw [runs_assigned runs, pairwise_ofNat_iff, counted] at few
  exact absurd few (by decide)

end Encoder
end Delp
