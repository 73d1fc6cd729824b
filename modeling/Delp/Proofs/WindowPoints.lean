import Delp.Proofs.EncoderRun
import Delp.Policy.Defaults

/-! The Cauchy x-points of a window: when two of its ids get one point. -/

namespace Delp
open Machine Config

namespace Encoder
variable {W C F : Type}

/-- The ids that a submission keeps in the window: a full window first loses its oldest. -/
def kept (self : Encoder W C F) : List SourceSymbolId :=
  if self.window.isFull then self.window.idSlice.drop 1 else self.window.idSlice

def PointsDistinct (field : Config.Field) (ids : List SourceSymbolId) : Prop :=
  ∀ a ∈ ids, ∀ b ∈ ids, a ≠ b →
    a.toNat % EncoderConfigBuilder.cauchyMax field ≠ b.toNat % EncoderConfigBuilder.cauchyMax field

def NextPointFree (self : Encoder W C F) : Prop :=
  ∀ id ∈ self.kept, id ≠ self.window.nextId →
    id.toNat % EncoderConfigBuilder.cauchyMax self.config.field ≠
      self.window.nextId.toNat % EncoderConfigBuilder.cauchyMax self.config.field

instance (self : Encoder W C F) : Decidable self.NextPointFree :=
  decidable_of_iff (self.kept.all fun id => id == self.window.nextId ||
    id.toNat % EncoderConfigBuilder.cauchyMax self.config.field !=
      self.window.nextId.toNat % EncoderConfigBuilder.cauchyMax self.config.field) <| by
    simp [NextPointFree, or_iff_not_imp_left]

theorem makeRoom_kept {self : Encoder W C F} {room : EncodingWindow} (made : self.makeRoom = .ok room) :
    room.idSlice = self.kept ∧ room.nextId = self.window.nextId := by
  unfold makeRoom at made
  unfold kept
  split at made
  next full =>
    rw [if_pos full]
    split at made
    · cases made
    · cases made
      exact ⟨List.map_drop, rfl⟩
  next free =>
    rw [if_neg free]
    cases made
    exact ⟨rfl, rfl⟩

theorem kept_subset (self : Encoder W C F) : self.kept ⊆ self.window.idSlice := by
  unfold kept
  split
  · exact List.drop_subset _ _
  · exact List.Subset.refl _

variable [WindowPolicy W] [CongestionControl C] [FecRateController F]

theorem Sound.acts_ids {config : EncoderConfig} {self after : Encoder W C F} {submitted : List Bytes}
    (sound : Sound config self submitted) {action : EncoderAction} {reply : Except DelpError (List EncoderOutput)}
    (acts : Acts self action reply after) :
    acceptedBy action reply = [] ∧ after.window.idSlice ⊆ self.window.idSlice ∨
      acceptedBy action reply ≠ [] ∧ after.window.idSlice = self.kept ++ [self.window.nextId] := by
  cases acts with
  | refused => exact .inl ⟨rfl, List.Subset.refl _⟩
  | submitted sized made pushed serialised emits =>
    obtain ⟨ids, next⟩ := makeRoom_kept made
    obtain ⟨_, _, symbols, _⟩ := EncodingWindow.push_eq pushed
    refine .inr ⟨List.cons_ne_nil _ _, ?_⟩
    rw [((sound.pushed sized made pushed _ _).emits emits).2.1]
    show List.map _ _ = _
    rw [symbols, List.map_append, List.map_singleton, ← ids, ← next]
    rfl
  | fed =>
    refine .inl ⟨rfl, fun id member => ?_⟩
    obtain ⟨s, held, rfl⟩ := List.mem_map.mp member
    refine List.mem_map_of_mem ?_
    dsimp only at held
    unfold EncodingWindow.removeIds at held
    split at held
    · exact held
    · exact List.mem_of_mem_filter held
  | idle generates => exact .inl ⟨acceptedBy_generates generates _, List.Subset.refl _⟩
  | coded generates codes =>
    refine .inl ⟨acceptedBy_generates generates _, ?_⟩
    rw [(sound.codes codes).2.1]
    exact List.Subset.refl _

theorem points_join {field : Config.Field} {kept : List SourceSymbolId} {next : SourceSymbolId}
    (distinct : PointsDistinct field kept)
    (free : ∀ id ∈ kept, id ≠ next → id.toNat % EncoderConfigBuilder.cauchyMax field ≠ next.toNat % EncoderConfigBuilder.cauchyMax field) :
    PointsDistinct field (kept ++ [next]) := by
  intro a left b right differ
  rcases List.mem_append.mp left with oldA | newA <;> rcases List.mem_append.mp right with oldB | newB
  · exact distinct a oldA b oldB differ
  · obtain rfl := List.mem_singleton.mp newB
    exact free a oldA differ
  · obtain rfl := List.mem_singleton.mp newA
    exact (free b oldB differ.symm).symm
  · exact absurd ((List.mem_singleton.mp newA).trans (List.mem_singleton.mp newB).symm) differ

/-- The points of a window stay apart exactly as long as no symbol is accepted whose point
another symbol still holds. -/
theorem window_points_distinct_iff {config : EncoderConfig} {windowPolicy : W} {cc : C} {fec : F}
    {calls : List (Call (Encoder W C F) EncoderAction (Except DelpError (List EncoderOutput)))} {final : Encoder W C F}
    (runs : Runs config windowPolicy cc fec calls final) :
    (∀ call ∈ calls, PointsDistinct config.field call.after.window.idSlice) ↔
      ∀ call ∈ calls, acceptedBy call.input call.output ≠ [] → call.before.NextPointFree := by
  constructor
  · intro distinct call member accepts
    obtain ⟨earlier, before, _, stepped⟩ := runs.at_call member
    have sound := runs_sound before
    rcases sound.acts_ids (act_ok stepped) with ⟨nothing, _⟩ | ⟨_, ids⟩
    · exact absurd nothing accepts
    · intro id held differ
      have apart := distinct call member
      rw [ids] at apart
      rw [sound.configured]
      exact apart id (List.mem_append_left _ held) _ (List.mem_append_right _ (List.mem_singleton.mpr rfl)) differ
  · intro free call member
    have all := runs.preserves
      (fun calls state => Sound config state (accepted calls) ∧ PointsDistinct config.field state.window.idSlice ∧
        ∀ call ∈ calls, PointsDistinct config.field call.after.window.idSlice)
      (fun call => acceptedBy call.input call.output ≠ [] → call.before.NextPointFree)
      ⟨new_sound config _ _ _, fun _ held => (List.not_mem_nil held).elim, fun _ member => (List.not_mem_nil member).elim⟩ ?_ free
    · exact all.2.2 call member
    rintro calls state input after output ⟨sound, distinct, earlier⟩ stepped allowed
    have apart : PointsDistinct config.field after.window.idSlice := by
      rcases sound.acts_ids (act_ok stepped) with ⟨_, subset⟩ | ⟨accepts, ids⟩
      · exact fun a left b right => distinct a (subset left) b (subset right)
      · rw [ids]
        refine points_join (fun a left b right => distinct a (state.kept_subset left) b (state.kept_subset right)) ?_
        have next := allowed accepts
        rw [NextPointFree, sound.configured] at next
        exact next
    refine ⟨?_, apart, fun call member => ?_⟩
    · rw [accepted_append]
      exact sound.acts (act_ok stepped)
    · rcases List.mem_append.mp member with old | new
      · exact earlier call old
      · rw [List.mem_singleton.mp new]
        exact apart

/-- A Cauchy encoder over GF(2⁴) with the widest window that the builder admits. -/
def cauchyConfig : EncoderConfig := ⟨1, 7, .gf2_4, 0, 1, .reject, .cauchy⟩

/-- Symbol 1 is acknowledged and removed between symbols 0 and 2. -/
theorem window_points_distinct_iff_removed :
    ∃ (calls : List (Call (Encoder AllAckPolicy NoCongestionControl ConstantFecRate) EncoderAction _)) (final : _),
      Runs cauchyConfig {} {} ⟨0, 1, 0⟩ calls final ∧ final.window.idSlice = [0, 2, 3] ∧
        ∀ call ∈ calls, PointsDistinct .gf2_4 call.after.window.idSlice := by
  obtain ⟨calls, final, runs, check⟩ := Run.exists_of_check act
    (new cauchyConfig {} {} ⟨0, 1, 0⟩ : Encoder AllAckPolicy NoCongestionControl ConstantFecRate)
    [.submit [1], .submit [2], .submit [3], .feedback 1 ⟨none, 0, 0, 0, 0, [0x40]⟩, .submit [4]]
    (fun result => decide (result.2.window.idSlice = [0, 2, 3]) && result.1.all fun call => decide call.before.NextPointFree)
    (by decide +kernel)
  obtain ⟨ids, free⟩ := Bool.and_eq_true_iff.mp check
  exact ⟨calls, final, runs, of_decide_eq_true ids, (window_points_distinct_iff runs).mpr fun call member _ =>
    of_decide_eq_true (List.all_eq_true.mp free call member)⟩

/-- Seven symbols, of which all but the first are acknowledged and removed: the eighth gets the
point of the first. -/
theorem window_points_distinct_fails :
    (⟨1, 7, .gf2_4, 0, 1, .reject, .cauchy⟩ : EncoderConfigBuilder).build = .ok cauchyConfig ∧
    ∃ (calls : List (Call (Encoder AllAckPolicy NoCongestionControl ConstantFecRate) EncoderAction _)) (final : _),
      Runs cauchyConfig {} {} ⟨0, 1, 0⟩ calls final ∧ ¬ PointsDistinct .gf2_4 final.window.idSlice := by
  refine ⟨rfl, ?_⟩
  obtain ⟨calls, final, runs, check⟩ := Run.exists_of_check act
    (new cauchyConfig {} {} ⟨0, 1, 0⟩ : Encoder AllAckPolicy NoCongestionControl ConstantFecRate)
    [.submit [1], .submit [2], .submit [3], .submit [4], .submit [5], .submit [6], .submit [7],
      .feedback 1 ⟨none, 0, 0, 0, 0, [0x7E]⟩, .submit [8]]
    (fun result => decide (result.2.window.idSlice = [0, 7])) (by decide +kernel)
  refine ⟨calls, final, runs, fun distinct => ?_⟩
  rw [of_decide_eq_true check] at distinct
  exact absurd rfl (distinct 0 (by simp) 7 (by simp) (by decide))

end Encoder
end Delp
