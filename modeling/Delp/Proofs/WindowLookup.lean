import Delp.Policy.Defaults
import Delp.Proofs.EncoderRun

/-! Until the id counter wraps, the encoder's window is the ascending list of the symbols it still
holds, and the lookup by id finds those symbols whichever way it goes. -/

namespace Delp
open Machine Config

theorem toNat_consecutive {ids : List UInt32} (consecutive : ids.IsChain fun a b => b.toNat = a.toNat + 1) (i : ℕ)
    (inside : i < ids.length) :
    ids[i].toNat = (ids.headD 0).toNat + i := by
  induction i with
  | zero =>
    cases ids with
    | nil => cases inside
    | cons first rest => rfl
  | succ i ih => rw [List.isChain_iff_getElem.mp consecutive i inside, ih (by omega), Nat.add_assoc]

theorem ascending_of_consecutive {ids : List UInt32} (consecutive : ids.IsChain fun a b => b.toNat = a.toNat + 1) :
    ids.Pairwise (· < ·) := by
  have chain : ids.IsChain (· < ·) := consecutive.imp fun a b next => (lt_iff a b).mpr (by omega)
  have : Trans (· < · : UInt32 → UInt32 → Prop) (· < ·) (· < ·) := ⟨UInt32.lt_trans⟩
  exact chain.pairwise

namespace EncodingWindow
variable {window : EncodingWindow} {submitted : List Bytes} {ks : List ℕ}

theorem Tracks.consecutive (tracks : window.Tracks submitted ks) (ascending : window.idSlice.Pairwise (· < ·))
    (contiguous : window.isContiguous = true) : window.idSlice.IsChain fun a b => b.toNat = a.toNat + 1 := by
  apply List.isChain_iff_getElem.mpr
  intro i inside
  have ordered := (lt_iff _ _).mp (List.isChain_iff_getElem.mp ascending.isChain i inside)
  rw [idSlice, List.length_map] at inside
  have step := List.isChain_iff_getElem.mp (tracks.contiguous contiguous) i inside
  simp only [idSlice, List.getElem_map] at ordered ⊢
  rw [step, UInt32.toNat_add, UInt32.toNat_one] at ordered ⊢
  have bound := toNat_lt window.symbols[i].id
  omega

theorem Tracks.get_held (tracks : window.Tracks submitted ks) (ascending : window.idSlice.Pairwise (· < ·))
    {id : SourceSymbolId} (held : id ∈ window.idSlice) :
    ∃ data, window.get id = some data ∧ ⟨id, data⟩ ∈ window.symbols := by
  suffices found : ∃ data, window.get id = some data by
    obtain ⟨data, got⟩ := found
    exact ⟨data, got, tracks.get_some got⟩
  obtain ⟨i, inside, here⟩ := List.getElem_of_mem held
  rw [idSlice, List.length_map] at inside
  have here : window.symbols[i].id = id := by simpa only [idSlice, List.getElem_map] using here
  unfold EncodingWindow.get
  split
  next empty =>
    rw [empty] at inside
    cases inside
  next front rest listed =>
    split
    next contiguous =>
      -- the offset from the front is the position of the symbol
      have place := toNat_consecutive (tracks.consecutive ascending contiguous) i (by rwa [idSlice, List.length_map])
      simp only [idSlice, List.getElem_map, here] at place
      rw [listed, List.map_cons, List.headD_cons] at place
      have above : front.id ≤ id := (le_iff _ _).mpr (by omega)
      rw [if_neg (UInt32.not_lt.mpr above), toNat_sub above, place, Nat.add_sub_cancel_left, List.getElem?_eq_getElem inside]
      exact ⟨_, rfl⟩
    next =>
      have some : (window.symbols.find? fun s => s.id == id).isSome := by
        apply List.find?_isSome.mpr
        exact ⟨_, List.getElem_mem inside, by simp [here]⟩
      obtain ⟨s, found⟩ := Option.isSome_iff_exists.mp some
      rw [found]
      exact ⟨s.data, rfl⟩

theorem Tracks.get_iff (tracks : window.Tracks submitted ks) (ascending : window.idSlice.Pairwise (· < ·))
    {id : SourceSymbolId} {data : Bytes} : window.get id = some data ↔ ⟨id, data⟩ ∈ window.symbols := by
  constructor
  · exact tracks.get_some
  · intro held
    obtain ⟨other, got, again⟩ := tracks.get_held ascending (List.mem_map_of_mem held)
    have distinct : window.idSlice.Nodup := ascending.imp fun less => UInt32.ne_of_lt less
    have same := List.inj_on_of_nodup_map distinct again held rfl
    rw [got, (WindowSymbol.mk.inj same).2]

end EncodingWindow

namespace Encoder
variable {W C F : Type} {config : EncoderConfig} {self : Encoder W C F} {submitted : List Bytes}

theorem Sound.ordered (sound : Sound config self submitted) (few : submitted.length < 4294967296) :
    self.window.nextId.toNat = submitted.length ∧ self.window.idSlice.Pairwise (· < ·) ∧
      ∀ id ∈ self.window.idSlice, id < self.window.nextId := by
  obtain ⟨ks, tracks⟩ := sound.tracks
  have counter : self.window.nextId.toNat = submitted.length := by rw [tracks.next, toNat_ofNat few]
  have rank (k : ℕ) (member : k ∈ ks) : (UInt32.ofNat k).toNat = k := toNat_ofNat ((tracks.below k member).trans few)
  refine ⟨counter, ?_, fun id member => ?_⟩
  · rw [tracks.idSlice_eq]
    refine List.pairwise_map.mpr (tracks.ascending.imp_of_mem fun {a b} left right less => ?_)
    rw [lt_iff, rank a left, rank b right]
    exact less
  · rw [tracks.idSlice_eq] at member
    obtain ⟨k, inside, rfl⟩ := List.mem_map.mp member
    rw [lt_iff, rank k inside, counter]
    exact tracks.below k inside

def held (self : Encoder W C F) (id : SourceSymbolId) : Bytes := (self.window.get id).getD []

theorem payload_total {cover : List SourceSymbolId} (coefs : Bytes)
    (found : ∀ id ∈ cover, ∃ data, self.window.get id = some data ∧ data.length = self.config.symbolSize) :
    ∃ payload, self.computeCodedPayloadTargeted cover coefs = .ok payload := by
  have turn (scratch : Bytes) (term : SourceSymbolId × UInt8) (member : term ∈ cover.zip coefs) :
      ∃ next, self.accumulate scratch term = .ok next := by
    obtain ⟨data, got, sized⟩ := found term.1 (List.of_mem_zip member).1
    simp only [accumulate, got, Outcome.get_some, Outcome.ok_bind, Outcome.require_of sized]
    cases self.config.field <;> dsimp only <;> split <;> exact ⟨_, rfl⟩
  obtain ⟨payload, summed, _⟩ := Outcome.foldlM_returns self.accumulate (cover.zip coefs) (fun _ _ => True)
    (fun visited term rest scratch split _ => by
      obtain ⟨next, added⟩ := turn scratch term (split ▸ List.mem_append_right visited List.mem_cons_self)
      exact ⟨next, added, trivial⟩) (List.replicate self.config.symbolSize 0) trivial
  exact ⟨payload, summed⟩

/-- The window of an encoder that has accepted `submitted`: which symbols it holds, and what it finds. -/
structure Represents (config : EncoderConfig) (submitted : List Bytes) (state : Encoder W C F) : Prop where
  ascending : state.window.idSlice.Pairwise (· < ·)
  below : ∀ id ∈ state.window.idSlice, id < state.window.nextId
  atMost : state.window.symbols.length ≤ config.windowCapacity
  consecutive : state.window.isContiguous = true → state.window.idSlice.IsChain fun a b => b.toNat = a.toNat + 1
  own : ∀ s ∈ state.window.symbols, submitted[s.id.toNat]? = some s.data
  finds : ∀ id data, state.window.get id = some data ↔ ⟨id, data⟩ ∈ state.window.symbols
  /-- No symbol of a cover drawn from the window is missing when its payload is summed. -/
  sums : ∀ cover coefs, (∀ id ∈ cover, id ∈ state.window.idSlice) →
    ∃ payload, state.computeCodedPayloadTargeted cover coefs = .ok payload

theorem Sound.represents (sound : Sound config self submitted) (few : submitted.length < 4294967296) :
    Represents config submitted self := by
  obtain ⟨_, ascending, below⟩ := sound.ordered few
  obtain ⟨ks, tracks⟩ := sound.tracks
  refine ⟨ascending, below, sound.fits, tracks.consecutive ascending, ?_, fun _ _ => tracks.get_iff ascending, ?_⟩
  · intro s held
    rw [tracks.symbols] at held
    obtain ⟨k, member, rfl⟩ := List.mem_map.mp held
    have inside := tracks.below k member
    simp only [submittedSymbol]
    rw [toNat_ofNat (inside.trans few), List.getD_eq_getElem _ _ inside, List.getElem?_eq_getElem inside]
  · intro cover coefs drawn
    apply payload_total
    intro id covered
    obtain ⟨data, got, held⟩ := tracks.get_held ascending (drawn id covered)
    rw [sound.configured]
    exact ⟨data, got, sound.sized_of_held held⟩

variable [WindowPolicy W] [CongestionControl C] [FecRateController F]

/-- Whatever an encoder is called for, its window holds ascending ids with their own symbols, and
finds exactly these; so it does inside a submission, when the coded packets are generated. -/
theorem window_represents {windowPolicy : W} {cc : C} {fec : F}
    {calls : List (Call (Encoder W C F) EncoderAction (Except DelpError (List EncoderOutput)))} {final : Encoder W C F}
    (runs : Runs config windowPolicy cc fec calls final) (few : (accepted calls).length < 4294967296) :
    Represents config (accepted calls) final ∧ ∀ data room window id, (accepted calls).length + 1 < 4294967296 →
      data.length = config.symbolSize → final.makeRoom = .ok room → room.push data = .ok (window, id) → ∀ (cc : C) (fec : F),
        Represents config (accepted calls ++ [data]) { final with window := window, cc := cc, fec := fec } := by
  have sound := runs_sound runs
  refine ⟨sound.represents few, ?_⟩
  intro data room window id more sized made pushed cc fec
  apply (sound.pushed (by rw [sound.configured, sized]) made pushed cc fec).represents
  rwa [List.length_append, List.length_singleton]

/-- Symbol 2 is acknowledged out of the middle of the window before symbol 4 is submitted. -/
theorem window_represents_gap :
    ∃ (calls : List (Call (Encoder AnyAckPolicy NoCongestionControl ConstantFecRate) EncoderAction
        (Except DelpError (List EncoderOutput)))) (final : Encoder AnyAckPolicy NoCongestionControl ConstantFecRate),
      Runs ⟨1, 3, .gf2_8, 0, 1, .evictOldest, .vandermonde⟩ {} {} ⟨0, 1, 0⟩ calls final ∧ final.window.idSlice = [1, 3, 4] ∧
        final.window.isContiguous = false ∧
        Represents ⟨1, 3, .gf2_8, 0, 1, .evictOldest, .vandermonde⟩ [[1], [2], [3], [4], [5]] final := by
  obtain ⟨calls, final, runs, check⟩ := Run.exists_of_check act
    (new ⟨1, 3, .gf2_8, 0, 1, .evictOldest, .vandermonde⟩ {} {} ⟨0, 1, 0⟩ :
      Encoder AnyAckPolicy NoCongestionControl ConstantFecRate)
    [.submit [1], .submit [2], .submit [3], .submit [4], .feedback 0 ⟨none, 0, 0, 0, 0, [0x20]⟩, .submit [5]]
    (fun result => decide (accepted result.1 = [[1], [2], [3], [4], [5]]) &&
      decide (result.2.window.idSlice = [1, 3, 4] ∧ result.2.window.isContiguous = false)) (by decide +kernel)
  obtain ⟨symbols, window⟩ := Bool.and_eq_true_iff.mp check
  have symbols : accepted calls = [[1], [2], [3], [4], [5]] := of_decide_eq_true symbols
  have represents := (window_represents runs (by rw [symbols]; decide)).1
  rw [symbols] at represents
  exact ⟨calls, final, runs, (of_decide_eq_true window).1, (of_decide_eq_true window).2, represents⟩

end Encoder
end Delp
