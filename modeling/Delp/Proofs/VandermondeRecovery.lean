import Delp.Proofs.CodedEquations
import Delp.Proofs.VandermondePoints
import Delp.Proofs.WindowLookup

/-! Successive coded packets of a Vandermonde encoder over its whole window: within a cycle of coded
ids, as many packets as symbols were lost leave no choice for these. -/

namespace Delp
open Machine Config Gf

namespace Encoder
variable {W C F : Type}

/-- Two assignments that differ only in lost symbols, and give the same combinations. -/
structure Agrees (field : Config.Field) (size : ℕ) (ids : List SourceSymbolId) {k : ℕ} (lost : Fin k → SourceSymbolId)
    (coefs : Fin k → Bytes) (x y : SourceSymbolId → Bytes) : Prop where
  sized : ∀ id ∈ ids, (x id).length = size ∧ (y id).length = size
  received : ∀ id ∈ ids, (∀ i, lost i ≠ id) → y id = x id
  combined : ∀ j, combine field size ((coefs j).zip (ids.map y)) = combine field size ((coefs j).zip (ids.map x))

theorem Agrees.lost_eq {field : Config.Field} {size k : ℕ} {ids : List SourceSymbolId} {lost : Fin k → SourceSymbolId}
    {coefs : Fin k → Bytes} {x y : SourceSymbolId → Bytes} (agrees : Agrees field size ids lost coefs x y) (distinct : ids.Nodup)
    (apart : Function.Injective lost) {place : Fin k → Fin ids.length} (places : ∀ i, ids[place i] = lost i)
    (matched : ∀ j, (coefs j).length = ids.length)
    (nonsingular : (Matrix.of fun i j => elem field ((coefs j).getD (place i) 0)).det ≠ 0) (i : Fin k) :
    y (lost i) = x (lost i) := by
  have member (i : Fin k) : lost i ∈ ids := places i ▸ List.getElem_mem _
  have lane (lane : ℕ) : (fun i => symbol field (y (lost i)) lane - symbol field (x (lost i)) lane) = 0 := by
    by_contra nonzero
    apply nonsingular
    apply Matrix.exists_vecMul_eq_zero_iff.mp
    refine ⟨_, nonzero, funext fun j => ?_⟩
    simp only [Matrix.vecMul, dotProduct, Pi.zero_apply]
    have sums := congrArg (fun bytes => symbol field bytes lane) (agrees.combined j)
    simp only [combine_lane (matched j) fun id here => (agrees.sized id here).1,
      combine_lane (matched j) fun id here => (agrees.sized id here).2] at sums
    have zero : ∑ p : Fin ids.length, elem field ((coefs j).getD p 0) *
        (symbol field (y ids[p]) lane - symbol field (x ids[p]) lane) = 0 := by
      simp only [mul_sub, Finset.sum_sub_distrib]
      exact sub_eq_zero.mpr sums
    -- only the places of lost symbols contribute
    refine Eq.trans ?_ zero
    apply Finset.sum_of_injOn place
    · intro a _ b _ same
      exact apart ((places a).symm.trans ((congrArg (fun p : Fin ids.length => ids[p]) same).trans (places b)))
    · exact fun _ _ => Finset.mem_coe.mpr (Finset.mem_univ _)
    · intro p _ other
      have received : ∀ i, lost i ≠ ids[p] := by
        intro i same
        apply other
        refine ⟨i, Finset.mem_coe.mpr (Finset.mem_univ i), ?_⟩
        exact Fin.ext (List.Nodup.getElem_inj_iff distinct |>.mp ((places i).trans same))
      have same := agrees.received _ (List.getElem_mem p.isLt) received
      simp only [Fin.getElem_fin, same, sub_self, mul_zero]
    · intro i _
      simp only [places, Matrix.of_apply]
      exact mul_comm _ _
  have sized := agrees.sized _ (member i)
  have lanes : symbol field (y (lost i)) = symbol field (x (lost i)) := by
    funext at_
    exact sub_eq_zero.mp (congrFun (lane at_) i)
  exact symbol_injective (sized.2.trans sized.1.symm) lanes

variable [CongestionControl C]

/-- The coded packet over the whole window under a coded id, as the encoder computes it: its
coefficients, its payload and its bytes. -/
structure Packs (state : Encoder W C F) (codedId : CodedSymbolId) (coefs payload bytes : Bytes) : Prop where
  generated : CoefGen.vandermondeBatch state.config.field state.window.idSlice codedId = .ok coefs
  summed : state.computeCodedPayloadTargeted state.window.idSlice coefs = .ok payload
  written : ∃ ev, EncodingVector.vandermonde state.config.field codedId state.window.idSlice = .ok ev ∧
    ∃ cci, CodedPacket.serialise codedId ev payload cci none = .ok bytes

theorem Codes.packs {self after : Encoder W C F} {bytes : Bytes} (codes : self.Codes self.window.idSlice bytes after)
    (strategy : self.config.matrixStrategy = .vandermonde) :
    ∃ coefs payload, self.Packs self.nextCodedId coefs payload bytes := by
  obtain ⟨coefs, ev, payload, coded, summed, serialised⟩ := codes.packet
  rw [coefficientsFor, strategy] at coded
  obtain ⟨batch, generated, coded⟩ := Outcome.bind_eq_ok.mp coded
  obtain ⟨vector, built, same⟩ := Outcome.bind_eq_ok.mp coded
  cases same
  exact ⟨coefs, payload, generated, summed, ev, built, _, serialised⟩

theorem Emits.packs {config : EncoderConfig} {self after : Encoder W C F} {submitted : List Bytes}
    (sound : Sound config self submitted) (strategy : config.matrixStrategy = .vandermonde) {outputs : List EncoderOutput}
    (emits : Emits self outputs after) {i : ℕ} (inside : i < outputs.length)
    (inCycle : self.nextCodedId.toNat + i < codedIdLimit .vandermonde config.field) :
    ∃ coefs payload bytes, outputs[i]? = some (.coded bytes) ∧
      self.Packs (self.nextCodedId + UInt32.ofNat i) coefs payload bytes := by
  induction emits generalizing i with
  | done => cases inside
  | @next self middle _ bytes rest codes later ih =>
    cases i with
    | zero =>
      obtain ⟨coefs, payload, packs⟩ := codes.packs (by rw [sound.configured, strategy])
      refine ⟨coefs, payload, bytes, rfl, ?_⟩
      rwa [show UInt32.ofNat 0 = 0 from rfl, UInt32.add_zero]
    | succ i =>
      obtain ⟨middleSound, window, _⟩ := sound.codes codes
      have counter : middle.nextCodedId = self.nextCodedId + 1 := by
        obtain ⟨next, cc, advanced, rfl⟩ := codes.advanced
        have counts : Counts self.config self.nextCodedId := by rw [sound.configured]; exact sound.counts
        obtain ⟨other, same, turned⟩ := advanceCodedId_eq counts
        cases advanced.symm.trans same
        rw [sound.configured, strategy, if_neg (by omega)] at turned
        rw [eq_iff, toNat_add (by rw [UInt32.toNat_one]; have := toNat_lt next.nextCodedId; omega), UInt32.toNat_one]
        exact turned.1
      have limit : codedIdLimit .vandermonde config.field ≤ 255 := by cases config.field <;> decide
      have one : (self.nextCodedId + 1).toNat = self.nextCodedId.toNat + 1 :=
        toNat_add (by rw [UInt32.toNat_one]; omega)
      obtain ⟨coefs, payload, bytes, at_, packs⟩ := ih middleSound (Nat.lt_of_succ_lt_succ inside) (by rw [counter, one]; omega)
      refine ⟨coefs, payload, bytes, at_, ?_⟩
      have same : middle.config = self.config := middleSound.configured.trans sound.configured.symm
      have id : middle.nextCodedId + UInt32.ofNat i = self.nextCodedId + UInt32.ofNat (i + 1) := by
        rw [counter, UInt32.add_assoc, UInt32.ofNat_add, UInt32.add_comm 1]
        rfl
      rw [id] at packs
      obtain ⟨generated, summed, written⟩ := packs
      rw [payload_frame same window] at summed
      rw [same, window] at generated written
      rw [window] at summed
      exact ⟨generated, summed, written⟩

private def dataOf (window : EncodingWindow) (id : SourceSymbolId) : Bytes :=
  ((window.symbols.find? fun s => s.id == id).map (·.data)).getD []

omit [CongestionControl C] in
private theorem dataOf_eq {window : EncodingWindow} (distinct : window.idSlice.Nodup) {s : WindowSymbol}
    (held : s ∈ window.symbols) : dataOf window s.id = s.data := by
  have some : (window.symbols.find? fun other => other.id == s.id).isSome :=
    List.find?_isSome.mpr ⟨s, held, beq_self_eq_true _⟩
  obtain ⟨other, found⟩ := Option.isSome_iff_exists.mp some
  have same : other.id = s.id := beq_iff_eq.mp (List.find?_some (p := fun other : WindowSymbol => other.id == s.id) found)
  have here : other = s := List.inj_on_of_nodup_map distinct (List.mem_of_find?_eq_some found) held same
  rw [dataOf, found, here]
  rfl

omit [CongestionControl C] in
theorem Packs.rows {config : EncoderConfig} {self : Encoder W C F} (configured : self.config = config) {codedId : CodedSymbolId}
    {coefs payload bytes : Bytes} (packs : self.Packs codedId coefs payload bytes) :
    List.Forall₂ (fun id c => CoefGen.vandermondeCoef config.field id codedId = .ok c) self.window.idSlice coefs := by
  have generated := packs.generated
  rw [configured, CoefGen.vandermondeBatch_eq] at generated
  exact Outcome.mapM_eq_ok.mp generated

omit [CongestionControl C] in
theorem Sound.agrees {config : EncoderConfig} {self : Encoder W C F} {submitted : List Bytes} (sound : Sound config self submitted)
    (distinct : self.window.idSlice.Nodup) {k : ℕ} {lost : Fin k → SourceSymbolId} {coefs payloads packets : Fin k → Bytes}
    {codedIds : Fin k → CodedSymbolId} (packs : ∀ j, self.Packs (codedIds j) (coefs j) (payloads j) (packets j))
    {y : SourceSymbolId → Bytes} (sized : ∀ id ∈ self.window.idSlice, (y id).length = config.symbolSize)
    (received : ∀ s ∈ self.window.symbols, (∀ i, lost i ≠ s.id) → y s.id = s.data)
    (combined : ∀ j, payloads j = combine config.field config.symbolSize ((coefs j).zip (self.window.idSlice.map y))) :
    Agrees config.field config.symbolSize self.window.idSlice lost coefs (dataOf self.window) y := by
  refine ⟨?_, ?_, ?_⟩
  · intro id member
    obtain ⟨t, found, rfl⟩ := List.mem_map.mp member
    rw [dataOf_eq distinct found]
    exact ⟨sound.sized_of_held found, sized _ member⟩
  · intro id member other
    obtain ⟨t, found, rfl⟩ := List.mem_map.mp member
    rw [dataOf_eq distinct found]
    exact received t found other
  · intro j
    rw [← combined j, payload_eq (x := dataOf self.window) ?_ (packs j).summed, sound.configured]
    intro id member
    obtain ⟨t, found, rfl⟩ := List.mem_map.mp member
    rw [dataOf_eq distinct found, sound.configured]
    refine ⟨sound.sized_of_held found, fun data got => ?_⟩
    obtain ⟨ks, tracks⟩ := sound.tracks
    exact congrArg WindowSymbol.data (List.inj_on_of_nodup_map distinct (tracks.get_some got) found rfl)

/-- With the other symbols of the window, the packets leave no choice for the lost ones. -/
def Recovers (self : Encoder W C F) {k : ℕ} (lost : Fin k → SourceSymbolId) (coefs payloads : Fin k → Bytes) : Prop :=
  ∀ y : SourceSymbolId → Bytes, (∀ id ∈ self.window.idSlice, (y id).length = self.config.symbolSize) →
    (∀ s ∈ self.window.symbols, (∀ i, lost i ≠ s.id) → y s.id = s.data) →
    (∀ j, payloads j = combine self.config.field self.config.symbolSize ((coefs j).zip (self.window.idSlice.map y))) →
    ∀ s ∈ self.window.symbols, y s.id = s.data

theorem Sound.recovers {config : EncoderConfig} {self after : Encoder W C F} {submitted : List Bytes}
    (sound : Sound config self submitted) (distinct : self.window.idSlice.Nodup) (strategy : config.matrixStrategy = .vandermonde)
    {k : ℕ} {outputs : List EncoderOutput} (emitted : self.emitCoded [] k = .ok (after, outputs))
    (inCycle : self.nextCodedId.toNat + k ≤ codedIdLimit .vandermonde config.field) {lost : Fin k → SourceSymbolId}
    (held : ∀ i, lost i ∈ self.window.idSlice)
    (apart : Function.Injective fun i => (lost i).toNat % CoefGen.powers config.field) :
    ∃ coefs payloads : Fin k → Bytes,
      (∀ j : Fin k, ∃ bytes, outputs[j.val]? = some (.coded bytes) ∧
        self.Packs (self.nextCodedId + UInt32.ofNat j) (coefs j) (payloads j) bytes) ∧ self.Recovers lost coefs payloads := by
  have lostPlace (i : Fin k) : ∃ p : Fin self.window.idSlice.length, self.window.idSlice[p] = lost i := by
    obtain ⟨p, inside, here⟩ := List.getElem_of_mem (held i)
    exact ⟨⟨p, inside⟩, here⟩
  choose place places using lostPlace
  have sent (j : Fin k) : ∃ coefs payload bytes, outputs[j.val]? = some (.coded bytes) ∧
      self.Packs (self.nextCodedId + UInt32.ofNat j) coefs payload bytes := by
    have nonempty : self.window.symbols ≠ [] := by
      intro empty
      have impossible := held j
      rw [EncodingWindow.idSlice, empty] at impossible
      cases impossible
    have length := emitCoded_length nonempty emitted
    obtain ⟨coded, rfl, emits⟩ := emitCoded_ok emitted
    have inside := j.isLt
    exact emits.packs sound strategy (by rw [length, List.length_nil]; omega) (by omega)
  choose coefs payloads packets at_ packs using sent
  refine ⟨coefs, payloads, fun j => ⟨packets j, at_ j, packs j⟩, ?_⟩
  rw [Recovers, sound.configured]
  intro y sized received combined s inside
  by_cases here : ∃ i, lost i = s.id
  swap
  · exact received s inside fun i same => here ⟨i, same⟩
  obtain ⟨i, here⟩ := here
  have positive : 1 ≤ self.nextCodedId := by
    have counts := sound.counts.1
    rw [strategy] at counts
    exact (le_iff _ _).mpr counts
  have limit : self.nextCodedId.toNat + k ≤ 255 := by
    refine inCycle.trans ?_
    cases config.field <;> decide
  obtain ⟨square, derived, nonsingular⟩ := CoefGen.vandermonde_square apart positive limit
  have rows (j : Fin k) := (packs j).rows sound.configured
  have entries : (Matrix.of fun i j => elem config.field ((coefs j).getD (place i) 0)) =
      Matrix.of fun i j => elem config.field (square i j) := by
    apply Matrix.ext
    intro i j
    have here : (place i).val < (coefs j).length := by rw [← (rows j).length_eq]; exact (place i).isLt
    have listed := (List.forall₂_iff_get.mp (rows j)).2 (place i) (place i).isLt here
    have spelled := (derived i j).1
    rw [← places i] at spelled
    have same := Outcome.ok.inj (listed.symm.trans spelled)
    rw [Matrix.of_apply, Matrix.of_apply, List.getD_eq_getElem _ _ here]
    exact congrArg (elem config.field) same
  have agrees := sound.agrees distinct packs sized received combined
  have last := agrees.lost_eq distinct (fun a b same => apart (congrArg (fun id => id.toNat % CoefGen.powers config.field) same))
    places (fun j => (rows j).length_eq.symm) (by rw [entries]; exact nonsingular) i
  rw [← here, last, here, dataOf_eq distinct inside]

variable [WindowPolicy W] [FecRateController F]

/-- Successive Vandermonde packets have a nonsingular matrix at ids with distinct points, so as many of
them over the whole window as symbols with such ids were lost leave no choice for these. -/
theorem vandermonde_independent (k : ℕ) :
    (∀ (field : Config.Field) (ids : Fin k → SourceSymbolId) (first : CodedSymbolId),
      Function.Injective (fun i => (ids i).toNat % CoefGen.powers field) → 1 ≤ first →
      first.toNat + k ≤ codedIdLimit .vandermonde field →
      ∃ coefs : Fin k → Fin k → UInt8,
        (∀ i j : Fin k, CoefGen.vandermondeCoef field (ids i) (first + UInt32.ofNat j) = .ok (coefs i j) ∧ InField field (coefs i j)) ∧
          (Matrix.of fun i j => elem field (coefs i j)).det ≠ 0) ∧
    ∀ (config : EncoderConfig) (windowPolicy : W) (cc : C) (fec : F)
      (calls : List (Call (Encoder W C F) EncoderAction (Except DelpError (List EncoderOutput)))) (self after : Encoder W C F)
      (outputs : List EncoderOutput) (lost : Fin k → SourceSymbolId),
      Runs config windowPolicy cc fec calls self → config.matrixStrategy = .vandermonde → self.window.idSlice.Nodup →
      self.emitCoded [] k = .ok (after, outputs) → self.nextCodedId.toNat + k ≤ codedIdLimit .vandermonde config.field →
      (∀ i, lost i ∈ self.window.idSlice) → Function.Injective (fun i => (lost i).toNat % CoefGen.powers config.field) →
      ∃ coefs payloads : Fin k → Bytes,
        (∀ j : Fin k, ∃ bytes, outputs[j.val]? = some (.coded bytes) ∧
          self.Packs (self.nextCodedId + UInt32.ofNat j) (coefs j) (payloads j) bytes) ∧ self.Recovers lost coefs payloads := by
  constructor
  · intro field ids first distinct positive inCycle
    refine CoefGen.vandermonde_square distinct positive (inCycle.trans ?_)
    cases field <;> decide
  · intro config windowPolicy cc fec calls self after outputs lost runs strategy distinct emitted inCycle held apart
    exact (runs_sound runs).recovers distinct strategy emitted inCycle held apart

/-- Symbols 0 and 2 of a window of three are lost, and two packets are received. -/
theorem vandermonde_independent_two :
    (∃ coefs : Fin 2 → Fin 2 → UInt8,
      (∀ i j : Fin 2, CoefGen.vandermondeCoef .gf2_4 (![0, 16] i) (13 + UInt32.ofNat j) = .ok (coefs i j) ∧ InField .gf2_4 (coefs i j)) ∧
        (Matrix.of fun i j => elem .gf2_4 (coefs i j)).det ≠ 0) ∧
    ∃ (calls : List (Call (Encoder AllAckPolicy NoCongestionControl ConstantFecRate) EncoderAction _)) (final after : _)
      (outputs : List EncoderOutput) (coefs payloads : Fin 2 → Bytes),
      Runs ⟨1, 3, .gf2_8, 0, 1, .reject, .vandermonde⟩ {} {} ⟨0, 1, 0⟩ calls final ∧ final.window.idSlice = [0, 1, 2] ∧
        final.emitCoded [] 2 = .ok (after, outputs) ∧ final.Recovers ![0, 2] coefs payloads := by
  have matrix := (@vandermonde_independent AllAckPolicy NoCongestionControl ConstantFecRate _ _ _ 2).1 .gf2_4 ![0, 16] 13
    (by decide) (by decide) (by decide)
  refine ⟨matrix, ?_⟩
  obtain ⟨calls, final, runs, check⟩ := Run.exists_of_check act
    (new ⟨1, 3, .gf2_8, 0, 1, .reject, .vandermonde⟩ {} {} ⟨0, 1, 0⟩ :
      Encoder AllAckPolicy NoCongestionControl ConstantFecRate)
    [.submit [1], .submit [2], .submit [3]]
    (fun result => decide (result.2.window.idSlice = [0, 1, 2] ∧ result.2.nextCodedId = 1) && (result.2.emitCoded [] 2).passes
      fun _ => true) (by decide +kernel)
  obtain ⟨ids, sent⟩ := Bool.and_eq_true_iff.mp check
  obtain ⟨⟨after, outputs⟩, sent, _⟩ := Outcome.passes_iff.mp sent
  obtain ⟨ids, counter⟩ := of_decide_eq_true ids
  have ids : final.window.idSlice = [0, 1, 2] := ids
  have counter : final.nextCodedId = 1 := counter
  obtain ⟨coefs, payloads, _, recovers⟩ := (vandermonde_independent 2).2 _ {} {} ⟨0, 1, 0⟩ calls final after outputs ![0, 2] runs rfl
    (by rw [ids]; decide) sent (by rw [counter]; decide) (by rw [ids]; decide) (by decide)
  exact ⟨calls, final, after, outputs, coefs, payloads, runs, ids, sent, recovers⟩

end Encoder
end Delp
