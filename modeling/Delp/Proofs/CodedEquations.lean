import Delp.Proofs.CauchyPoints
import Delp.Proofs.EncoderRun
import Delp.Proofs.PacketRoundTrip
import Delp.Proofs.PacketRows

/-! The equation that an encoder writes into a coded packet is the one that a decoder reads. -/

namespace Delp
open Machine Config Gf

namespace CoefGen

theorem vandermondeBatch_eq (field : Config.Field) (ids : List UInt32) (codedId : UInt32) :
    vandermondeBatch field ids codedId = ids.mapM fun id => vandermondeCoef field id codedId := by
  cases field with
  | gf2_8 => rfl
  | gf2_4 =>
    refine Outcome.mapM_congr fun id _ => ?_
    show (Gf2_4.vandermonde id codedId >>= fun coef => pure (coef.value &&& 0x0F)) = _
    simp only [and_of_lt (Gf2_4.low _)]
    rfl

def cauchyBatch (field : Config.Field) (ids : List UInt32) (codedId : UInt32) (generation : UInt8) : Result Bytes :=
  ids.mapM fun id => cauchyCoef field id codedId generation

end CoefGen

namespace EncodingVector

theorem coefs_explicit (ev : EncodingVector) (nonempty : ev.coefficients ≠ [])
    (sized : ev.sourceIds.length = ev.coefficients.length) : ev.coefs = .ok ev.coefficients := by
  have explicit : ev.hasExplicitCoefs = true := by
    simpa [hasExplicitCoefs] using nonempty
  refine Outcome.mapM_eq_ok.mpr (List.forall₂_iff_get.mpr ⟨by rw [List.length_zipIdx, sized], fun i inside listed => ?_⟩)
  simp only [List.get_eq_getElem, List.getElem_zipIdx, Nat.zero_add]
  rw [DecodingMatrix.coefAt, if_pos explicit]
  exact index_eq_ok.mpr (List.getElem?_eq_getElem _)

theorem coefs_implicit {ev : EncodingVector} (empty : ev.coefficients = []) :
    ev.coefs = ev.sourceIds.mapM fun id => CoefGen.vandermondeCoef ev.field id ev.codedId := by
  have implicit : ¬ ev.hasExplicitCoefs = true := by simp [hasExplicitCoefs, empty]
  have same : ev.coefs = (ev.sourceIds.zipIdx.map Prod.fst).mapM fun id => CoefGen.vandermondeCoef ev.field id ev.codedId := by
    rw [List.mapM_map]
    refine Outcome.mapM_congr fun term _ => ?_
    show DecodingMatrix.coefAt ev term.2 term.1 = _
    rw [DecodingMatrix.coefAt, if_neg implicit]
    rfl
  rw [same, List.zipIdx_map_fst]

end EncodingVector
namespace Encoder
variable {W C F : Type}

private theorem accumulate_eq {self : Encoder W C F} {id : SourceSymbolId} {c : UInt8} {symbol scratch next : Bytes}
    (matched : scratch.length = symbol.length) (found : ∀ data, self.window.get id = some data → data = symbol)
    (added : self.accumulate scratch (id, c) = .ok next) :
    next = scratch.zipWith (· ^^^ ·) (symbol.map (mulByte self.config.field c)) := by
  unfold accumulate at added
  cases field : self.config.field with
  | gf2_8 =>
    rw [field] at added
    dsimp only at added
    split at added
    next zero =>
      cases added
      rw [zero, zipWith_zero matched mulByte_of_zero]
    next =>
      obtain ⟨data, got, added⟩ := Outcome.bind_eq_ok.mp added
      obtain ⟨_, _, added⟩ := Outcome.bind_eq_ok.mp added
      obtain rfl := found data (Outcome.get_eq_ok.mp got)
      cases added
      exact scalarMulAcc_eq matched (product_gf2_8 c)
  | gf2_4 =>
    rw [field] at added
    dsimp only at added
    split at added
    next zero =>
      cases added
      rw [zipWith_zero matched fun s => by simp [mulByte, zero, Gf2_4.mulRaw]]
    next =>
      obtain ⟨data, got, added⟩ := Outcome.bind_eq_ok.mp added
      obtain ⟨_, _, added⟩ := Outcome.bind_eq_ok.mp added
      obtain rfl := found data (Outcome.get_eq_ok.mp got)
      cases added
      exact scalarMulAcc_eq matched (product_gf2_4 c)

theorem payload_eq {self : Encoder W C F} {x : SourceSymbolId → Bytes} {cover : List SourceSymbolId} {coefs payload : Bytes}
    (held : ∀ id ∈ cover, (x id).length = self.config.symbolSize ∧ ∀ data, self.window.get id = some data → data = x id)
    (summed : self.computeCodedPayloadTargeted cover coefs = .ok payload) :
    payload = combine self.config.field self.config.symbolSize (coefs.zip (cover.map x)) := by
  have loop (scratch : Bytes) (length : scratch.length = self.config.symbolSize)
      (summed : (cover.zip coefs).foldlM self.accumulate scratch = .ok payload) :
      payload = (coefs.zip (cover.map x)).foldl
        (fun sum term => sum.zipWith (· ^^^ ·) (term.2.map (mulByte self.config.field term.1))) scratch := by
    clear * - held length summed
    induction cover generalizing coefs scratch with
    | nil =>
      cases summed
      simp
    | cons id rest ih =>
      cases coefs with
      | nil =>
        cases summed
        rfl
      | cons c coefs =>
        obtain ⟨next, added, summed⟩ := Outcome.bind_eq_ok.mp summed
        obtain ⟨sized, found⟩ := held id List.mem_cons_self
        have matched : scratch.length = (x id).length := length.trans sized.symm
        have step : next = scratch.zipWith (· ^^^ ·) ((x id).map (mulByte self.config.field c)) :=
          accumulate_eq matched found added
        refine ih (fun other member => held other (List.mem_cons_of_mem _ member)) next ?_ summed |>.trans ?_
        · rw [step, List.length_zipWith, List.length_map, ← matched, Nat.min_self, length]
        · rw [List.map_cons, List.zip_cons_cons, List.foldl_cons, step]
  exact loop _ List.length_replicate summed

theorem combine_lane {field : Config.Field} {size : ℕ} {x : SourceSymbolId → Bytes} {ids : List SourceSymbolId} {coefs : Bytes}
    (matched : coefs.length = ids.length) (sized : ∀ id ∈ ids, (x id).length = size) (lane : ℕ) :
    symbol field (combine field size (coefs.zip (ids.map x))) lane =
      ∑ j : Fin ids.length, elem field (coefs.getD j 0) * symbol field (x ids[j]) lane := by
  have listed : (coefs.zip (ids.map x)).map (fun term => elem field term.1 • symbol field term.2) =
      List.ofFn fun j : Fin ids.length => elem field (coefs.getD j 0) • symbol field (x ids[j]) := by
    refine List.ext_getElem (by simp [matched]) fun j inside _ => ?_
    have here : j < coefs.length := by
      rw [List.length_map, List.length_zip] at inside
      omega
    simp [List.getElem_zip, here]
  rw [(combine_symbols sized coefs).2, listed, List.sum_ofFn, Finset.sum_apply]
  rfl

/-- What a packet states of the symbols that it covers: that its payload is their combination,
with the coefficients that a decoder derives. -/
def StatesCover (config : EncoderConfig) (x : SourceSymbolId → Bytes) (cover : List SourceSymbolId) (bytes : Bytes) : Prop :=
  ∃ packet coefs, CodedPacket.parse bytes = .ok packet ∧ packet.ev.field = config.field ∧ packet.ev.sourceIds = cover ∧
    packet.ev.coefs = .ok coefs ∧ packet.payload = combine config.field config.symbolSize (coefs.zip (cover.map x))

/-- A Cauchy encoder lists its coefficients and announces their generation. -/
theorem coefficientsFor_cauchy {self : Encoder W C F} (strategy : self.config.matrixStrategy = .cauchy)
    (cover : List SourceSymbolId) (codedId : CodedSymbolId) (generation : UInt8) :
    self.coefficientsFor cover codedId generation = (do
      Outcome.require (codedId < self.codedIdCycle) .assertion
      let coefs ← CoefGen.cauchyBatch self.config.field cover codedId generation
      let ev ← EncodingVector.explicit self.config.field codedId cover coefs
      pure (coefs, ev.withGeneration generation)) := by
  rw [coefficientsFor, strategy]
  cases self.config.field <;> rfl

theorem coefficientsFor_built {self : Encoder W C F} (counts : Counts self.config self.nextCodedId)
    {cover : List SourceSymbolId} (nonempty : cover ≠ []) {coefs : Bytes} {ev : EncodingVector}
    (coded : self.coefficientsFor cover self.nextCodedId self.generation = .ok (coefs, ev)) :
    ev.coefs = .ok coefs ∧ ev.codedId = self.nextCodedId ∧ ∃ listed, EncodingVector.Built self.config.field cover listed ev ∧
      ∀ c ∈ listed, InField self.config.field c := by
  cases strategy : self.config.matrixStrategy with
  | vandermonde =>
    rw [coefficientsFor, strategy] at coded
    obtain ⟨batch, generated, coded⟩ := Outcome.bind_eq_ok.mp coded
    obtain ⟨vector, built, same⟩ := Outcome.bind_eq_ok.mp coded
    cases same
    rw [CoefGen.vandermondeBatch_eq] at generated
    have shape := EncodingVector.Built.shape (.vandermonde built)
    have id : ev.codedId = self.nextCodedId := by
      obtain ⟨_, _, same⟩ := Outcome.bind_eq_ok.mp built
      cases same
      rfl
    refine ⟨?_, id, [], .vandermonde built, fun _ member => (List.not_mem_nil member).elim⟩
    rw [EncodingVector.coefs_implicit shape.2.2.1, shape.1, shape.2.1, id]
    exact generated
  | cauchy =>
    rw [coefficientsFor_cauchy strategy] at coded
    obtain ⟨_, _, coded⟩ := Outcome.bind_eq_ok.mp coded
    obtain ⟨batch, generated, coded⟩ := Outcome.bind_eq_ok.mp coded
    obtain ⟨vector, built, same⟩ := Outcome.bind_eq_ok.mp coded
    cases same
    obtain ⟨_, ids, listed, _⟩ := EncodingVector.Built.shape (.explicit built)
    have id : vector.codedId = self.nextCodedId := by
      obtain ⟨_, _, rest⟩ := Outcome.bind_eq_ok.mp built
      obtain ⟨_, _, same⟩ := Outcome.bind_eq_ok.mp rest
      cases same
      rfl
    have length := Outcome.length_mapM generated
    refine ⟨?_, id, coefs, .withGeneration _ (.explicit built), fun c member => ?_⟩
    · rw [← listed]
      refine EncodingVector.coefs_explicit (vector.withGeneration self.generation) ?_ ?_
      · show vector.coefficients ≠ []
        rw [listed, ← List.length_pos_iff, length]
        exact List.length_pos_iff.mpr nonempty
      · show vector.sourceIds.length = vector.coefficients.length
        rw [ids, listed, length]
    · obtain ⟨srcId, _, derived⟩ := Outcome.mem_of_mapM generated member
      have inCycle : self.nextCodedId.toNat < EncoderConfigBuilder.cauchyMax self.config.field := by
        have below := counts.2
        rwa [strategy] at below
      obtain ⟨other, same, inField, _⟩ := CoefGen.cauchyCoef_eq srcId self.nextCodedId self.generation inCycle
      cases derived.symm.trans same
      exact inField

variable [CongestionControl C]

theorem Codes.reads {config : EncoderConfig} {self after : Encoder W C F} {submitted : List Bytes}
    (sound : Sound config self submitted) {cover : List SourceSymbolId} {bytes : Bytes} (codes : self.Codes cover bytes after)
    (short : cover.length ≤ 255) (spaced : IdStorage.Spaced cover) :
    ∃ coefs packet, self.coefficientsFor cover self.nextCodedId self.generation = .ok (coefs, packet.ev) ∧
      self.computeCodedPayloadTargeted cover coefs = .ok packet.payload ∧ CodedPacket.parse bytes = .ok packet ∧
      packet.ev.field = config.field ∧ packet.ev.sourceIds = cover ∧ packet.ev.coefs = .ok coefs := by
  obtain ⟨coefs, ev, payload, coded, summed, serialised⟩ := codes.packet
  obtain ⟨same, counts⟩ := And.intro sound.configured sound.counts
  rw [← same] at counts ⊢
  obtain ⟨derived, id, listed, built, inField⟩ := coefficientsFor_built counts codes.nonempty coded
  have count : 1 ≤ cover.length ∧ cover.length ≤ 255 := ⟨List.length_pos_iff.mpr codes.nonempty, short⟩
  obtain ⟨vector, written, aligned, positive, few, spelled⟩ := built.spelled count spaced inField self.nextCodedId
  have fits : CciFits (CongestionControl.generateCci self.cc) := by
    obtain ⟨_, fits, _⟩ := Outcome.bind_eq_ok.mp serialised
    exact Outcome.require_eq_ok.mp fits
  obtain ⟨header, packed, _, parsed⟩ :=
    CodedPacket.parse_serialise fits none self.nextCodedId payload written aligned (by omega) few (spelled payload)
  cases serialised.symm.trans packed
  obtain ⟨field, ids, _⟩ := built.shape
  have here : ({ ev with codedId := self.nextCodedId } : EncodingVector) = ev := by rw [← id]
  rw [here] at parsed
  exact ⟨coefs, _, coded, summed, parsed, field, ids, derived⟩

theorem Codes.states {config : EncoderConfig} {self after : Encoder W C F} {submitted : List Bytes}
    (sound : Sound config self submitted) {cover : List SourceSymbolId} {bytes : Bytes} (codes : self.Codes cover bytes after)
    (short : cover.length ≤ 255) (spaced : IdStorage.Spaced cover) {x : SourceSymbolId → Bytes}
    (held : ∀ id ∈ cover, (x id).length = config.symbolSize ∧ ∀ data, self.window.get id = some data → data = x id) :
    StatesCover config x cover bytes := by
  obtain ⟨coefs, packet, _, summed, parsed, field, ids, derived⟩ := codes.reads sound short spaced
  have payload := payload_eq (by rwa [sound.configured]) summed
  rw [sound.configured] at payload
  exact ⟨packet, coefs, parsed, field, ids, derived, payload⟩

end Encoder
end Delp
