import Delp.Lib.CauchyMatrix
import Delp.Proofs.CodedEquations
import Delp.Proofs.WindowLookup
import Delp.Proofs.WindowPoints

/-! Successive coded packets of a Cauchy encoder over one window of consecutive ids. -/

namespace Delp
open Machine Config Gf

namespace CoefGen

theorem cauchyBatch_eq {field : Config.Field} (ids : List UInt32) {codedId : UInt32} (generation : UInt8)
    (inCycle : codedId.toNat < EncoderConfigBuilder.cauchyMax field) :
    ∃ coefs, cauchyBatch field ids codedId generation = .ok coefs ∧
      List.Forall₂ (fun id c => InField field c ∧ elem field c =
        (columnPoint field id.toNat - rowPoint field (rowOffset field codedId.toNat generation.toNat))⁻¹) ids coefs := by
  choose coef derived inField spells using fun id => @cauchyCoef_eq field id codedId generation inCycle
  refine ⟨ids.map coef, Outcome.mapM_of fun id _ => derived id, ?_⟩
  exact List.forall₂_map_right_iff.mpr (List.forall₂_same.mpr fun id _ => ⟨inField id, spells id⟩)

end CoefGen

namespace Encoder
variable {W C F : Type}

def nextCounters (field : Config.Field) (counters : ℕ × ℕ) : ℕ × ℕ :=
  if counters.1 + 1 = EncoderConfigBuilder.cauchyMax field then (0, (counters.2 + 1) % 256) else (counters.1 + 1, counters.2)

def counters (self : Encoder W C F) : ℕ × ℕ := (self.nextCodedId.toNat, self.generation.toNat)

/-- A packet over the window with a row of inverse distances to the row point of its counters. -/
structure SpellsRow (state : Encoder W C F) (counters : ℕ × ℕ) (packet : CodedPacket) : Prop where
  sourceIds : packet.ev.sourceIds = state.window.idSlice
  entries : List.Forall₂ (fun id c => InField state.config.field c ∧ elem state.config.field c =
    (CoefGen.columnPoint state.config.field id.toNat -
      CoefGen.rowPoint state.config.field (CoefGen.rowOffset state.config.field counters.1 counters.2))⁻¹)
    state.window.idSlice packet.ev.coefficients
  payload : packet.payload = combine state.config.field state.config.symbolSize
    (packet.ev.coefficients.zip (state.window.idSlice.map state.held))

/-- The packets that the next `n` calls of `generate_coded` send, as they are parsed. -/
def successive [CongestionControl C] (self : Encoder W C F) : ℕ → Result (List CodedPacket)
  | 0 => pure []
  | n + 1 => do
    match ← self.generateCoded with
    | (next, some (.coded bytes)) => do
      let packet ← CodedPacket.parse bytes
      let rest ← next.successive n
      pure (packet :: rest)
    | _ => pure []

theorem advanced_counters {config : EncoderConfig} {self : Encoder W C F} {submitted : List Bytes}
    (sound : Sound config self submitted) (strategy : config.matrixStrategy = .cauchy) :
    ∃ next, self.advanceCodedId = .ok next ∧ next.counters = nextCounters config.field self.counters := by
  obtain ⟨same, counts⟩ := And.intro sound.configured sound.counts
  rw [← same] at counts strategy ⊢
  obtain ⟨next, advanced, turned⟩ := advanceCodedId_eq counts
  refine ⟨next, advanced, ?_⟩
  rw [strategy] at turned
  split at turned
  next last =>
    refine Eq.trans ?_ (if_pos last).symm
    rw [counters, turned.1, turned.2 rfl, UInt8.toNat_add]
    rfl
  next inside =>
    refine Eq.trans ?_ (if_neg inside).symm
    rw [counters, turned.1, turned.2]
    rfl

variable [CongestionControl C] [LawfulCongestionControl C]

theorem Sound.generates {config : EncoderConfig} {self : Encoder W C F} {submitted : List Bytes}
    (sound : Sound config self submitted) (valid : config.Valid) (strategy : config.matrixStrategy = .cauchy)
    (consecutive : self.window.idSlice.IsChain fun a b => b.toNat = a.toNat + 1) (nonempty : self.window.symbols ≠ []) :
    ∃ after bytes packet, self.generateCoded = .ok (after, some (.coded bytes)) ∧ CodedPacket.parse bytes = .ok packet ∧
      self.SpellsRow self.counters packet ∧ Sound config after submitted ∧ after.window = self.window ∧
      after.counters = nextCounters config.field self.counters := by
  have idsNonempty : self.window.idSlice ≠ [] := by simpa [EncodingWindow.idSlice] using nonempty
  have inCycle : self.nextCodedId.toNat < EncoderConfigBuilder.cauchyMax self.config.field := by
    have below := sound.counts.2
    rwa [strategy, ← sound.configured] at below
  have few : self.window.idSlice.length ≤ 255 := by
    have room := valid.cauchy strategy
    have bound : EncoderConfigBuilder.cauchyMax config.field ≤ 255 := by cases config.field <;> decide
    have fits := sound.fits
    rw [EncodingWindow.idSlice, List.length_map]
    omega
  have spaced : IdStorage.Spaced self.window.idSlice := consecutive.imp fun a b next => ⟨by omega, by omega⟩
  obtain ⟨ks, tracks⟩ := sound.tracks
  have found (id : SourceSymbolId) (member : id ∈ self.window.idSlice) :
      ∃ data, self.window.get id = some data ∧ data.length = self.config.symbolSize := by
    obtain ⟨data, got, inside⟩ := tracks.get_held (ascending_of_consecutive consecutive) member
    rw [sound.configured]
    exact ⟨data, got, sound.sized_of_held inside⟩
  obtain ⟨next, advanced, counted⟩ := advanced_counters sound strategy
  have frame := advanceCodedId_frame advanced
  have config_eq : next.config = self.config := by rw [frame]
  have window_eq : next.window = self.window := by rw [frame]
  have cc_eq : next.cc = self.cc := by rw [frame]
  obtain ⟨coefs, generated, entries⟩ := CoefGen.cauchyBatch_eq self.window.idSlice self.generation inCycle
  have listed := entries.length_eq
  have inField (c : UInt8) (member : c ∈ coefs) : InField self.config.field c := by
    obtain ⟨j, inside, rfl⟩ := List.getElem_of_mem member
    exact ((List.forall₂_iff_get.mp entries).2 j (by omega) inside).1
  obtain ⟨format, chosen⟩ := IdStorage.bestFor_of spaced
  have built : EncodingVector.explicit self.config.field self.nextCodedId self.window.idSlice coefs =
      .ok ⟨self.config.field, self.nextCodedId, 0, format, self.window.idSlice, coefs⟩ := by
    rw [EncodingVector.explicit, Outcome.require_of listed, Outcome.ok_bind, chosen]
    rfl
  obtain ⟨payload, summed⟩ := payload_total coefs found
  obtain ⟨bytes, written, aligned, positive, short, spelled⟩ :=
    (EncodingVector.Built.withGeneration self.generation (.explicit built)).spelled
      ⟨List.length_pos_iff.mpr idsNonempty, few⟩ spaced inField self.nextCodedId
  obtain ⟨header, packed, _, parsed⟩ := CodedPacket.parse_serialise (LawfulCongestionControl.cciFits self.cc) none
    self.nextCodedId payload written aligned (by omega) short (spelled payload)
  have coded : self.coefficientsFor self.window.idSlice self.nextCodedId self.generation =
      .ok (coefs, ⟨self.config.field, self.nextCodedId, self.generation, format, self.window.idSlice, coefs⟩) := by
    have here : self.config.matrixStrategy = .cauchy := by rw [sound.configured, strategy]
    rw [coefficientsFor_cauchy here, Outcome.require_of ((lt_iff _ _).mpr (by rwa [codedIdCycle_cauchy here])),
      Outcome.ok_bind, generated, Outcome.ok_bind, built]
    rfl
  have called : self.generateCoded = self.generateCodedInner self.window.idSlice :=
    if_neg (by simpa [EncodingWindow.isEmpty] using nonempty)
  rw [generateCodedInner_of idsNonempty advanced coded summed packed] at called
  refine ⟨_, _, _, called, parsed, ⟨rfl, entries, ?_⟩, ?_, window_eq, counted⟩
  · refine payload_eq (fun id member => ?_) summed
    obtain ⟨data, got, sized⟩ := found id member
    rw [held, got]
    exact ⟨sized, fun other same => (Option.some.inj same).symm⟩
  · exact (sound.codes ⟨idsNonempty, ⟨coefs, _, payload, coded, summed, packed⟩, next, _, advanced, rfl⟩).1

omit [CongestionControl C] [LawfulCongestionControl C] in
theorem SpellsRow.transport {self other : Encoder W C F} {counters : ℕ × ℕ} {packet : CodedPacket}
    (spells : other.SpellsRow counters packet) (config : other.config = self.config) (window : other.window = self.window) :
    self.SpellsRow counters packet := by
  have held : other.held = self.held := by
    funext id
    rw [Encoder.held, Encoder.held, window]
  obtain ⟨ids, entries, payload⟩ := spells
  rw [config, window] at entries payload
  rw [window] at ids
  rw [held] at payload
  exact ⟨ids, entries, payload⟩

theorem Sound.succeeds {config : EncoderConfig} {self : Encoder W C F} {submitted : List Bytes}
    (sound : Sound config self submitted) (valid : config.Valid) (strategy : config.matrixStrategy = .cauchy)
    (consecutive : self.window.idSlice.IsChain fun a b => b.toNat = a.toNat + 1) (nonempty : self.window.symbols ≠ []) (n : ℕ) :
    ∃ packets, self.successive n = .ok packets ∧ packets.length = n ∧
      ∀ i packet, packets[i]? = some packet → self.SpellsRow ((nextCounters config.field)^[i] self.counters) packet := by
  induction n generalizing self with
  | zero => exact ⟨[], rfl, rfl, fun i packet impossible => by cases impossible⟩
  | succ n ih =>
    obtain ⟨after, bytes, packet, called, parsed, spells, afterSound, window, counted⟩ :=
      sound.generates valid strategy consecutive nonempty
    obtain ⟨rest, later, length, rows⟩ := ih afterSound (by rwa [window]) (by rwa [window])
    refine ⟨packet :: rest, ?_, by rw [List.length_cons, length], fun i other at_ => ?_⟩
    · rw [successive, called, Outcome.ok_bind]
      dsimp only
      rw [parsed, Outcome.ok_bind, later]
      rfl
    · cases i with
      | zero =>
        cases at_
        exact spells
      | succ i =>
        have row := rows i other at_
        rw [counted, ← Function.iterate_succ_apply] at row
        exact row.transport (afterSound.configured.trans sound.configured.symm) window

/-- How many rows may cross the end of a cycle. -/
def crossing : Config.Field → ℕ → ℕ
  | .gf2_8, _ => 121
  | .gf2_4, generation => if generation = 255 then 2 else 4

theorem iterate_nextCounters {field : Config.Field} {codedId generation i : ℕ}
    (inCycle : codedId < EncoderConfigBuilder.cauchyMax field) (few : i ≤ EncoderConfigBuilder.cauchyMax field) :
    (nextCounters field)^[i] (codedId, generation) =
      if codedId + i < EncoderConfigBuilder.cauchyMax field then (codedId + i, generation)
      else (codedId + i - EncoderConfigBuilder.cauchyMax field, (generation + 1) % 256) := by
  induction i with
  | zero => rw [if_pos (by omega)]; rfl
  | succ i ih =>
    rw [Function.iterate_succ_apply', ih (by omega)]
    by_cases before : codedId + i + 1 < EncoderConfigBuilder.cauchyMax field
    · rw [if_pos (by omega), if_pos (by omega), nextCounters, if_neg (by omega)]
      rfl
    · rw [if_neg (by omega : ¬ codedId + (i + 1) < _)]
      by_cases last : codedId + i < EncoderConfigBuilder.cauchyMax field
      · rw [if_pos last, nextCounters, if_pos (by omega)]
        exact Prod.ext (by dsimp only; omega) rfl
      · rw [if_neg last, nextCounters, if_neg (by omega)]
        exact Prod.ext (by dsimp only; omega) rfl

def offsetAfter (field : Config.Field) (counters : ℕ × ℕ) (i : ℕ) : ℕ :=
  CoefGen.rowOffset field ((nextCounters field)^[i] counters).1 ((nextCounters field)^[i] counters).2

theorem offsetAfter_eq {field : Config.Field} {codedId generation i : ℕ}
    (inCycle : codedId < EncoderConfigBuilder.cauchyMax field) (byte : generation < 256)
    (few : i ≤ EncoderConfigBuilder.cauchyMax field) :
    offsetAfter field (codedId, generation) i = (codedId + CoefGen.rotation field * generation + i +
      if codedId + i < EncoderConfigBuilder.cauchyMax field then 0
      else EncoderConfigBuilder.cauchyMax field - crossing field generation) % EncoderConfigBuilder.cauchyMax field := by
  rw [offsetAfter, iterate_nextCounters inCycle few]
  by_cases before : codedId + i < EncoderConfigBuilder.cauchyMax field
  · rw [if_pos before, if_pos before, CoefGen.rowOffset]
    dsimp only
    congr 1
    omega
  · rw [if_neg before, if_neg before, CoefGen.rowOffset]
    -- the generation is a byte
    rcases (Nat.lt_or_eq_of_le (Nat.le_of_lt_succ byte)) with next | rfl
    · rw [Nat.mod_eq_of_lt (Nat.succ_lt_succ next)]
      cases field <;> simp only [EncoderConfigBuilder.cauchyMax, CoefGen.rotation, crossing, if_neg (Nat.ne_of_lt next)] at * <;> omega
    · cases field <;> simp only [EncoderConfigBuilder.cauchyMax, CoefGen.rotation, crossing, if_pos] at * <;> omega

/-- The rows of successive counters have distinct points unless too many of them cross the end of a cycle. -/
theorem offsets_distinct_iff {field : Config.Field} {codedId generation n : ℕ}
    (inCycle : codedId < EncoderConfigBuilder.cauchyMax field) (byte : generation < 256)
    (few : n ≤ EncoderConfigBuilder.cauchyMax field) :
    (∀ i < n, ∀ j < n, offsetAfter field (codedId, generation) i = offsetAfter field (codedId, generation) j → i = j) ↔
      codedId + n ≤ EncoderConfigBuilder.cauchyMax field ∨ n ≤ crossing field generation := by
  have leap : 0 < crossing field generation ∧ crossing field generation < EncoderConfigBuilder.cauchyMax field := by
    cases field with
    | gf2_8 => exact ⟨(by decide : 0 < 121), (by decide : 121 < 128)⟩
    | gf2_4 =>
      simp only [crossing, EncoderConfigBuilder.cauchyMax]
      split <;> decide
  have offset (i : ℕ) (inside : i ≤ EncoderConfigBuilder.cauchyMax field) := offsetAfter_eq (i := i) inCycle byte inside
  generalize crossing field generation = most at *
  constructor
  · intro distinct
    by_contra many
    rw [not_or, not_le, not_le] at many
    -- the last row before the end whose point comes back
    have clash := distinct (EncoderConfigBuilder.cauchyMax field - most - codedId) (by omega)
      (EncoderConfigBuilder.cauchyMax field - most - codedId + most) (by omega)
    rw [offset _ (by omega), offset _ (by omega), if_pos (by omega), if_neg (by omega)] at clash
    refine absurd (clash ?_) (by omega)
    cases field <;> simp only [EncoderConfigBuilder.cauchyMax] at * <;> omega
  · intro room i below j below' same
    rw [offset _ (by omega), offset _ (by omega)] at same
    split at same <;> split at same <;> cases field <;> simp only [EncoderConfigBuilder.cauchyMax] at * <;> omega

omit [CongestionControl C] [LawfulCongestionControl C]

def coefMatrix (state : Encoder W C F) (packets : List CodedPacket) :
    Matrix (Fin state.window.idSlice.length) (Fin state.window.idSlice.length) state.config.field.Elem :=
  .of fun i j => elem state.config.field (((packets.map (·.ev.coefficients)).getD i []).getD j 0)

/-- What a Cauchy encoder promises of as many packets as its window holds symbols. -/
structure Guarantees (state : Encoder W C F) (packets : List CodedPacket) : Prop where
  nonsingular : (state.coefMatrix packets).det ≠ 0
  determined : ∀ x : SourceSymbolId → Bytes, (∀ id ∈ state.window.idSlice, (x id).length = state.config.symbolSize) →
    (∀ packet ∈ packets, packet.payload = combine state.config.field state.config.symbolSize
      (packet.ev.coefficients.zip (packet.ev.sourceIds.map x))) → ∀ s ∈ state.window.symbols, x s.id = s.data

theorem coefMatrix_row {state : Encoder W C F} {packets : List CodedPacket} {packet : CodedPacket}
    {i : Fin state.window.idSlice.length} (at_ : packets[i.val]? = some packet) (j : Fin state.window.idSlice.length) :
    state.coefMatrix packets i j = elem state.config.field (packet.ev.coefficients.getD j 0) := by
  have row : (packets.map (·.ev.coefficients)).getD i [] = packet.ev.coefficients := by
    rw [List.getD_eq_getElem?_getD, List.getElem?_map, at_]
    rfl
  rw [coefMatrix, Matrix.of_apply, row]

theorem coefMatrix_eq {state : Encoder W C F} {packets : List CodedPacket} {counters : ℕ → ℕ × ℕ}
    (length : packets.length = state.window.idSlice.length)
    (rows : ∀ i packet, packets[i]? = some packet → state.SpellsRow (counters i) packet) :
    state.coefMatrix packets = CauchyMatrix.cauchy
      (fun j => CoefGen.columnPoint state.config.field state.window.idSlice[j].toNat)
      (fun i => CoefGen.rowPoint state.config.field (CoefGen.rowOffset state.config.field (counters i).1 (counters i).2)) := by
  refine Matrix.ext fun i j => ?_
  have at_ : packets[i.val]? = some packets[i.val] := List.getElem?_eq_getElem (by rw [length]; exact i.isLt)
  have entries := (rows i _ at_).entries
  have here : j.val < packets[i.val].ev.coefficients.length := by rw [← entries.length_eq]; exact j.isLt
  rw [coefMatrix_row at_, CauchyMatrix.cauchy, Matrix.of_apply, List.getD_eq_getElem _ _ here]
  exact ((List.forall₂_iff_get.mp entries).2 j j.isLt here).2

theorem determined_of_det {config : EncoderConfig} {self : Encoder W C F} {submitted : List Bytes}
    (sound : Sound config self submitted) (consecutive : self.window.idSlice.IsChain fun a b => b.toNat = a.toNat + 1)
    {packets : List CodedPacket} {counters : ℕ → ℕ × ℕ} (length : packets.length = self.window.idSlice.length)
    (rows : ∀ i packet, packets[i]? = some packet → self.SpellsRow (counters i) packet)
    (nonsingular : (self.coefMatrix packets).det ≠ 0) : self.Guarantees packets := by
  refine ⟨nonsingular, fun x sized agrees s inside => ?_⟩
  have spaced : IdStorage.Spaced self.window.idSlice := consecutive.imp fun a b next => ⟨by omega, by omega⟩
  obtain ⟨ks, tracks⟩ := sound.tracks
  have heldSized (id : SourceSymbolId) (member : id ∈ self.window.idSlice) : (self.held id).length = self.config.symbolSize := by
    obtain ⟨data, got, inside⟩ := tracks.get_held (ascending_of_consecutive consecutive) member
    rw [held, got, sound.configured]
    exact sound.sized_of_held inside
  have lanes (lane : ℕ) : (fun j : Fin self.window.idSlice.length =>
      symbol self.config.field (x self.window.idSlice[j]) lane - symbol self.config.field (self.held self.window.idSlice[j]) lane) = 0 := by
    by_contra nonzero
    refine nonsingular (Matrix.exists_mulVec_eq_zero_iff.mp ⟨_, nonzero, funext fun i => ?_⟩)
    have below : i.val < packets.length := by rw [length]; exact i.isLt
    have at_ : packets[i.val]? = some packets[i.val] := List.getElem?_eq_getElem below
    have spells := rows i _ at_
    have same := (agrees _ (List.getElem_mem below)).symm.trans spells.payload
    have matched := spells.entries.length_eq.symm
    rw [spells.sourceIds] at same
    have sums := congrArg (fun bytes => symbol self.config.field bytes lane) same
    simp only [combine_lane matched sized, combine_lane matched heldSized] at sums
    simp only [Matrix.mulVec, dotProduct, coefMatrix_row at_, mul_sub, Finset.sum_sub_distrib, Pi.zero_apply]
    exact sub_eq_zero.mpr sums
  obtain ⟨j, below, here⟩ := List.getElem_of_mem (List.mem_map_of_mem (f := (·.id)) inside)
  have member : s.id ∈ self.window.idSlice := List.mem_map_of_mem inside
  have same : x s.id = self.held s.id := by
    have lane (lane : ℕ) : symbol self.config.field (x s.id) lane = symbol self.config.field (self.held s.id) lane := by
      have zero := congrFun (lanes lane) ⟨j, below⟩
      rw [← here]
      exact sub_eq_zero.mp zero
    exact symbol_injective ((sized _ member).trans (heldSized _ member).symm) (funext lane)
  obtain ⟨data, got, found⟩ := tracks.get_held (ascending_of_consecutive consecutive) member
  rw [same, held, got]
  exact congrArg WindowSymbol.data (List.inj_on_of_nodup_map spaced.nodup found inside rfl)

variable [CongestionControl C] [LawfulCongestionControl C] [WindowPolicy W] [FecRateController F]

/-- As many packets as a window of consecutive ids holds symbols determine them exactly if they
stay within the coded ids of one generation, or are few enough for the next one. -/
theorem successive_guaranteed_iff {config : EncoderConfig} (valid : config.Valid) (strategy : config.matrixStrategy = .cauchy)
    {windowPolicy : W} {cc : C} {fec : F}
    {calls : List (Call (Encoder W C F) EncoderAction (Except DelpError (List EncoderOutput)))} {self : Encoder W C F}
    (runs : Runs config windowPolicy cc fec calls self)
    (consecutive : self.window.idSlice.IsChain fun a b => b.toNat = a.toNat + 1) :
    ∃ packets, self.successive self.window.idSlice.length = .ok packets ∧ packets.length = self.window.idSlice.length ∧
      (∀ packet ∈ packets, packet.ev.sourceIds = self.window.idSlice) ∧
      (self.Guarantees packets ↔
        self.nextCodedId.toNat + self.window.idSlice.length ≤ EncoderConfigBuilder.cauchyMax config.field ∨
          self.window.idSlice.length ≤ crossing config.field self.generation.toNat) := by
  have sound := runs_sound runs
  obtain ⟨packets, sent, length, rows⟩ : ∃ packets, self.successive self.window.idSlice.length = .ok packets ∧
      packets.length = self.window.idSlice.length ∧ ∀ i packet, packets[i]? = some packet →
        self.SpellsRow ((nextCounters config.field)^[i] self.counters) packet := by
    by_cases empty : self.window.symbols = []
    · rw [EncodingWindow.idSlice, empty]
      exact ⟨[], rfl, rfl, fun i packet impossible => by cases impossible⟩
    · exact sound.succeeds valid strategy consecutive empty _
  have few : self.window.idSlice.length ≤ EncoderConfigBuilder.cauchyMax config.field := by
    rw [EncodingWindow.idSlice, List.length_map]
    exact sound.fits.trans (valid.cauchy strategy)
  have inCycle : self.nextCodedId.toNat < EncoderConfigBuilder.cauchyMax config.field := by
    have below := sound.counts.2
    rwa [strategy] at below
  refine ⟨packets, sent, length, fun packet member => ?_, ?_⟩
  · obtain ⟨i, below, here⟩ := List.getElem_of_mem member
    exact (rows i packet (by rw [List.getElem?_eq_getElem below, here])).sourceIds
  rw [← offsets_distinct_iff inCycle self.generation.toNat_lt few]
  have matrix := coefMatrix_eq length rows
  have point (i : ℕ) : CoefGen.rowOffset self.config.field ((nextCounters config.field)^[i] self.counters).1
      ((nextCounters config.field)^[i] self.counters).2 =
        offsetAfter config.field (self.nextCodedId.toNat, self.generation.toNat) i := by
    rw [sound.configured]
    rfl
  constructor
  · intro guaranteed i below j below' same
    by_contra differ
    refine guaranteed.nonsingular ?_
    rw [matrix]
    refine CauchyMatrix.det_eq_zero (i := ⟨i, below⟩) (j := ⟨j, below'⟩) (fun impossible => differ (Fin.mk.inj impossible)) ?_
    rw [point, point, same]
  · intro distinct
    refine determined_of_det sound consecutive length rows ?_
    rw [matrix]
    refine CauchyMatrix.det_ne_zero (fun i j same => ?_) (fun i j same => ?_) fun i j => ?_
    · have first := toNat_consecutive consecutive i i.isLt
      have second := toNat_consecutive consecutive j j.isLt
      have same := CoefGen.columnPoint_eq_iff.mp same
      rw [Fin.getElem_fin, Fin.getElem_fin, first, second, sound.configured] at same
      exact Fin.ext (Nat.ModEq.eq_of_lt_of_lt (Nat.ModEq.add_left_cancel' _ same) (i.isLt.trans_le few) (j.isLt.trans_le few))
    · rw [CoefGen.rowPoint_eq_iff (CoefGen.rowOffset_lt _ _ _) (CoefGen.rowOffset_lt _ _ _), point, point] at same
      exact Fin.ext (distinct i i.isLt j j.isLt same)
    · exact CoefGen.columnPoint_ne_rowPoint _ (CoefGen.rowOffset_lt _ _ _)

/-- Two packets across the end of the first cycle, over a window of two. -/
theorem successive_guaranteed_iff_two :
    ∃ (calls : List (Call (Encoder AllAckPolicy NoCongestionControl ConstantFecRate) EncoderAction _)) (final : _)
      (packets : List CodedPacket),
      Runs cauchyConfig {} {} ⟨0, 1, 0⟩ calls final ∧ final.counters = (6, 0) ∧ final.window.idSlice = [0, 1] ∧
        final.successive 2 = .ok packets ∧ final.Guarantees packets := by
  obtain ⟨calls, final, runs, check⟩ := Run.exists_of_check act
    (new cauchyConfig {} {} ⟨0, 1, 0⟩ : Encoder AllAckPolicy NoCongestionControl ConstantFecRate)
    [.submit [1], .submit [2], .coded, .coded, .coded, .coded, .coded, .coded]
    (fun result => decide (result.2.window.idSlice = [0, 1] ∧ result.2.counters = (6, 0))) (by decide +kernel)
  obtain ⟨ids, counted⟩ := of_decide_eq_true check
  have ids : final.window.idSlice = [0, 1] := ids
  obtain ⟨packets, sent, _, _, guaranteed⟩ := successive_guaranteed_iff
    ⟨by decide, by decide, by decide, by decide⟩ rfl runs (by rw [ids]; decide)
  have generation : final.generation.toNat = 0 := congrArg Prod.snd counted
  rw [ids] at sent guaranteed
  rw [generation] at guaranteed
  exact ⟨calls, final, packets, runs, counted, ids, sent, guaranteed.mpr (.inr (by decide))⟩

/-- Five packets over a window of five, with the fourth the first of a generation: the fifth has the
coefficients of the first. -/
theorem successive_guaranteed_fails :
    (⟨1, 7, .gf2_4, 0, 1, .reject, .cauchy⟩ : EncoderConfigBuilder).build = .ok cauchyConfig ∧
    ∃ (calls : List (Call (Encoder AllAckPolicy NoCongestionControl ConstantFecRate) EncoderAction _)) (final : _)
      (packets : List CodedPacket),
      Runs cauchyConfig {} {} ⟨0, 1, 0⟩ calls final ∧ final.window.idSlice = [0, 1, 2, 3, 4] ∧
        final.successive 5 = .ok packets ∧ (final.coefMatrix packets).det = 0 := by
  refine ⟨rfl, ?_⟩
  obtain ⟨calls, final, runs, check⟩ := Run.exists_of_check act
    (new cauchyConfig {} {} ⟨0, 1, 0⟩ : Encoder AllAckPolicy NoCongestionControl ConstantFecRate)
    [.submit [1], .submit [2], .submit [3], .submit [4], .submit [5], .coded, .coded, .coded]
    (fun result => decide (result.2.window.idSlice = [0, 1, 2, 3, 4]) && (result.2.successive 5).passes fun (packets : List CodedPacket) =>
      decide ((packets.map (·.ev.coefficients)).getD 0 [] = (packets.map (·.ev.coefficients)).getD 4 [])) (by decide +kernel)
  obtain ⟨ids, sent⟩ := Bool.and_eq_true_iff.mp check
  obtain ⟨packets, sent, same⟩ := Outcome.passes_iff.mp sent
  have ids : final.window.idSlice = [0, 1, 2, 3, 4] := of_decide_eq_true ids
  have length : final.window.idSlice.length = 5 := by rw [ids]; rfl
  refine ⟨calls, final, packets, runs, ids, sent, ?_⟩
  refine Matrix.det_zero_of_row_eq (show (⟨0, by omega⟩ : Fin _) ≠ ⟨4, by omega⟩ by simp) (funext fun k => ?_)
  rw [coefMatrix, Matrix.of_apply, Matrix.of_apply, of_decide_eq_true same]

end Encoder
end Delp
