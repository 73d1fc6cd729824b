import Delp.Proofs.DecoderShape

/-! Coded packets as equations: the row that the decoder builds is the sum of the packet's
coefficients, each at the column of its id. -/

namespace Delp
open Machine Gf Elimination

namespace CoefGen

theorem vandermondeCoef_inField {field : Config.Field} {srcId codedId : UInt32} {c : UInt8}
    (derived : vandermondeCoef field srcId codedId = .ok c) : InField field c := by
  cases field with
  | gf2_8 => trivial
  | gf2_4 =>
    obtain ⟨coef, _, same⟩ := Outcome.bind_eq_ok.mp derived
    cases same
    exact coef.low

end CoefGen

namespace EncodingVector

/-- The coefficients of a vector, in the order of its ids, as the decoder derives them. -/
def coefs (ev : EncodingVector) : Result Bytes :=
  ev.sourceIds.zipIdx.mapM fun (id, i) => DecodingMatrix.coefAt ev i id

def columns (field : Config.Field) (terms : List (SourceSymbolId × UInt8)) : SourceSymbolId → field.Elem :=
  (terms.map fun term => elem field term.2 • Pi.single term.1 1).sum

def row (field : Config.Field) (ev : EncodingVector) : SourceSymbolId → field.Elem :=
  match DecodingMatrix.coefMap ev with
  | .ok map => fun id => elem field (map[id]?.getD 0)
  | _ => 0

structure Regular (field : Config.Field) (ev : EncodingVector) : Prop where
  sameField : ev.field = field
  inField : ∀ c ∈ ev.coefficients, InField field c
  below : ∀ id ∈ ev.sourceIds, id < 0xFFFFFFFF

variable {field : Config.Field} {ev : EncodingVector}

theorem Regular.lists (regular : Regular field ev) {id : SourceSymbolId} {c : UInt8}
    (lists : DecodingMatrix.Lists ev id c) : id < 0xFFFFFFFF ∧ InField field c := by
  obtain ⟨i, listed, derived, _⟩ := lists
  refine ⟨regular.below id (List.mem_of_getElem? listed), ?_⟩
  unfold DecodingMatrix.coefAt at derived
  split at derived
  · exact regular.inField c (List.mem_of_getElem? (index_eq_ok.mp derived))
  · rw [← regular.sameField]
    exact CoefGen.vandermondeCoef_inField derived

theorem Regular.fits (regular : Regular field ev) {map : Std.TreeMap SourceSymbolId UInt8}
    (read : DecodingMatrix.coefMap ev = .ok map) : DecodingMatrix.CoefficientsFit field map where
  below id member := by
    obtain ⟨c, found⟩ := Option.isSome_iff_exists.mp (Std.TreeMap.mem_iff_isSome_getElem?.mp member)
    exact (regular.lists (DecodingMatrix.coefMap_lists read found)).1
  inField id c found := (regular.lists (DecodingMatrix.coefMap_lists read found)).2

end EncodingVector

namespace DecodingMatrix
open EncodingVector
variable {field : Config.Field} {ev : EncodingVector}

private def mapRow (field : Config.Field) (map : Std.TreeMap SourceSymbolId UInt8) : SourceSymbolId → field.Elem :=
  fun id => elem field (map[id]?.getD 0)

private theorem mapRow_insert {map : Std.TreeMap SourceSymbolId UInt8} {id : SourceSymbolId} (fresh : id ∉ map) (c : UInt8) :
    mapRow field (if c ≠ 0 then map.insert id c else map) = mapRow field map + elem field c • Pi.single id 1 := by
  funext other
  simp only [mapRow, Pi.add_apply, Pi.smul_apply, smul_eq_mul]
  by_cases here : other = id
  · subst here
    rw [Std.TreeMap.getElem?_eq_none fresh, Pi.single_eq_same, mul_one, Option.getD_none, elem_zero, zero_add]
    split
    next => rw [Std.TreeMap.getElem?_insert_self, Option.getD_some]
    next zero => rw [Std.TreeMap.getElem?_eq_none fresh, Option.getD_none, not_not.mp zero]
  · rw [Pi.single_eq_of_ne here, mul_zero, add_zero]
    split
    next => rw [Std.TreeMap.getElem?_insert, if_neg fun same => here (Std.LawfulEqCmp.eq_of_compare same).symm]
    next => rfl

private theorem fold_row (field : Config.Field) {items : List (SourceSymbolId × ℕ)} {coefs : Bytes}
    (derived : List.Forall₂ (fun item c => coefAt ev item.2 item.1 = .ok c) items coefs)
    (distinct : (items.map (·.1)).Nodup) (map : Std.TreeMap SourceSymbolId UInt8)
    (fresh : ∀ id ∈ items.map (·.1), id ∉ map) :
    ∃ final, items.foldlM (fun map (id, i) => do
        let c ← coefAt ev i id
        pure (if c ≠ 0 then map.insert id c else map)) map = .ok final ∧
      mapRow field final = mapRow field map + columns field ((items.map (·.1)).zip coefs) := by
  induction derived generalizing map with
  | nil => exact ⟨map, rfl, by simp [columns]⟩
  | @cons item c items coefs first rest ih =>
    rw [List.map_cons, List.nodup_cons] at distinct
    obtain ⟨final, returned, row⟩ := ih distinct.2 (if c ≠ 0 then map.insert item.1 c else map) (by
      intro id member present
      have missing := fresh id (List.mem_cons_of_mem _ member)
      split at present
      · rw [Std.TreeMap.mem_insert, Std.LawfulEqCmp.compare_eq_iff_eq] at present
        exact distinct.1 ((present.resolve_right missing) ▸ member)
      · exact missing present)
    refine ⟨final, by rw [Outcome.foldlM_cons]; dsimp only; rw [first, Outcome.ok_bind, Outcome.pure_def, Outcome.ok_bind, returned], ?_⟩
    rw [row, mapRow_insert (fresh item.1 List.mem_cons_self), add_assoc]
    rfl

theorem coef_fromMap (field : Config.Field) {map : Std.TreeMap SourceSymbolId UInt8} (read : coefMap ev = .ok map) (payload : Bytes) :
    (⟨.fromMap map, payload⟩ : MatrixRow).coef field = ev.row field := by
  funext id
  rw [MatrixRow.coef, DenseCoefs.get_fromMap, row, read]

theorem row_unlisted (field : Config.Field) {id : SourceSymbolId} (unlisted : id ∉ ev.sourceIds) : ev.row field id = 0 := by
  unfold row
  cases read : coefMap ev with
  | ok map =>
    dsimp only
    cases found : map[id]? with
    | none => exact elem_zero
    | some c =>
      obtain ⟨i, listed, _⟩ := coefMap_lists read found
      exact absurd (List.mem_of_getElem? listed) unlisted
  | err | panic => rfl

/-- Over distinct ids the row is the sum of the listed coefficients. -/
theorem coefMap_columns (field : Config.Field) (distinct : ev.sourceIds.Nodup) {coefs : Bytes} (derived : ev.coefs = .ok coefs) :
    (∃ map, coefMap ev = .ok map) ∧ ev.row field = columns field (ev.sourceIds.zip coefs) := by
  have same : ev.sourceIds.zipIdx.map (·.1) = ev.sourceIds := List.zipIdx_map_fst 0 ev.sourceIds
  obtain ⟨map, returned, sum⟩ := fold_row field (Outcome.mapM_eq_ok.mp derived) (same.symm ▸ distinct) ∅ (by simp)
  have read : coefMap ev = .ok map := returned
  have empty : mapRow field ∅ = 0 := by
    funext id
    simp [mapRow, elem_zero]
  rw [empty, zero_add, same] at sum
  refine ⟨⟨map, read⟩, ?_⟩
  rw [row, read, ← sum]
  rfl

end DecodingMatrix

section Statements
variable {field : Config.Field} {size : ℕ} {x : SourceSymbolId → Bytes}

structure CodedPacket.Acceptable (field : Config.Field) (size : ℕ) (packet : CodedPacket) : Prop where
  regular : packet.ev.Regular field
  read : ∃ map, DecodingMatrix.coefMap packet.ev = .ok map
  sized : packet.payload.length = size

/-- A coded packet over distinct ids whose payload is the combination of their symbols, with the
coefficients that the decoder derives. -/
structure CodedPacket.States (field : Config.Field) (size : ℕ) (x : SourceSymbolId → Bytes) (packet : CodedPacket) :
    Prop where
  regular : packet.ev.Regular field
  distinct : packet.ev.sourceIds.Nodup
  payload : ∃ coefs, packet.ev.coefs = .ok coefs ∧
    packet.payload = combine field size (coefs.zip (packet.ev.sourceIds.map x))

private theorem sum_equations (ids : List SourceSymbolId) (coefs : Bytes) :
    ((EncodingVector.columns field (ids.zip coefs),
      ((coefs.zip (ids.map x)).map fun term => elem field term.1 • symbol field term.2).sum) : SymbolEquation field) =
    ((ids.zip coefs).map fun term => elem field term.2 • symbolEquation field term.1 (x term.1)).sum := by
  induction ids generalizing coefs with
  | nil => simp [EncodingVector.columns]
  | cons id ids ih =>
    cases coefs with
    | nil => simp [EncodingVector.columns]
    | cons c coefs =>
      rw [List.zip_cons_cons, List.map_cons (l := ids.zip coefs), List.sum_cons, ← ih]
      rfl

theorem combine_symbols {ids : List SourceSymbolId} (sized : ∀ id ∈ ids, (x id).length = size) (coefs : Bytes) :
    (combine field size (coefs.zip (ids.map x))).length = size ∧
      symbol field (combine field size (coefs.zip (ids.map x))) =
        ((coefs.zip (ids.map x)).map fun term => elem field term.1 • symbol field term.2).sum := by
  refine symbol_combine fun term member => ?_
  obtain ⟨id, listed, same⟩ := List.mem_map.mp (List.of_mem_zip member).2
  rw [← same, sized id listed]

theorem CodedPacket.States.acceptable {packet : CodedPacket} (states : packet.States field size x)
    (sized : ∀ id, (x id).length = size) : packet.Acceptable field size := by
  obtain ⟨coefs, derived, payload⟩ := states.payload
  refine ⟨states.regular, (DecodingMatrix.coefMap_columns field states.distinct derived).1, ?_⟩
  rw [payload]
  exact (combine_symbols (fun id _ => sized id) coefs).1

theorem equation_mem_of {ev : EncodingVector} (distinct : ev.sourceIds.Nodup) {coefs : Bytes} (derived : ev.coefs = .ok coefs)
    (sized : ∀ id ∈ ev.sourceIds, (x id).length = size) {valid : Submodule field.Elem (SymbolEquation field)}
    (inside : ∀ id ∈ ev.sourceIds, symbolEquation field id (x id) ∈ valid) :
    ((ev.row field, symbol field (combine field size (coefs.zip (ev.sourceIds.map x)))) : SymbolEquation field) ∈ valid := by
  rw [(DecodingMatrix.coefMap_columns field distinct derived).2, (combine_symbols sized coefs).2, sum_equations]
  refine valid.list_sum_mem fun equation member => ?_
  obtain ⟨term, listed, same⟩ := List.mem_map.mp member
  rw [← same]
  exact valid.smul_mem _ (inside term.1 (List.of_mem_zip listed).1)

theorem CodedPacket.States.equation_mem {packet : CodedPacket} (states : packet.States field size x)
    (sized : ∀ id, (x id).length = size) {valid : Submodule field.Elem (SymbolEquation field)}
    (inside : ∀ id ∈ packet.ev.sourceIds, symbolEquation field id (x id) ∈ valid) :
    ((packet.ev.row field, symbol field packet.payload) : SymbolEquation field) ∈ valid := by
  obtain ⟨coefs, derived, payload⟩ := states.payload
  rw [payload]
  exact equation_mem_of states.distinct derived (fun id _ => sized id) inside

end Statements
end Delp
