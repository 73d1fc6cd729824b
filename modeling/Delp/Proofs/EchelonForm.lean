import Delp.Proofs.Determined

/-! A matrix in reduced echelon form takes a consistent equation exactly: it stays in the form, has the same
solutions, and reports what they agree on. -/

namespace Delp.DecodingMatrix
open Machine Gf Elimination MatrixRow

variable {field : Config.Field} {size : ℕ}

/-- Each row has its first coefficient, a one, at its key, and another one after it. -/
structure Rows.Keyed (field : Config.Field) (rows : Rows) : Prop where
  monic : ∀ (pid : SourceSymbolId) row, rows[pid]? = some row → row.coef field pid = 1
  lowest : ∀ (pid : SourceSymbolId) row id, rows[pid]? = some row → id < pid → row.coef field id = 0
  several : ∀ (pid : SourceSymbolId) row, rows[pid]? = some row → ∃ id, id ≠ pid ∧ row.coef field id ≠ 0

structure Rows.Echelon (field : Config.Field) (size : ℕ) (rows : Rows) : Prop extends Rows.Keyed field rows where
  shaped : Rows.Shaped field size rows
  clear : ∀ (pid : SourceSymbolId) row other, rows[pid]? = some row → other ∈ rows → other ≠ pid → row.coef field other = 0

def Rows.Free (field : Config.Field) (rows : Rows) (ids : Set SourceSymbolId) : Prop :=
  ∀ (pid : SourceSymbolId) row id, rows[pid]? = some row → id ∈ ids → row.coef field id = 0

def Rows.equations (field : Config.Field) (rows : Rows) : Set (SymbolEquation field) :=
  {equation | ∃ (pid : SourceSymbolId) (row : MatrixRow), rows[pid]? = some row ∧ equation = row.equation field}

def symbolEquations (field : Config.Field) (symbols : List (SourceSymbolId × Bytes)) : Set (SymbolEquation field) :=
  {equation | ∃ symbol ∈ symbols, equation = symbolEquation field symbol.1 symbol.2}

/-- The equation between the symbols of some ids and a payload. -/
def codedEquation (field : Config.Field) (ids : List SourceSymbolId) (coefs payload : Bytes) : SymbolEquation field :=
  (EncodingVector.columns field (ids.zip coefs), symbol field payload)

namespace Rows.Echelon
variable {rows : Rows}

theorem reduced (echelon : rows.Echelon field size) : Reduced rows.keySet (rows.coefs field) := by
  refine ⟨fun pid key => ?_, fun pid key other column apart => ?_, fun pid => Rows.coefs_absent⟩
  · obtain ⟨row, stored⟩ := Rows.mem_keySet.mp key
    rw [Rows.coefs_of stored, echelon.monic pid row stored]
  · obtain ⟨row, stored⟩ := Rows.mem_keySet.mp key
    rw [Rows.coefs_of stored, echelon.clear pid row other stored column apart.symm]

theorem unsolved (echelon : rows.Echelon field size) : Rows.Unsolved field rows := by
  intro pid row id stored solves
  obtain ⟨other, apart, nonzero⟩ := echelon.several pid row stored
  by_cases here : pid = id
  · exact nonzero (solves.2 other (here ▸ apart))
  · exact one_ne_zero ((echelon.monic pid row stored).symm.trans (solves.2 pid here))

theorem solid (echelon : rows.Echelon field size) {valid : Submodule field.Elem (SymbolEquation field)}
    (sound : ∀ equation ∈ rows.equations field, equation ∈ valid) {found : Set SourceSymbolId} (free : rows.Free field found) :
    Solid field size valid (rows.space field found) rows found :=
  ⟨echelon.shaped, ⟨echelon.reduced, fun pid row stored => sound _ ⟨pid, row, stored, rfl⟩, le_rfl⟩, free⟩

theorem of_solid {valid : Submodule field.Elem (SymbolEquation field)}
    {target : Submodule field.Elem (SourceSymbolId → field.Elem)} {found : Set SourceSymbolId}
    (solid : Solid field size valid target rows found) (unsolved : Rows.Unsolved field rows)
    (lowest : ∀ (pid : SourceSymbolId) row id, rows[pid]? = some row → id < pid → row.coef field id = 0) :
    rows.Echelon field size := by
  refine ⟨⟨fun pid row stored => solid.system.monic stored, lowest, fun pid row stored => solid.several unsolved stored⟩,
    solid.shaped, fun pid row other stored key apart => ?_⟩
  rw [← Rows.coefs_of stored]
  exact solid.system.reduced.clear pid (Rows.mem_keySet.mpr ⟨row, stored⟩) other key apart.symm

end Rows.Echelon

/-- A system that has taken out exactly the symbols it determines: what it has reported besides the old ones is what its
solutions have come to agree on. -/
theorem Solid.reported_iff (positive : 0 < size) {equations : Set (SymbolEquation field)} {x : SourceSymbolId → Bytes}
    (satisfies : Satisfies size equations x) {target : Submodule field.Elem (SourceSymbolId → field.Elem)} {rows : Rows}
    {old : Set SourceSymbolId} {recovered : List (SourceSymbolId × Bytes)}
    (solid : Solid field size (Submodule.span field.Elem equations) target rows {k | k ∈ old ∨ k ∈ recovered.map (·.1)})
    (unsolved : Rows.Unsolved field rows) (covers : ∀ equation ∈ equations, equation.1 ∈ target)
    (gained : ∀ symbol ∈ recovered, symbol.1 ∉ old ∧ symbol.2.length = size ∧
      symbolEquation field symbol.1 symbol.2 ∈ Submodule.span field.Elem equations) (id : SourceSymbolId) (data : Bytes) :
    (id, data) ∈ recovered ↔ id ∉ old ∧ ∀ y, Satisfies size equations y → y id = data := by
  have agree {id : SourceSymbolId} {data : Bytes} (member : (id, data) ∈ recovered) (y : SourceSymbolId → Bytes)
      (holds : Satisfies size equations y) : y id = data := by
    obtain ⟨_, sized, inside⟩ := gained (id, data) member
    exact symbol_injective ((holds.sized id).trans sized.symm) (symbolEquation_mem_truths.mp (holds.of_span inside)).symm
  refine ⟨fun member => ⟨(gained (id, data) member).1, agree member⟩, fun ⟨fresh, determined⟩ => ?_⟩
  have inside := (determined_iff positive satisfies).mp fun y holds =>
    (determined y holds).trans (determined x satisfies).symm
  have found : id ∈ old ∨ id ∈ recovered.map (·.1) := by
    refine (solid.determines_iff unsolved id).mp (solid.system.covers (Submodule.span_le.mpr ?_ inside))
    rintro _ ⟨equation, member, rfl⟩
    exact covers equation member
  obtain ⟨⟨_, value⟩, member, rfl⟩ := List.mem_map.mp (found.resolve_left fresh)
  rwa [← determined x satisfies, agree member x satisfies]

section Coded

private theorem toList_of_mem {known : KnownSources} {id : SourceSymbolId} (found : id ∈ known) :
    ∃ data, (id, data) ∈ known.toList := by
  obtain ⟨data, stored⟩ := Option.isSome_iff_exists.mp (Std.TreeMap.mem_iff_isSome_getElem?.mp found)
  exact ⟨data, Std.TreeMap.mem_toList_iff_getElem?_eq_some.mpr stored⟩

variable {matrix : DecodingMatrix} {known : KnownSources} {ev : EncodingVector} {coefs payload : Bytes}

/-- An equation over distinct ids, with coefficients in the field. -/
structure Enters (field : Config.Field) (size : ℕ) (ev : EncodingVector) (coefs payload : Bytes) : Prop where
  derived : ev.coefs = .ok coefs
  distinct : ev.sourceIds.Nodup
  inField : ∀ c ∈ coefs, InField field c
  sized : payload.length = size

theorem Enters.read (enters : Enters field size ev coefs payload) :
    ∃ map, coefMap ev = .ok map ∧ (⟨.fromMap map, payload⟩ : MatrixRow).Shaped field size ∧
      (⟨.fromMap map, payload⟩ : MatrixRow).equation field = codedEquation field ev.sourceIds coefs payload ∧
      ∀ id, id ∈ map ↔ (codedEquation field ev.sourceIds coefs payload).1 id ≠ 0 := by
  obtain ⟨⟨map, read⟩, columns⟩ := coefMap_columns field enters.distinct enters.derived
  have fits (id : SourceSymbolId) (c : UInt8) (found : map[id]? = some c) : InField field c ∧ c ≠ 0 := by
    obtain ⟨i, listed, derived, nonzero⟩ := coefMap_lists read found
    have each := (Outcome.mapM_eq_ok.mp enters.derived)
    rw [List.forall₂_iff_get] at each
    have inside : i < ev.sourceIds.zipIdx.length := by
      rw [List.length_zipIdx]
      exact (List.getElem?_eq_some_iff.mp listed).1
    have value := each.2 i inside (each.1 ▸ inside)
    rw [List.get_eq_getElem, List.getElem_zipIdx, (List.getElem?_eq_some_iff.mp listed).2, zero_add] at value
    cases derived.symm.trans value
    exact ⟨enters.inField _ (List.getElem_mem _), nonzero⟩
  have equation : (⟨.fromMap map, payload⟩ : MatrixRow).equation field = codedEquation field ev.sourceIds coefs payload := by
    rw [MatrixRow.equation, coef_fromMap field read payload, columns]
    rfl
  refine ⟨map, read, ⟨DenseCoefs.fromMap_shaped fun id c found => (fits id c found).1, enters.sized⟩, equation, fun id => ?_⟩
  rw [← equation]
  change id ∈ map ↔ elem field ((DenseCoefs.fromMap map).get id) ≠ 0
  rw [DenseCoefs.get_fromMap, Std.TreeMap.mem_iff_isSome_getElem?]
  cases found : map[id]? with
  | none => simp [elem_zero]
  | some c => exact iff_of_true rfl (mt (elem_eq_zero (fits id c found).1).mp (fits id c found).2)

theorem bounded_of_below (below : ∀ id ∈ ev.sourceIds, id < 0xFFFFFFFF)
    {map : Std.TreeMap SourceSymbolId UInt8} (read : coefMap ev = .ok map) : (DenseCoefs.fromMap map).Bounded := by
  rw [DenseCoefs.fromMap_bounded_iff]
  intro member
  obtain ⟨c, found⟩ := Option.isSome_iff_exists.mp (Std.TreeMap.mem_iff_isSome_getElem?.mp member)
  obtain ⟨i, listed, _⟩ := coefMap_lists read found
  exact absurd (below _ (List.mem_of_getElem? listed)) (by decide)

theorem Enters.mem_truths (enters : Enters field size ev coefs payload) {x : SourceSymbolId → Bytes}
    (sized : ∀ id, (x id).length = size) (sum : payload = combine field size (coefs.zip (ev.sourceIds.map x))) :
    codedEquation field ev.sourceIds coefs payload ∈ truths field x := by
  have true_symbols (id : SourceSymbolId) (_ : id ∈ ev.sourceIds) : symbolEquation field id (x id) ∈ truths field x :=
    symbolEquation_mem_truths.mpr rfl
  have holds := equation_mem_of enters.distinct enters.derived (fun id _ => sized id) true_symbols
  rwa [(coefMap_columns field enters.distinct enters.derived).2, ← sum] at holds

theorem lowest_of_insert {rows cleared : Rows} (echelon : rows.Echelon field size) {pivot : SourceSymbolId} {normal : MatrixRow}
    (shaped : normal.Shaped field size) (leads : normal.coefs.pivotId = .ok (some pivot)) (monic : normal.coef field pivot = 1)
    (rewrites : Rewrites (Clears field size pivot (normal.equation field)) rows cleared)
    (pid : SourceSymbolId) (row : MatrixRow) (id : SourceSymbolId) (stored : (cleared.insert pivot normal)[pid]? = some row)
    (below : id < pid) : row.coef field id = 0 := by
  have first (before : SourceSymbolId) (earlier : before < pivot) : normal.coef field before = 0 := by
    have nonzero : normal.coefs.isZero = false := by
      rw [← Bool.not_eq_true, DenseCoefs.isZero_iff shaped.coefs]
      exact fun zeros => one_ne_zero (monic.symm.trans (shaped.get_eq_zero.mp (zeros pivot)))
    obtain ⟨found, c, leading⟩ := DenseCoefs.exists_pivot shaped.coefs nonzero
    cases leading.pivotId.symm.trans leads
    exact shaped.get_eq_zero.mp (leading.first before earlier)
  rw [OrderedKeys.getElem?_insert] at stored
  split at stored
  next here =>
    cases stored
    exact first id (here ▸ below)
  next apart =>
    obtain ⟨before, old, clears⟩ := rewrites.backward pid row stored
    rw [clears.coef_eq, echelon.lowest pid before id old below, zero_add, mul_eq_zero]
    by_cases touched : before.coef field pivot = 0
    · exact .inl touched
    · have later : ¬ pivot < pid := fun later => touched (echelon.lowest pid before pivot old later)
      rw [lt_iff] at later below
      exact .inr (first id ((lt_iff _ _).mpr (by omega)))

/-- The rows that are subtracted from an equation end below `u32::MAX`. -/
def SubtractsBounded (matrix : DecodingMatrix) (ev : EncodingVector) (coefs payload : Bytes) : Prop :=
  ∀ (pid : SourceSymbolId) row, matrix.rows[pid]? = some row →
    (codedEquation matrix.field ev.sourceIds coefs payload).1 pid ≠ 0 → row.coefs.Bounded

private theorem addCoded_keyed (echelon : Rows.Echelon matrix.field size matrix.rows)
    {valid : Submodule matrix.field.Elem (SymbolEquation matrix.field)}
    {target : Submodule matrix.field.Elem (SourceSymbolId → matrix.field.Elem)}
    (solid : Solid matrix.field size valid target matrix.rows {k | k ∈ known})
    (knownSized : ∀ symbol ∈ known.toList, symbol.2.length = size)
    (knownTrue : ∀ symbol ∈ known.toList, symbolEquation matrix.field symbol.1 symbol.2 ∈ valid)
    (enters : Enters matrix.field size ev coefs payload)
    (below : ∀ id ∈ ev.sourceIds, id < 0xFFFFFFFF)
    (inside : codedEquation matrix.field ev.sourceIds coefs payload ∈ valid) (room : matrix.rows.size < matrix.maxRows)
    (ends : SubtractsBounded matrix ev coefs payload) :
    ∃ rows recovered, matrix.addCoded ev payload known = .ok ({ matrix with rows }, recovered) ∧
      Solid matrix.field size valid
        (target ⊔ Submodule.span matrix.field.Elem {(codedEquation matrix.field ev.sourceIds coefs payload).1}) rows
        {k | k ∈ known ∨ k ∈ recovered.map (·.1)} ∧
      Rows.Echelon matrix.field size rows ∧ (recovered.map (·.1)).Nodup ∧
      ∀ symbol ∈ recovered, symbol.1 ∉ known ∧ symbol.2.length = size ∧
        symbolEquation matrix.field symbol.1 symbol.2 ∈ valid := by
  obtain ⟨map, read, shaped, equation, _⟩ := enters.read
  have row := coefs_of_equation equation
  rw [← equation] at inside
  rw [← row]
  rcases addCoded_cases rfl solid knownSized knownTrue read shaped inside le_rfl
    (fun pid existing stored touched => .inl (ends pid existing stored (row ▸ touched)))
    (fun _ _ _ eliminated normalizes _ _ _ _ =>
      .inl (normalizes.bounded.mpr (eliminated.bounded.mpr (bounded_of_below below read)))) with
    ⟨returned, covers⟩ | ⟨normal, pivot, cleared, left, recovered, brings, rewrites, _, joined, extracted, returned⟩
  · have nothing : {k | k ∈ known ∨ k ∈ ([] : List (SourceSymbolId × Bytes)).map (·.1)} = {k | k ∈ known} := by simp
    exact ⟨matrix.rows, [], returned, nothing ▸ ⟨solid.shaped, ⟨solid.system.reduced, solid.system.sound, covers⟩, solid.free⟩,
      echelon, .nil, by simp⟩
  · rw [enforceMaxRows_of_room (show cleared.size < _ from rewrites.size ▸ room)] at extracted
    obtain ⟨remains, unsolved, good⟩ := joined.extract extracted
    have own : (cleared.insert pivot normal)[pivot]? = some normal := Std.TreeMap.getElem?_insert_self
    refine ⟨left, recovered, returned, remains, .of_solid remains unsolved fun pid row id stored => ?_, extracted.once,
      fun symbol member => ⟨fun known => ?_, good symbol member⟩⟩
    · exact lowest_of_insert echelon (joined.shaped pivot normal own) brings.leads (joined.system.monic own) rewrites pid row
        id (extracted.of_left stored).1
    · obtain ⟨row, stored, solves⟩ := extracted.key_of (List.mem_map_of_mem member)
      exact solves.1 (joined.free symbol.1 row symbol.1 stored known)

def given (matrix : DecodingMatrix) (known : KnownSources) (ev : EncodingVector) (coefs payload : Bytes) :
    Set (SymbolEquation matrix.field) :=
  Rows.equations matrix.field matrix.rows ∪ symbolEquations matrix.field known.toList ∪
    {codedEquation matrix.field ev.sourceIds coefs payload}

/-- The call leaves the matrix in reduced echelon form with the same solutions, and returns once each symbol that they
have just come to agree on. -/
def AddsExactly (size : ℕ) (matrix : DecodingMatrix) (known : KnownSources) (ev : EncodingVector) (coefs payload : Bytes) :
    Prop :=
  ∃ rows recovered, matrix.addCoded ev payload known = .ok ({ matrix with rows }, recovered) ∧
    Rows.Echelon matrix.field size rows ∧
    Rows.Free matrix.field rows {id | id ∈ known ∨ id ∈ recovered.map (·.1)} ∧
    (∀ y, Satisfies size (Rows.equations matrix.field rows ∪ symbolEquations matrix.field known.toList ∪
        symbolEquations matrix.field recovered) y ↔ Satisfies size (given matrix known ev coefs payload) y) ∧
    (recovered.map (·.1)).Nodup ∧
    ∀ id data, (id, data) ∈ recovered ↔
      id ∉ known ∧ ∀ y, Satisfies size (given matrix known ev coefs payload) y → y id = data

/-- With room for a row, a consistent equation is added exactly if and only if the rows that are subtracted from it end
below `u32::MAX`. -/
theorem addCoded_exact_iff (positive : 0 < size) (echelon : Rows.Echelon matrix.field size matrix.rows)
    (free : Rows.Free matrix.field matrix.rows {id | id ∈ known})
    (knownSized : ∀ symbol ∈ known.toList, symbol.2.length = size)
    (enters : Enters matrix.field size ev coefs payload) (below : ∀ id ∈ ev.sourceIds, id < 0xFFFFFFFF)
    (consistent : ∃ x, Satisfies size (given matrix known ev coefs payload) x)
    (room : matrix.rows.size < matrix.maxRows) :
    AddsExactly size matrix known ev coefs payload ↔ SubtractsBounded matrix ev coefs payload := by
  obtain ⟨x, satisfies⟩ := consistent
  have follows {equation : SymbolEquation matrix.field} (member : equation ∈ given matrix known ev coefs payload) :
      equation ∈ Submodule.span matrix.field.Elem (given matrix known ev coefs payload) := Submodule.subset_span member
  have solid := echelon.solid (fun equation member => follows (.inl (.inl member))) free
  have knownTrue (symbol : SourceSymbolId × Bytes) (listed : symbol ∈ known.toList) :
      symbolEquation matrix.field symbol.1 symbol.2 ∈
        Submodule.span matrix.field.Elem (given matrix known ev coefs payload) :=
    follows (.inl (.inr ⟨symbol, listed, rfl⟩))
  constructor
  · rintro ⟨_, _, returned, _⟩ pid row stored touched
    obtain ⟨map, read, shaped, equation, _⟩ := enters.read
    rcases admits_of_addCoded solid knownSized knownTrue read shaped (equation ▸ follows (.inr rfl)) returned stored
      (by rwa [← equation] at touched) with bounded | ⟨_, unbounded⟩
    · exact bounded
    · exact absurd (bounded_of_below below read) unbounded
  intro bounded
  obtain ⟨rows, recovered, returned, solid, echelon, once, gained⟩ :=
    addCoded_keyed echelon solid knownSized knownTrue enters below (follows (.inr rfl)) room bounded
  have covers : ∀ equation ∈ given matrix known ev coefs payload, equation.1 ∈
      Rows.space matrix.field matrix.rows {k | k ∈ known} ⊔
        Submodule.span matrix.field.Elem {(codedEquation matrix.field ev.sourceIds coefs payload).1} := by
    rintro equation ((⟨pid, row, stored, rfl⟩ | ⟨symbol, listed, rfl⟩) | rfl)
    · refine Submodule.mem_sup_left ?_
      rw [show (row.equation matrix.field).1 = _ from (Rows.coefs_of stored).symm]
      exact row_mem (Rows.mem_keySet.mpr ⟨row, stored⟩)
    · exact Submodule.mem_sup_left (single_mem (mem_of_toList listed))
    · exact Submodule.mem_sup_right (Submodule.mem_span_singleton_self _)
  have spans : Rows.space matrix.field rows {k | k ∈ known ∨ k ∈ recovered.map (·.1)} ≤
      Submodule.span matrix.field.Elem (Prod.fst '' (Rows.equations matrix.field rows ∪
        symbolEquations matrix.field known.toList ∪ symbolEquations matrix.field recovered)) := by
    refine rowSpace_le (fun pid key => ?_) fun id found => ?_
    · obtain ⟨row, stored⟩ := Rows.mem_keySet.mp key
      rw [Rows.coefs_of stored]
      exact Submodule.subset_span ⟨_, .inl (.inl ⟨pid, row, stored, rfl⟩), rfl⟩
    · rcases found with found | found
      · obtain ⟨data, listed⟩ := toList_of_mem found
        exact Submodule.subset_span ⟨_, .inl (.inr ⟨(id, data), listed, rfl⟩), rfl⟩
      · obtain ⟨symbol, member, rfl⟩ := List.mem_map.mp found
        exact Submodule.subset_span ⟨_, .inr ⟨symbol, member, rfl⟩, rfl⟩
  refine ⟨rows, recovered, returned, echelon, solid.free, satisfies.iff_of_span ?_ fun equation member =>
    spans (solid.system.covers (covers equation member)), once, solid.reported_iff positive satisfies echelon.unsolved covers gained⟩
  rintro equation ((⟨pid, row, stored, rfl⟩ | member) | ⟨symbol, member, rfl⟩)
  · exact solid.system.sound pid row stored
  · exact follows (.inl (.inr member))
  · exact (gained symbol member).2.2

end Coded

section Examples

private theorem of_single {key pid : SourceSymbolId} {row other : MatrixRow}
    (stored : ((∅ : Rows).insert key row)[pid]? = some other) : pid = key ∧ other = row := by
  rw [OrderedKeys.getElem?_insert] at stored
  split at stored
  next here => exact ⟨here, (Option.some.inj stored).symm⟩
  next => simp at stored

theorem single_echelon {key : SourceSymbolId} {row : MatrixRow} (shaped : row.Shaped field size)
    (monic : row.coef field key = 1) (lowest : ∀ id < key, row.coef field id = 0)
    (several : ∃ id, id ≠ key ∧ row.coef field id ≠ 0) : Rows.Echelon field size ((∅ : Rows).insert key row) := by
  refine ⟨⟨?_, ?_, ?_⟩, ?_, ?_⟩
  · intro pid other stored
    obtain ⟨rfl, rfl⟩ := of_single stored
    exact monic
  · intro pid other id stored below
    obtain ⟨rfl, rfl⟩ := of_single stored
    exact lowest id below
  · intro pid other stored
    obtain ⟨rfl, rfl⟩ := of_single stored
    exact several
  · intro pid other stored
    obtain ⟨rfl, rfl⟩ := of_single stored
    exact shaped
  · intro pid other id stored key apart
    obtain ⟨rfl, rfl⟩ := of_single stored
    obtain ⟨another, again⟩ := Rows.mem_keySet.mp key
    exact absurd (of_single again).1 apart

theorem listed_enters (ids : List UInt32) (coefs payload : Bytes) (inField : coefs.all (· < 16) = true) (distinct : ids.Nodup)
    (derived : (Decoder.listed ids coefs payload).ev.coefs = .ok coefs) (sized : payload.length = 1) :
    Enters .gf2_4 1 (Decoder.listed ids coefs payload).ev coefs payload where
  derived := derived
  distinct := distinct
  inField c member := of_decide_eq_true (List.all_eq_true.mp inField c member)
  sized := sized

theorem below_of_all {ids : List SourceSymbolId} (all : ids.all (· < 0xFFFFFFFF) = true) : ∀ id ∈ ids, id < 0xFFFFFFFF :=
  fun id member => of_decide_eq_true (List.all_eq_true.mp all id member)

private theorem equation_of_listed {ids : List UInt32} {coefs payload : Bytes} {row : MatrixRow}
    (enters : Enters .gf2_4 1 (Decoder.listed ids coefs payload).ev coefs payload)
    (dense : (coefMap (Decoder.listed ids coefs payload).ev).passes
      (fun map => decide ((⟨.fromMap map, payload⟩ : MatrixRow) = row)) = true) :
    row.Shaped .gf2_4 1 ∧ row.equation .gf2_4 = codedEquation .gf2_4 ids coefs payload := by
  obtain ⟨map, read, shaped, equation, _⟩ := enters.read
  rw [read] at dense
  rw [of_decide_eq_true dense] at shaped equation
  exact ⟨shaped, equation⟩

/-- The row `x₀ + 2·x₁ = 2` over GF(2⁴). -/
def halfRow : MatrixRow := ⟨⟨0, [1, 2]⟩, [2]⟩

def halfway (maxRows : ℕ) : DecodingMatrix :=
  { rows := (∅ : Std.TreeMap SourceSymbolId MatrixRow).insert 0 halfRow, field := .gf2_4, maxRows }

/-- The equation `x₀ + x₁ = 1`. -/
def sum : CodedPacket := Decoder.listed [0, 1] [1, 1] [1]

theorem halfway_row {maxRows : ℕ} {pid : SourceSymbolId} {row : MatrixRow} (stored : (halfway maxRows).rows[pid]? = some row) :
    pid = 0 ∧ row = halfRow :=
  of_single stored

theorem halfRow_coef : halfRow.coef .gf2_4 0 = 1 ∧ halfRow.coef .gf2_4 1 ≠ 0 :=
  ⟨(elem_eq_one (show InField .gf2_4 1 by decide)).mpr rfl,
    mt (elem_eq_zero (show InField .gf2_4 2 by decide)).mp (by decide)⟩

private theorem halfRow_enters : Enters .gf2_4 1 (Decoder.listed [0, 1] [1, 2] [2]).ev [1, 2] [2] :=
  listed_enters [0, 1] [1, 2] [2] (by decide) (by decide) (by decide) rfl

private theorem halfRow_equation :
    halfRow.Shaped .gf2_4 1 ∧ halfRow.equation .gf2_4 = codedEquation .gf2_4 [0, 1] [1, 2] [2] :=
  equation_of_listed halfRow_enters (by decide +kernel)

theorem halfway_echelon (maxRows : ℕ) : Rows.Echelon .gf2_4 1 (halfway maxRows).rows :=
  single_echelon halfRow_equation.1 halfRow_coef.1 (fun _ below => absurd below UInt32.not_lt_zero)
    ⟨1, by decide, halfRow_coef.2⟩

theorem sum_enters : Enters .gf2_4 1 sum.ev [1, 1] [1] :=
  listed_enters [0, 1] [1, 1] [1] (by decide) (by decide) (by decide) rfl

theorem halfway_consistent (maxRows : ℕ) :
    Satisfies 1 (given (halfway maxRows) ∅ sum.ev [1, 1] [1]) Decoder.onlyFirst := by
  refine ⟨Decoder.onlyFirst_sized, ?_⟩
  rintro equation ((⟨pid, row, stored, rfl⟩ | ⟨symbol, listed, rfl⟩) | rfl)
  · obtain ⟨rfl, rfl⟩ := halfway_row stored
    exact halfRow_equation.2 ▸ halfRow_enters.mem_truths Decoder.onlyFirst_sized (by decide +kernel)
  · exact absurd listed List.not_mem_nil
  · exact sum_enters.mem_truths Decoder.onlyFirst_sized (by decide +kernel)

/-- The sum of two symbols of which the matrix has another combination gives both. -/
theorem addCoded_exact_iff_halfway : ∃ rows,
    (halfway 2).addCoded sum.ev [1] ∅ = .ok ({ halfway 2 with rows }, [(0, [0]), (1, [1])]) ∧
    Rows.Echelon .gf2_4 1 rows ∧ ∀ id data, (id, data) ∈ [((0 : SourceSymbolId), [(0 : UInt8)]), (1, [1])] ↔
      id ∉ (∅ : KnownSources) ∧ ∀ y, Satisfies 1 (given (halfway 2) ∅ sum.ev [1, 1] [1]) y → y id = data := by
  have bounded : SubtractsBounded (halfway 2) sum.ev [1, 1] [1] := by
    intro pid row stored _
    rw [(halfway_row stored).2]
    decide
  obtain ⟨rows, recovered, returned, echelon, _, _, _, exact⟩ := (@addCoded_exact_iff 1 (halfway 2) ∅ _ _ _ (by decide)
    (halfway_echelon 2) (fun _ _ _ _ known => by simp at known) (by simp) sum_enters (below_of_all (by decide))
    ⟨_, halfway_consistent 2⟩ (by decide)).mpr bounded
  have value : ((halfway 2).addCoded sum.ev [1] ∅).passes (fun result => decide (result.2 = [(0, [0]), (1, [1])])) = true := by
    decide +kernel
  rw [returned] at value
  cases of_decide_eq_true value
  exact ⟨rows, returned, echelon, exact⟩

/-- The equation `x₄₂₉₄₉₆₇₂₉₄ + x₄₂₉₄₉₆₇₂₉₅ = 0`, whose row ends at `u32::MAX`. -/
def lastRow : MatrixRow := ⟨⟨0xFFFFFFFE, [1, 1]⟩, [0]⟩

def lastRows : DecodingMatrix :=
  { rows := (∅ : Std.TreeMap SourceSymbolId MatrixRow).insert 0xFFFFFFFE lastRow, field := .gf2_4, maxRows := 2 }

private theorem lastRow_enters : Enters .gf2_4 1 (Decoder.listed [0xFFFFFFFE, 0xFFFFFFFF] [1, 1] [0]).ev [1, 1] [0] :=
  listed_enters [0xFFFFFFFE, 0xFFFFFFFF] [1, 1] [0] (by decide) (by decide) (by decide) rfl

private theorem lastRow_equation : lastRow.Shaped .gf2_4 1 ∧
    lastRow.equation .gf2_4 = codedEquation .gf2_4 [0xFFFFFFFE, 0xFFFFFFFF] [1, 1] [0] :=
  equation_of_listed lastRow_enters (by decide +kernel)

private theorem lastRows_echelon : Rows.Echelon .gf2_4 1 lastRows.rows := by
  refine single_echelon lastRow_equation.1 ((elem_eq_one (show InField .gf2_4 1 by decide)).mpr rfl) (fun id below => ?_)
    ⟨0xFFFFFFFF, by decide, mt (elem_eq_zero (show InField .gf2_4 1 by decide)).mp (by decide)⟩
  rw [coef, lastRow, DenseCoefs.get, if_pos below, elem_zero]

/-- An equation that mentions the key of a row ending at `u32::MAX` is not added. -/
theorem addCoded_exact_fails : ¬ ∀ (matrix : DecodingMatrix) (known : KnownSources) (ev : EncodingVector)
    (coefs payload : Bytes) size, 0 < size → Rows.Echelon matrix.field size matrix.rows →
    Rows.Free matrix.field matrix.rows {id | id ∈ known} → (∀ symbol ∈ known.toList, symbol.2.length = size) →
    Enters matrix.field size ev coefs payload → (∀ id ∈ ev.sourceIds, id < 0xFFFFFFFF) →
    (∃ x, Satisfies size (given matrix known ev coefs payload) x) → matrix.rows.size < matrix.maxRows →
    AddsExactly size matrix known ev coefs payload := by
  intro claim
  let next : CodedPacket := Decoder.listed [0xFFFFFFFD, 0xFFFFFFFE] [1, 1] [0]
  have enters : Enters .gf2_4 1 next.ev [1, 1] [0] :=
    listed_enters [0xFFFFFFFD, 0xFFFFFFFE] [1, 1] [0] (by decide) (by decide) (by decide) rfl
  have consistent : Satisfies 1 (given lastRows ∅ next.ev [1, 1] [0]) Decoder.onlyFirst := by
    refine ⟨Decoder.onlyFirst_sized, ?_⟩
    rintro equation ((⟨pid, row, stored, rfl⟩ | ⟨symbol, listed, rfl⟩) | rfl)
    · obtain ⟨rfl, rfl⟩ := of_single stored
      exact lastRow_equation.2 ▸ lastRow_enters.mem_truths Decoder.onlyFirst_sized (by decide +kernel)
    · exact absurd listed List.not_mem_nil
    · exact enters.mem_truths Decoder.onlyFirst_sized (by decide +kernel)
  obtain ⟨_, _, returned, _⟩ := claim lastRows ∅ next.ev [1, 1] [0] 1 (by decide) lastRows_echelon
    (fun _ _ _ _ known => by simp at known) (fun symbol listed => absurd listed List.not_mem_nil) enters (below_of_all (by decide))
    ⟨_, consistent⟩ (by decide)
  have panics : (lastRows.addCoded next.ev [0] ∅).passes (fun _ => true) = false := by decide +kernel
  rw [returned] at panics
  cases panics

end Examples

end Delp.DecodingMatrix
