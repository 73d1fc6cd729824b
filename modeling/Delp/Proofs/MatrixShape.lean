import Delp.Proofs.MatrixLoops

/-! The decoding matrix never panics on well-formed rows that end below `u32::MAX`: every operation returns,
keeps the rows so, and recovers symbols of the configured size below `u32::MAX`. -/

namespace Delp.DecodingMatrix
open Machine Gf Elimination MatrixRow

section Cascading
variable {field : Config.Field} {size : ℕ}

structure Cascade.Shaped (field : Config.Field) (size : ℕ) (state : Cascade) : Prop where
  rows : Rows.Shaped field size state.rows
  queue : ∀ symbol ∈ state.queue, symbol.2.length = size
  recovered : ∀ symbol ∈ state.recovered, symbol.2.length = size

/-- A condition on well-formed rows that every operation of the matrix keeps, with one on the ids that are substituted and
one on the ids that solved rows determine. -/
structure RowInvariant (field : Config.Field) (size : ℕ) where
  row : MatrixRow → Prop
  queued : SourceSymbolId → Prop
  found : SourceSymbolId → Prop
  substitutes : ∀ {old cleared : MatrixRow} {id : SourceSymbolId} {data : Bytes}, row old → queued id →
    Clears field size id (symbolEquation field id data) old cleared → row cleared
  eliminates : ∀ {old pivot cleared : MatrixRow} {column : SourceSymbolId}, row old → row pivot →
    Clears field size column (pivot.equation field) old cleared → row cleared
  normalizes : ∀ {old normal : MatrixRow} {pivot : SourceSymbolId}, row old → Normalizes field size old normal pivot → row normal
  solves : ∀ {solver : MatrixRow} {id : SourceSymbolId}, solver.Shaped field size → row solver → solver.Solves field id → found id
  queues : ∀ {id : SourceSymbolId}, found id → queued id

/-- Rows that end below `u32::MAX` determine ids below it, whatever is substituted. -/
def RowInvariant.bounded (field : Config.Field) (size : ℕ) : RowInvariant field size where
  row row := row.coefs.Bounded
  queued _ := True
  found id := id < 0xFFFFFFFF
  substitutes bounded _ clears := clears.bounded.mpr bounded
  eliminates bounded _ clears := clears.bounded.mpr bounded
  normalizes bounded normalizes := normalizes.bounded.mpr bounded
  solves shaped bounded solves := solves.lt_max shaped bounded
  queues _ := trivial

namespace RowInvariant

def OfRows (invariant : RowInvariant field size) (rows : Rows) : Prop :=
  ∀ (pid : SourceSymbolId) row, rows[pid]? = some row → invariant.row row

structure OfCascade (invariant : RowInvariant field size) (state : Cascade) : Prop where
  rows : invariant.OfRows state.rows
  queue : ∀ symbol ∈ state.queue, invariant.queued symbol.1
  recovered : ∀ symbol ∈ state.recovered, invariant.found symbol.1

end RowInvariant

theorem Rewrites.shaped {rows rewritten : Rows} {column : SourceSymbolId} {pivot : SymbolEquation field}
    (rewrites : Rewrites (Clears field size column pivot) rows rewritten) : Rows.Shaped field size rewritten := by
  intro pid row' found
  obtain ⟨_, _, clears⟩ := rewrites.backward pid row' found
  exact clears.shaped

theorem Rewrites.bounded {rows rewritten : Rows} {column : SourceSymbolId} {pivot : SymbolEquation field}
    (rewrites : Rewrites (Clears field size column pivot) rows rewritten) (bounded : rows.Bounded) : rewritten.Bounded := by
  intro pid row' found
  obtain ⟨row, stored, clears⟩ := rewrites.backward pid row' found
  exact clears.bounded.mpr (bounded pid row stored)

theorem Cascade.Turn.rows_of {state next : Cascade} {id : SourceSymbolId} {data : Bytes}
    {rest taken : List (SourceSymbolId × Bytes)} {rows : Rows} {solved : List SourceSymbolId}
    (turn : Turn field size state id data rest rows solved taken next) {pid : SourceSymbolId} {row : MatrixRow}
    (found : next.rows[pid]? = some row) : pid ∉ solved ∧ rows[pid]? = some row := by
  rw [turn.extracts.rows pid] at found
  split at found
  · cases found
  next absent => exact ⟨absent, found⟩

theorem Cascade.Shaped.turn {state next : Cascade} {id : SourceSymbolId} {data : Bytes}
    {rest taken : List (SourceSymbolId × Bytes)} {rows : Rows} {solved : List SourceSymbolId}
    (shaped : state.Shaped field size) (turn : Turn field size state id data rest rows solved taken next) :
    next.Shaped field size := by
  have rowsShaped : Rows.Shaped field size rows := turn.rewrites.shaped
  have good : ∀ symbol ∈ taken, symbol.2.length = size := by
    intro symbol member
    obtain ⟨listed, row, found, same⟩ := turn.extracts.stored symbol member
    rw [same, (rowsShaped _ row found).payload]
  refine ⟨fun pid row found => rowsShaped pid row (turn.rows_of found).2, fun symbol member => ?_, fun symbol member => ?_⟩
  · rw [turn.extracts.queue] at member
    rcases List.mem_append.mp member with member | member
    · exact shaped.queue symbol (turn.popped ▸ List.mem_cons_of_mem _ member)
    · exact good symbol (List.mem_of_mem_filter member)
  · rw [turn.extracts.recovered] at member
    rcases List.mem_append.mp member with member | member
    · exact shaped.recovered symbol member
    · exact good symbol member

theorem RowInvariant.OfCascade.turn {invariant : RowInvariant field size} {state next : Cascade} {id : SourceSymbolId} {data : Bytes}
    {rest taken : List (SourceSymbolId × Bytes)} {rows : Rows} {solved : List SourceSymbolId} (holds : invariant.OfCascade state)
    (turn : Cascade.Turn field size state id data rest rows solved taken next) : invariant.OfCascade next := by
  have popped : invariant.queued id := holds.queue (id, data) (turn.popped ▸ List.mem_cons_self)
  have rowsHold : invariant.OfRows rows := by
    intro pid cleared found
    obtain ⟨row, stored, clears⟩ := turn.rewrites.backward pid cleared found
    exact invariant.substitutes (holds.rows pid row stored) popped clears
  have good : ∀ symbol ∈ taken, invariant.found symbol.1 := by
    intro symbol member
    obtain ⟨pid, solver, lookup, solves⟩ := turn.sound symbol.1 (turn.extracts.stored symbol member).1
    exact invariant.solves (turn.rewrites.shaped pid solver lookup) (rowsHold pid solver lookup) solves
  refine ⟨fun pid row found => rowsHold pid row (turn.rows_of found).2, fun symbol member => ?_, fun symbol member => ?_⟩
  · rw [turn.extracts.queue] at member
    rcases List.mem_append.mp member with member | member
    · exact holds.queue symbol (turn.popped ▸ List.mem_cons_of_mem _ member)
    · exact invariant.queues (good symbol (List.mem_of_mem_filter member))
  · rw [turn.extracts.recovered] at member
    rcases List.mem_append.mp member with member | member
    · exact holds.recovered symbol member
    · exact good symbol member

theorem addKnownSource_keeps {matrix : DecodingMatrix} (invariant : RowInvariant matrix.field size)
    (shaped : Rows.Shaped matrix.field size matrix.rows) {data : Bytes} (sized : data.length = size) (id : SourceSymbolId)
    (known : KnownSources) :
    ∃ rows recovered, matrix.addKnownSource id data known = .ok ({ matrix with rows }, recovered) ∧
      Rows.Shaped matrix.field size rows ∧ rows.size ≤ matrix.rows.size ∧ (∀ symbol ∈ recovered, symbol.2.length = size) ∧
      (invariant.OfRows matrix.rows → invariant.queued id →
        invariant.OfRows rows ∧ ∀ symbol ∈ recovered, invariant.found symbol.1) := by
  obtain ⟨final, returned, ⟨kept, holds⟩, _, smaller⟩ := Cascade.run_rule
    (fun state => state.Shaped matrix.field size ∧
      (invariant.OfRows matrix.rows → invariant.queued id → invariant.OfCascade state))
    (fun state kept => ⟨kept.1.rows, kept.1.queue⟩)
    (fun _ _ _ _ _ _ _ _ kept turn => ⟨kept.1.turn turn, fun rows queued => (kept.2 rows queued).turn turn⟩)
    (matrix.rows.size + 2) { rows := matrix.rows, queue := [(id, data)], localKnown := known, recovered := [] }
    ⟨⟨shaped, by simpa using sized, by simp⟩, fun rows queued => ⟨rows, by simpa using queued, by simp⟩⟩
    (by simp only [List.length_singleton]; omega)
  exact ⟨final.rows, final.recovered, by rw [addKnownSource, returned]; rfl, kept.rows, smaller, kept.recovered,
    fun rows queued => ⟨(holds rows queued).rows, (holds rows queued).recovered⟩⟩

end Cascading

section Extracting
variable {size : ℕ}

theorem solvedPivots_eq {matrix : DecodingMatrix} (shaped : Rows.Shaped matrix.field size matrix.rows) :
    ∃ solved, matrix.solvedPivots = .ok solved ∧ ∀ pid, pid ∈ solved ↔
      ∃ row id, matrix.rows[pid]? = some row ∧ row.Solves matrix.field id := by
  have each : ∀ entry ∈ matrix.rows.toList, (do
      let solved ← entry.2.coefs.isSolved
      pure (entry.1, solved.isSome) : Result (SourceSymbolId × Bool)) =
        .ok (entry.1, entry.2.coefs.isSolved.passes Option.isSome) := by
    intro entry listed
    obtain ⟨found, returned, _⟩ := isSolved_eq (shaped _ _ (Std.TreeMap.mem_toList_iff_getElem?_eq_some.mp listed))
    rw [returned]
    rfl
  refine ⟨_, by rw [solvedPivots, Outcome.mapM_of each, Outcome.ok_bind, Outcome.pure_def], fun pid => ?_⟩
  have flagged {row : MatrixRow} (rowShaped : row.Shaped matrix.field size) :
      row.coefs.isSolved.passes Option.isSome = true ↔ ∃ id, row.Solves matrix.field id := by
    obtain ⟨found, returned, solves⟩ := isSolved_eq rowShaped
    rw [returned, Outcome.passes, Option.isSome_iff_exists]
    exact exists_congr solves
  simp only [List.mem_map, List.mem_filter, Prod.exists, Prod.mk.injEq]
  constructor
  · rintro ⟨_, _, ⟨⟨_, row, listed, rfl, rfl⟩, solved⟩, rfl⟩
    have found := Std.TreeMap.mem_toList_iff_getElem?_eq_some.mp listed
    obtain ⟨id, solves⟩ := (flagged (shaped _ _ found)).mp solved
    exact ⟨row, id, found, solves⟩
  · rintro ⟨row, id, found, solves⟩
    exact ⟨pid, _, ⟨⟨pid, row, Std.TreeMap.mem_toList_iff_getElem?_eq_some.mpr found, rfl, rfl⟩,
      (flagged (shaped _ _ found)).mpr ⟨id, solves⟩⟩, rfl⟩

namespace Extraction

structure Shaped (field : Config.Field) (maxRows size : ℕ) (state : Extraction) : Prop where
  sameField : state.matrix.field = field
  sameMax : state.matrix.maxRows = maxRows
  rows : Rows.Shaped field size state.matrix.rows
  recovered : ∀ symbol ∈ state.recovered, symbol.2.length = size

variable {field : Config.Field} {maxRows : ℕ}

theorem of_erase {rows : Rows} {pid other : SourceSymbolId} {row : MatrixRow} (found : (rows.erase pid)[other]? = some row) :
    rows[other]? = some row := by
  rw [OrderedKeys.getElem?_erase] at found
  split at found
  · cases found
  · exact found

theorem erase_size {rows : Rows} {pid : SourceSymbolId} {row : MatrixRow} (found : rows[pid]? = some row) :
    (rows.erase pid).size + 1 = rows.size := by
  have present : rows.contains pid = true := by
    rw [Std.TreeMap.contains_iff_mem, Std.TreeMap.mem_iff_isSome_getElem?, found]
    rfl
  have positive : rows.size ≠ 0 := by
    intro zero
    have empty : rows.isEmpty = true := by rw [Std.TreeMap.isEmpty_eq_size_eq_zero, zero]; rfl
    rw [Std.TreeMap.getElem?_of_isEmpty empty] at found
    cases found
  rw [Std.TreeMap.size_erase, if_pos present]
  omega

structure OfExtraction (invariant : RowInvariant field size) (state : Extraction) : Prop where
  rows : invariant.OfRows state.matrix.rows
  recovered : ∀ symbol ∈ state.recovered, invariant.found symbol.1

theorem take_keeps (invariant : RowInvariant field size) {state : Extraction} (shaped : state.Shaped field maxRows size)
    (pid : SourceSymbolId) :
    ∃ next, state.take pid = .ok next ∧ next.Shaped field maxRows size ∧
      (OfExtraction invariant state → OfExtraction invariant next) ∧ next.matrix.rows.size ≤ state.matrix.rows.size ∧
      (pid ∈ state.matrix.rows → next.matrix.rows.size < state.matrix.rows.size) := by
  obtain ⟨⟨rows, own, max⟩, extraKnown, recovered⟩ := state
  cases shaped.sameField
  unfold take
  dsimp only
  cases found : rows[pid]? with
  | none =>
    refine ⟨_, rfl, shaped, fun holds => holds, Nat.le_refl _, fun member => ?_⟩
    rw [Std.TreeMap.mem_iff_isSome_getElem?, found] at member
    cases member
  | some row =>
    have rowShaped := shaped.rows pid row found
    have erased : Rows.Shaped own size (rows.erase pid) := fun other row found => shaped.rows other row (of_erase found)
    have removed := erase_size found
    obtain ⟨result, scanned, solves⟩ := isSolved_eq rowShaped
    dsimp only
    rw [scanned, Outcome.ok_bind]
    cases result with
    | none =>
      exact ⟨_, rfl, ⟨rfl, shaped.sameMax, erased, shaped.recovered⟩,
        fun holds => ⟨fun other row found => holds.rows other row (of_erase found), holds.recovered⟩, by dsimp only; omega,
        fun _ => by dsimp only; omega⟩
    | some id =>
      obtain ⟨left, more, returned, leftShaped, smaller, sized, keeps⟩ := @addKnownSource_keeps
        size ⟨rows.erase pid, own, max⟩ invariant erased _ rowShaped.payload id (extraKnown.insert id row.payload)
      dsimp only at smaller
      dsimp only
      rw [returned, Outcome.ok_bind]
      refine ⟨_, rfl, ⟨rfl, shaped.sameMax, leftShaped, ?_⟩, fun holds => ?_, by dsimp only; omega, fun _ => by dsimp only; omega⟩
      · intro symbol member
        rcases List.mem_append.mp member with member | member
        · rcases List.mem_append.mp member with member | member
          · exact shaped.recovered symbol member
          · cases List.mem_singleton.mp member
            exact rowShaped.payload
        · exact sized symbol member
      · have determined := invariant.solves rowShaped (holds.rows pid row found) ((solves id).mp rfl)
        obtain ⟨leftHolds, good⟩ := keeps (fun other row found => holds.rows other row (of_erase found))
          (invariant.queues determined)
        refine ⟨leftHolds, fun symbol member => ?_⟩
        rcases List.mem_append.mp member with member | member
        · rcases List.mem_append.mp member with member | member
          · exact holds.recovered symbol member
          · cases List.mem_singleton.mp member
            exact determined
        · exact good symbol member

private theorem pass_keeps (invariant : RowInvariant field size) {state : Extraction} (shaped : state.Shaped field maxRows size)
    (solved : List SourceSymbolId) (present : ∀ pid ∈ solved, pid ∈ state.matrix.rows) :
    ∃ next, solved.foldlM take state = .ok next ∧ next.Shaped field maxRows size ∧
      (OfExtraction invariant state → OfExtraction invariant next) ∧
      (solved ≠ [] → next.matrix.rows.size < state.matrix.rows.size) := by
  obtain ⟨next, returned, kept, holds, smaller⟩ := Outcome.foldlM_returns take solved
    (fun visited current => current.Shaped field maxRows size ∧ (OfExtraction invariant state → OfExtraction invariant current) ∧
      if visited = [] then current = state else current.matrix.rows.size < state.matrix.rows.size)
    (by
      rintro visited pid rest current split ⟨kept, holds, progress⟩
      obtain ⟨next, taken, nextShaped, nextHolds, smaller, removed⟩ := take_keeps invariant kept pid
      refine ⟨next, taken, nextShaped, fun start => nextHolds (holds start), ?_⟩
      rw [if_neg (List.append_ne_nil_of_right_ne_nil _ (List.cons_ne_nil _ _))]
      by_cases first : visited = []
      · rw [if_pos first] at progress
        subst progress
        exact removed (present pid (split ▸ List.mem_append_right _ List.mem_cons_self))
      · rw [if_neg first] at progress
        omega)
    state ⟨shaped, fun start => start, by simp⟩
  exact ⟨next, returned, kept, holds, fun some => by rwa [if_neg some] at smaller⟩

theorem run_rule (invariant : Extraction → Prop) (shaped : ∀ state, invariant state → state.Shaped field maxRows size)
    (pass : ∀ state (solved : List SourceSymbolId) next, invariant state →
      (∀ pid, pid ∈ solved ↔ ∃ (row : MatrixRow) (id : SourceSymbolId),
        state.matrix.rows[pid]? = some row ∧ row.Solves field id) →
      solved.foldlM take state = .ok next → invariant next)
    (fuel : ℕ) (state : Extraction) (start : invariant state) (enough : state.matrix.rows.size < fuel) :
    ∃ final, state.run fuel = .ok final ∧ invariant final ∧
      ∀ (pid : SourceSymbolId) (row : MatrixRow) (id : SourceSymbolId),
        final.matrix.rows[pid]? = some row → ¬ row.Solves field id := by
  induction fuel generalizing state with
  | zero => omega
  | succ fuel ih =>
    have stateShaped := shaped state start
    obtain ⟨solved, scanned, listed⟩ := solvedPivots_eq
      (show Rows.Shaped state.matrix.field size state.matrix.rows by rw [stateShaped.sameField]; exact stateShaped.rows)
    rw [stateShaped.sameField] at listed
    unfold run
    rw [scanned, Outcome.ok_bind]
    split
    next empty =>
      refine ⟨state, rfl, start, fun pid row id found solves => ?_⟩
      have member := (listed pid).mpr ⟨row, id, found, solves⟩
      rw [List.isEmpty_iff.mp empty] at member
      cases member
    next some =>
      obtain ⟨next, passed, _, _, smaller⟩ := pass_keeps (.bounded field size) stateShaped solved (by
        intro pid member
        obtain ⟨row, _, found, _⟩ := (listed pid).mp member
        rw [Std.TreeMap.mem_iff_isSome_getElem?, found]
        rfl)
      have smaller := smaller (fun empty => some (by simp [empty]))
      rw [passed, Outcome.ok_bind]
      exact ih next (pass state solved next start listed passed) (by omega)

end Extraction
end Extracting

section AddCoded
variable {size : ℕ}

/-- What `add_coded` needs of the coefficients it derives: ids below `u32::MAX`, and elements of
the decoder's field. -/
structure CoefficientsFit (field : Config.Field) (map : Std.TreeMap SourceSymbolId UInt8) : Prop where
  below : ∀ id ∈ map, id < 0xFFFFFFFF
  inField : ∀ (id : SourceSymbolId) c, map[id]? = some c → InField field c

theorem enforceMaxRows_eq (matrix : DecodingMatrix) :
    matrix.enforceMaxRows = { matrix with rows := matrix.enforceMaxRows.rows } := by
  unfold enforceMaxRows
  split
  · split
    · rfl
    · rfl
  · rfl

/-- A full matrix loses the row with its smallest key. -/
theorem enforceMaxRows_rows (matrix : DecodingMatrix) (pid : SourceSymbolId) :
    matrix.enforceMaxRows.rows[pid]? =
      if matrix.maxRows ≤ matrix.rows.size ∧ matrix.rows.keys.head? = some pid then none else matrix.rows[pid]? := by
  unfold enforceMaxRows
  split
  next full =>
    split
    next oldest head =>
      rw [OrderedKeys.getElem?_erase, head]
      simp only [Option.some.injEq, show matrix.maxRows ≤ matrix.rows.size from full, true_and, eq_comm (a := oldest)]
    next head => rw [head, if_neg (by simp)]
  next room => rw [if_neg fun both => room both.1]

theorem enforceMaxRows_subset {matrix : DecodingMatrix} {pid : SourceSymbolId} {row : MatrixRow}
    (stored : matrix.enforceMaxRows.rows[pid]? = some row) : matrix.rows[pid]? = some row := by
  rw [enforceMaxRows_rows] at stored
  split at stored
  · cases stored
  · exact stored

theorem enforceMaxRows_of_room {matrix : DecodingMatrix} (room : matrix.rows.size < matrix.maxRows) :
    matrix.enforceMaxRows = matrix := by
  rw [enforceMaxRows, if_neg (Nat.not_le.mpr room)]

theorem forwardEliminate_zero (matrix : DecodingMatrix) {row : MatrixRow} (shaped : row.Shaped matrix.field size)
    (zero : row.coefs.isZero = true) : matrix.forwardEliminate row = .ok row := by
  obtain ⟨final, returned, same⟩ := Outcome.foldlM_returns matrix.eliminateWith matrix.rows.keys
    (fun _ current => current = row) (by
      rintro visited pid rest current split rfl
      exact ⟨current, by simp only [eliminateWith, (DenseCoefs.isZero_iff shaped.coefs).mp zero pid, if_true,
        Outcome.pure_def], rfl⟩)
    row rfl
  rw [forwardEliminate, returned, same]

/-- Adding an equation is reduction, and the insertion of what is left of the equation. -/
theorem addCoded_of_reduced {matrix : DecodingMatrix} {ev : EncodingVector} {payload : Bytes} {known : KnownSources}
    {row final : MatrixRow} (reduced : matrix.reducedRow ev payload known = .ok row)
    (shaped : row.Shaped matrix.field size) (eliminated : matrix.forwardEliminate row = .ok final) :
    matrix.addCoded ev payload known =
      if final.coefs.isZero then .ok (matrix, [])
      else final.normalize matrix.field >>= fun normal => matrix.insertReduced normal known := by
  rw [addCoded, reduced, Outcome.ok_bind]
  split
  next zero =>
    rw [matrix.forwardEliminate_zero shaped zero] at eliminated
    cases eliminated
    rw [if_pos zero]
    rfl
  next =>
    rw [eliminated, Outcome.ok_bind]
    rfl

theorem insertReduced_eq {matrix : DecodingMatrix} (shaped : Rows.Shaped matrix.field size matrix.rows)
    {normal : MatrixRow} (normalShaped : normal.Shaped matrix.field size) {pivot : SourceSymbolId}
    (leads : normal.coefs.pivotId = .ok (some pivot))
    (admits : ∀ (pid : SourceSymbolId) row, matrix.rows[pid]? = some row → row.coef matrix.field pivot ≠ 0 →
      row.coefs.Admits normal.coefs) (known : KnownSources) :
    ∃ cleared, matrix.backSubstitute pivot normal = .ok { matrix with rows := cleared } ∧
      Rewrites (Clears matrix.field size pivot (normal.equation matrix.field)) matrix.rows cleared ∧
      ∀ room, room = { matrix with rows := cleared }.enforceMaxRows.rows →
        matrix.insertReduced normal known =
          (Extraction.run ((room.insert pivot normal).size + 1)
            { matrix := { matrix with rows := room.insert pivot normal }, extraKnown := known, recovered := [] } >>=
            fun final => .ok (final.matrix, final.recovered)) := by
  obtain ⟨cleared, substituted, rewrites⟩ := backSubstitute_eq shaped normalShaped admits
  refine ⟨cleared, substituted, rewrites, ?_⟩
  rintro _ rfl
  rw [insertReduced, leads, Outcome.ok_bind]
  dsimp only
  rw [substituted, Outcome.ok_bind, enforceMaxRows_eq]
  rfl

theorem CoefficientsFit.bounded {field : Config.Field} {map : Std.TreeMap SourceSymbolId UInt8} (fits : CoefficientsFit field map) :
    (DenseCoefs.fromMap map).Bounded :=
  (DenseCoefs.fromMap_bounded_iff map).mpr fun member => absurd (fits.below _ member) (by decide)

/-- Adding an equation whose coefficients fit returns, and keeps what is kept of the rows. -/
theorem addCoded_keeps {matrix : DecodingMatrix} (invariant : RowInvariant matrix.field size)
    (shaped : Rows.Shaped matrix.field size matrix.rows) (bounded : Rows.Bounded matrix.rows) (holds : invariant.OfRows matrix.rows)
    {ev : EncodingVector} {map : Std.TreeMap SourceSymbolId UInt8} (read : coefMap ev = .ok map)
    (fits : CoefficientsFit matrix.field map) {payload : Bytes} (sized : payload.length = size)
    (start : invariant.row ⟨.fromMap map, payload⟩) {known : KnownSources}
    (knownSized : ∀ symbol ∈ known.toList, symbol.2.length = size) (queued : ∀ symbol ∈ known.toList, invariant.queued symbol.1) :
    ∃ rows recovered, matrix.addCoded ev payload known = .ok ({ matrix with rows }, recovered) ∧
      Rows.Shaped matrix.field size rows ∧ invariant.OfRows rows ∧
      ∀ symbol ∈ recovered, symbol.2.length = size ∧ invariant.found symbol.1 := by
  have startShaped : MatrixRow.Shaped matrix.field size ⟨.fromMap map, payload⟩ :=
    ⟨DenseCoefs.fromMap_shaped fits.inField, sized⟩
  obtain ⟨row, substituted, rowShaped, rowBounded, rowHolds⟩ := substituteKnown_rule knownSized
    (fun _ current => current.coefs.Bounded ∧ invariant.row current)
    (fun _ symbol _ _ _ split kept clears _ => ⟨clears.bounded.mpr kept.1,
      invariant.substitutes kept.2 (queued symbol (split ▸ List.mem_append_right _ List.mem_cons_self)) clears⟩)
    startShaped ⟨fits.bounded, start⟩
  obtain ⟨reduced, eliminated, reducedShaped, reducedBounded, reducedHolds⟩ := forwardEliminate_rule shaped
    (fun _ current => current.coefs.Bounded ∧ invariant.row current)
    (fun _ pid _ _ existing _ found _ _ => .inl (bounded pid existing found))
    (fun _ pid _ _ existing _ _ found kept clears => ⟨clears.bounded.mpr kept.1,
      invariant.eliminates kept.2 (holds pid existing found) clears⟩)
    rowShaped ⟨rowBounded, rowHolds⟩
  rw [addCoded_of_reduced (by rw [reducedRow, read, Outcome.ok_bind, substituted]) rowShaped eliminated]
  split
  · exact ⟨matrix.rows, [], rfl, shaped, holds, by simp⟩
  next nonzero =>
    obtain ⟨normal, pivot, normalized, normalizes⟩ := normalize_eq reducedShaped (Bool.eq_false_iff.mpr nonzero)
    have normalHolds := invariant.normalizes reducedHolds normalizes
    obtain ⟨cleared, _, rewrites, inserted⟩ := insertReduced_eq shaped normalizes.shaped normalizes.leads
      (fun _ _ _ _ => .inl (normalizes.bounded.mpr reducedBounded)) known
    have placed (pid : SourceSymbolId) (row : MatrixRow)
        (found : ({ matrix with rows := cleared }.enforceMaxRows.rows.insert pivot normal)[pid]? = some row) :
        row.Shaped matrix.field size ∧ invariant.row row := by
      rw [OrderedKeys.getElem?_insert] at found
      split at found
      · cases found
        exact ⟨normalizes.shaped, normalHolds⟩
      · obtain ⟨old, stored, clears⟩ := rewrites.backward pid row (enforceMaxRows_subset found)
        exact ⟨clears.shaped, invariant.eliminates (holds pid old stored) normalHolds clears⟩
    obtain ⟨final, ran, ⟨kept, still⟩, _⟩ := Extraction.run_rule
      (fun state => state.Shaped matrix.field matrix.maxRows size ∧ Extraction.OfExtraction invariant state) (fun _ kept => kept.1)
      (fun state solved next kept listed passed => by
        obtain ⟨other, again, otherShaped, otherHolds, _⟩ := Extraction.pass_keeps invariant kept.1 solved (by
          intro pid member
          obtain ⟨row, _, found, _⟩ := (listed pid).mp member
          rw [Std.TreeMap.mem_iff_isSome_getElem?, found]
          rfl)
        cases passed.symm.trans again
        exact ⟨otherShaped, otherHolds kept.2⟩)
      _ { matrix := { matrix with rows := { matrix with rows := cleared }.enforceMaxRows.rows.insert pivot normal },
          extraKnown := known, recovered := [] }
      ⟨⟨rfl, rfl, fun pid row found => (placed pid row found).1, by simp⟩,
        ⟨fun pid row found => (placed pid row found).2, by simp⟩⟩
      (Nat.lt_succ_self _)
    obtain ⟨⟨rows, _, _⟩, _, recovered⟩ := final
    cases kept.sameField
    cases kept.sameMax
    exact ⟨rows, recovered, by rw [normalized, Outcome.ok_bind, inserted _ rfl, ran, Outcome.ok_bind], kept.rows, still.rows,
      fun symbol member => ⟨kept.recovered symbol member, still.recovered symbol member⟩⟩

theorem addCoded_shaped {matrix : DecodingMatrix} (shaped : Rows.Shaped matrix.field size matrix.rows)
    (bounded : Rows.Bounded matrix.rows) {ev : EncodingVector} {map : Std.TreeMap SourceSymbolId UInt8}
    (read : coefMap ev = .ok map) (fits : CoefficientsFit matrix.field map) {payload : Bytes} (sized : payload.length = size)
    {known : KnownSources} (knownSized : ∀ symbol ∈ known.toList, symbol.2.length = size) :
    ∃ rows recovered, matrix.addCoded ev payload known = .ok ({ matrix with rows }, recovered) ∧
      Rows.Shaped matrix.field size rows ∧ Rows.Bounded rows ∧
      ∀ symbol ∈ recovered, symbol.2.length = size ∧ symbol.1 < 0xFFFFFFFF :=
  addCoded_keeps (.bounded _ _) shaped bounded bounded read fits sized fits.bounded knownSized fun _ _ => trivial

end AddCoded
end Delp.DecodingMatrix
