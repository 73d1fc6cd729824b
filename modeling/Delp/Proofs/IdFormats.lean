import Delp.Proofs.IdRoundTrip

/-! Which ascending ids each storage format carries across: the edge formats store the runs of the
list, and the compressed formats store them and the gaps in 16 bits. -/

namespace Delp

namespace IdStorage
open Machine

def numbers (block : UInt32 × UInt32) : ℕ × ℕ := (block.1.toNat, block.2.toNat)

def runs (first : UInt32) (ids : List UInt32) : List (ℕ × ℕ) :=
  Runs.splitFrom first.toNat first.toNat (ids.map UInt32.toNat)

theorem expand_runs (first : UInt32) (ids : List UInt32) : Runs.expand (runs first ids) = (first :: ids).map UInt32.toNat := by
  rw [runs, Runs.expand_splitFrom (Nat.le_refl _), Nat.add_sub_cancel_left]
  rfl

section Blocks
variable {first : UInt32} {ids : List UInt32}

private theorem addU32_one (id : UInt32) :
    (id ≠ 4294967295 ∧ (addU32 id 1 : Result UInt32) = .ok (id + 1) ∧ (id + 1).toNat = id.toNat + 1) ∨
      id = 4294967295 ∧ (addU32 id 1 : Result UInt32) = .panic .overflow := by
  have bounded := toNat_lt id
  have same := eq_iff id 4294967295
  rw [show (4294967295 : UInt32).toNat = 4294967295 from rfl] at same
  by_cases fits : id.toNat + (1 : UInt32).toNat < 4294967296
  · refine .inl ⟨fun last => ?_, addU32_eq_ok.mpr ⟨fits, rfl⟩, toNat_add fits⟩
    rw [same.mp last] at fits
    exact absurd fits (by decide)
  · rw [UInt32.toNat_one] at fits
    exact .inr ⟨same.mpr (by omega), addU32_overflow (by rwa [UInt32.toNat_one])⟩

/-- The loop closes a block at every gap, and stops at `u32::MAX`, which has no end after it. -/
private theorem extendBlocks_splits (blocks : List (UInt32 × UInt32)) (start prev : UInt32) (ids : List UInt32) :
    let closing : Result (List (UInt32 × UInt32)) := do
      let state ← ids.foldlM extendBlocks (blocks, start, prev)
      let last ← addU32 state.2.2 1
      pure (state.1 ++ [(state.2.1, last)])
    (4294967295 ∉ prev :: ids ∧ ∃ closed, closing = .ok closed ∧
        closed.map numbers = blocks.map numbers ++ Runs.splitFrom start.toNat prev.toNat (ids.map UInt32.toNat)) ∨
      4294967295 ∈ prev :: ids ∧ closing = .panic .overflow := by
  dsimp only
  induction ids generalizing blocks start prev with
  | nil =>
    rw [List.foldlM_nil, Outcome.pure_def, Outcome.ok_bind, List.mem_singleton]
    rcases addU32_one prev with ⟨below, added, next⟩ | ⟨reached, overflow⟩
    · refine .inl ⟨below.symm, blocks ++ [(start, prev + 1)], by rw [added]; rfl, ?_⟩
      rw [List.map_append, List.map_singleton, numbers, next]
      rfl
    · exact .inr ⟨reached.symm, by rw [overflow]; rfl⟩
  | cons id ids ih =>
    rw [List.foldlM_cons, extendBlocks, List.map_cons, Runs.splitFrom, List.mem_cons]
    rcases addU32_one prev with ⟨below, added, next⟩ | ⟨reached, overflow⟩
    · rw [added, Outcome.ok_bind, or_iff_right below.symm]
      by_cases consecutive : id = prev + 1
      · have same : id.toNat = prev.toNat + 1 := by rw [consecutive, next]
        rw [if_neg (not_not_intro consecutive), if_pos same]
        exact ih blocks start id
      · have apart : id.toNat ≠ prev.toNat + 1 := by
          rw [← next]
          exact (eq_iff _ _).not.mp consecutive
        rw [if_pos consecutive, if_neg apart]
        have rest := ih (blocks ++ [(start, prev + 1)]) id id
        rw [List.map_append, List.append_assoc, List.map_singleton, numbers, next] at rest
        exact rest
    · exact .inr ⟨.inl reached.symm, by rw [overflow]; rfl⟩

theorem toBlocks_eq (first : UInt32) (ids : List UInt32) :
    (4294967295 ∉ first :: ids ∧ ∃ blocks, toBlocks (first :: ids) = .ok blocks ∧ blocks.map numbers = runs first ids) ∨
      4294967295 ∈ first :: ids ∧ toBlocks (first :: ids) = .panic .overflow :=
  extendBlocks_splits [] first first ids

theorem of_mem_runs {run : ℕ × ℕ} (member : run ∈ runs first ids) :
    run.1 ∈ (first :: ids).map UInt32.toNat ∧ run.1 < run.2 :=
  Runs.of_mem_splitFrom (Nat.le_refl _) member

theorem first_le (ascending : (first :: ids).IsChain fun a b => a.toNat < b.toNat) {id : UInt32} (member : id ∈ first :: ids) :
    first ≤ id := by
  have pairs : ((first :: ids).map UInt32.toNat).Pairwise (· < ·) :=
    List.isChain_iff_pairwise.mp ((List.isChain_map _).mpr ascending)
  rcases List.mem_cons.mp member with rfl | later
  · exact UInt32.le_refl _
  · exact (le_iff _ _).mpr ((List.pairwise_cons.mp pairs).1 _ (List.mem_map_of_mem later)).le

theorem runs_ordered (ascending : (first :: ids).IsChain fun a b => a.toNat < b.toNat) :
    Runs.Ordered first.toNat (runs first ids) := by
  apply Runs.splitFrom_ordered (Nat.le_refl _) (Nat.le_refl _)
  exact (List.isChain_map UInt32.toNat).mpr ascending

theorem runs_bounded (bounded : 4294967295 ∉ first :: ids)
    {run : ℕ × ℕ} (member : run ∈ runs first ids) : run.1 < 4294967296 ∧ run.2 < 4294967296 := by
  rcases toBlocks_eq first ids with ⟨_, blocks, _, same⟩ | ⟨reached, _⟩
  · rw [← same] at member
    obtain ⟨block, _, rfl⟩ := List.mem_map.mp member
    exact ⟨toNat_lt _, toNat_lt _⟩
  · exact absurd reached bounded

theorem gather_runs (ascending : (first :: ids).IsChain fun a b => a.toNat < b.toNat) :
    Runs.gather (ids.length + 1) [] (runs first ids) = some ((first :: ids).map UInt32.toNat, (runs first ids).length) := by
  rw [Runs.gather_all fun run member => ((runs_ordered ascending).of_mem member).2]
  · rw [List.nil_append, expand_runs]
  · rw [List.nil_append, expand_runs, List.length_map, List.length_cons]

end Blocks

section UncompressedEdges
variable {first : UInt32} {ids : List UInt32}

def edgeBytes (base : UInt32) (blocks : List (UInt32 × UInt32)) : Bytes :=
  blocks.flatMap fun block => toBeBytes (block.1 - base) ++ toBeBytes (block.2 - base)

private theorem write_edges {base : UInt32} {blocks : List (UInt32 × UInt32)} (above : ∀ block ∈ blocks, base ≤ block.1 ∧ base ≤ block.2)
    (out : Bytes) :
    (blocks.foldlM (fun out block => do
      let start ← subU32 block.1 base
      let last ← subU32 block.2 base
      pure (out ++ toBeBytes start ++ toBeBytes last)) out : Result Bytes) = .ok (out ++ edgeBytes base blocks) := by
  induction blocks generalizing out with
  | nil => simp [edgeBytes]
  | cons block blocks ih =>
    obtain ⟨low, high⟩ := above block List.mem_cons_self
    rw [List.foldlM_cons, subU32_eq_ok.mpr ⟨low, rfl⟩, Outcome.ok_bind, subU32_eq_ok.mpr ⟨high, rfl⟩, Outcome.ok_bind,
      Outcome.pure_def, Outcome.ok_bind, ih fun other member => above other (List.mem_cons_of_mem _ member), edgeBytes, edgeBytes,
      List.flatMap_cons]
    simp only [List.append_assoc]

theorem edgeBlocks_cons (start last : UInt32) (rest : Bytes) :
    edgeBlocks (toBeBytes start ++ toBeBytes last ++ rest) = (start.toNat, last.toNat) :: edgeBlocks rest := by
  have length : (toBeBytes start ++ toBeBytes last ++ rest).length / 8 = rest.length / 8 + 1 := by
    rw [List.length_append, List.length_append, length_toBeBytes, length_toBeBytes]
    omega
  rw [edgeBlocks, length, List.range_succ_eq_map, List.map_cons, List.map_map]
  -- behind the first eight bytes the positions are those of the rest
  congr 1
  rw [List.append_assoc, Nat.mul_zero, List.drop_zero, fromBeBytes_toBeBytes, List.drop_left' (length_toBeBytes _),
    fromBeBytes_toBeBytes]

theorem length_edgeBytes (base : UInt32) (blocks : List (UInt32 × UInt32)) : (edgeBytes base blocks).length = 8 * blocks.length := by
  induction blocks with
  | nil => rfl
  | cons block blocks ih =>
    rw [edgeBytes, List.flatMap_cons, List.length_append, ← edgeBytes, ih, List.length_cons, Nat.mul_succ, Nat.add_comm]
    rfl

theorem edgeRuns_edgeBytes {base : UInt32} {blocks : List (UInt32 × UInt32)}
    (above : ∀ block ∈ blocks, base ≤ block.1 ∧ base ≤ block.2) :
    edgeRuns base.toNat (edgeBlocks (edgeBytes base blocks)) = blocks.map numbers := by
  induction blocks with
  | nil => simp [edgeBytes, edgeBlocks, edgeRuns]
  | cons block blocks ih =>
    obtain ⟨low, high⟩ := above block List.mem_cons_self
    rw [edgeBytes, List.flatMap_cons, ← edgeBytes, edgeBlocks_cons, edgeRuns, List.map_cons, toNat_sub low, toNat_sub high,
      Nat.add_sub_cancel' ((le_iff _ _).mp low), Nat.add_sub_cancel' ((le_iff _ _).mp high), List.map_cons]
    exact congrArg _ (ih fun other member => above other (List.mem_cons_of_mem _ member))

theorem encodeUncompressedEdges_spelled (lowest : ∀ id ∈ first :: ids, first ≤ id) (bounded : 4294967295 ∉ first :: ids) :
    ∃ bits, encodeUncompressedEdges (first :: ids) = .ok bits ∧ bits.length = 8 * (runs first ids).length ∧
      edgeRuns first.toNat (edgeBlocks bits) = runs first ids := by
  rcases toBlocks_eq first ids with ⟨_, blocks, split, same⟩ | ⟨reached, _⟩
  swap
  · exact absurd reached bounded
  have above (block : UInt32 × UInt32) (member : block ∈ blocks) : first ≤ block.1 ∧ first ≤ block.2 := by
    obtain ⟨starts, nonempty⟩ := of_mem_runs (same ▸ List.mem_map_of_mem (f := numbers) member)
    obtain ⟨id, listed, start⟩ := List.mem_map.mp starts
    have low := (le_iff _ _).mp (lowest id listed)
    dsimp only [numbers] at nonempty start
    rw [le_iff, le_iff]
    omega
  refine ⟨edgeBytes first blocks, ?_, ?_, ?_⟩
  · rw [encodeUncompressedEdges, split, Outcome.ok_bind, show (index (first :: ids) 0 : Result UInt32) = .ok first from rfl,
      Outcome.ok_bind, write_edges above, List.nil_append]
  · rw [length_edgeBytes, ← same, List.length_map]
  · rw [edgeRuns_edgeBytes above, same]

theorem edgesFit_of {first nbIds count : ℕ} {blocks : List (ℕ × ℕ)}
    (bounded : ∀ run ∈ edgeRuns first blocks, run.1 < 4294967296 ∧ run.2 < 4294967296) : EdgesFit first nbIds count blocks := by
  induction blocks generalizing count with
  | nil => trivial
  | cons block blocks ih =>
    obtain ⟨low, high⟩ := bounded _ List.mem_cons_self
    exact fun _ => ⟨low, high, ih fun run member => bounded run (List.mem_cons_of_mem _ member)⟩

end UncompressedEdges

section CompressedEdges
variable {first : UInt32} {ids : List UInt32}

def low (step : ℕ × ℕ) : ℕ × ℕ := (step.1 % 2 ^ 16, step.2 % 2 ^ 16)

/-- The words of steps: each gap, and the length behind it. -/
def stepWords (moves : List (ℕ × ℕ)) : List ℕ := moves.flatMap fun step => [step.1, step.2]

theorem length_stepWords (moves : List (ℕ × ℕ)) : (stepWords moves).length = 2 * moves.length := by
  induction moves with
  | nil => rfl
  | cons step moves ih =>
    change (stepWords moves).length + 1 + 1 = 2 * (moves.length + 1)
    omega

theorem getElem_stepWords {moves : List (ℕ × ℕ)} {k : ℕ} (inside : k < moves.length) :
    (stepWords moves)[2 * k]? = some moves[k].1 ∧ (stepWords moves)[2 * k + 1]? = some moves[k].2 := by
  induction moves generalizing k with
  | nil => cases inside
  | cons step moves ih =>
    cases k with
    | zero => exact ⟨rfl, rfl⟩
    | succ k => exact ih (Nat.lt_of_succ_lt_succ inside)

theorem runBlocks_spelled {bits : Bytes} {moves : List (ℕ × ℕ)} (length : bits.length = 4 * moves.length)
    (spelled : Bits.ofBytes bits = (stepWords moves).flatMap (Bits.ofNat 16)) : runBlocks bits = moves.map low := by
  have count : bits.length / 4 = moves.length := by omega
  rw [runBlocks, count]
  apply List.ext_getElem (by rw [List.length_map, List.length_map, List.length_range])
  intro k _ inside
  rw [List.length_map] at inside
  have words := length_stepWords moves
  obtain ⟨gap, size⟩ := getElem_stepWords inside
  have word (j : ℕ) (below : j < (stepWords moves).length) : Bits.word bits j = (stepWords moves)[j] % 2 ^ 16 :=
    Bits.word_spelled (spelled.trans (List.append_nil _).symm) below
  rw [List.getElem_map, List.getElem_map, List.getElem_range, low, word _ (by omega), word _ (by omega),
    (List.getElem_of_getElem? gap).2, (List.getElem_of_getElem? size).2]

private theorem write_runs (base prev : UInt32) {blocks : List (UInt32 × UInt32)} (writer : BitWriter)
    (within : writer.bitPos.toNat < 8) (reached : ℕ) (starts : reached = base.toNat + prev.toNat)
    (ordered : Runs.Ordered reached (blocks.map numbers)) :
    ∃ final last, (blocks.foldlM (fun (state : BitWriter × UInt32) block => do
      let offset ← subU32 block.1 base
      let dStart ← subU32 offset state.2
      let dLen ← subU32 block.2 block.1
      let last ← subU32 block.2 base
      pure ((state.1.writeBits dStart 16).writeBits dLen 16, last)) (writer, prev) : Result (BitWriter × UInt32)) =
        .ok (final, last) ∧ final.bitPos.toNat < 8 ∧
      final.written = writer.written ++ (stepWords (Runs.steps reached (blocks.map numbers))).flatMap (Bits.ofNat 16) := by
  induction blocks generalizing prev writer reached with
  | nil => exact ⟨writer, prev, rfl, within, (List.append_nil _).symm⟩
  | cons block blocks ih =>
    obtain ⟨behind, nonempty, rest⟩ := ordered
    dsimp only [numbers] at behind nonempty
    have above : base ≤ block.1 := (le_iff _ _).mpr (by omega)
    have offset : (block.1 - base).toNat = block.1.toNat - base.toNat := toNat_sub above
    have later : prev ≤ block.1 - base := (le_iff _ _).mpr (by omega)
    have long : block.1 ≤ block.2 := (le_iff _ _).mpr (by omega)
    have high : base ≤ block.2 := (le_iff _ _).mpr (by omega)
    have gap : (block.1 - base - prev).toNat = block.1.toNat - reached := by
      rw [toNat_sub later, offset]
      omega
    obtain ⟨wroteGap, middle⟩ := writer.writeBits_written (block.1 - base - prev) (show 16 ≤ 32 by decide) within
    obtain ⟨wroteLength, still⟩ := (writer.writeBits (block.1 - base - prev) 16).writeBits_written (block.2 - block.1)
      (show 16 ≤ 32 by decide) middle
    have ends : block.2.toNat = base.toNat + (block.2 - base).toNat := by
      rw [toNat_sub high]
      omega
    obtain ⟨final, last, looped, ended, wrote⟩ := ih _ _ still block.2.toNat ends rest
    refine ⟨final, last, ?_, ended, ?_⟩
    · rw [List.foldlM_cons, subU32_eq_ok.mpr ⟨above, rfl⟩, Outcome.ok_bind, subU32_eq_ok.mpr ⟨later, rfl⟩, Outcome.ok_bind,
        subU32_eq_ok.mpr ⟨long, rfl⟩, Outcome.ok_bind, subU32_eq_ok.mpr ⟨high, rfl⟩, Outcome.ok_bind]
      exact looped
    · rw [wrote, wroteLength, wroteGap, gap, toNat_sub long, List.map_cons, Runs.steps, stepWords, stepWords, List.flatMap_cons,
        List.flatMap_append]
      simp [numbers]

theorem encodeCompressedEdges_spelled (ascending : (first :: ids).IsChain fun a b => a.toNat < b.toNat)
    (bounded : 4294967295 ∉ first :: ids) :
    ∃ bits, encodeCompressedEdges (first :: ids) = .ok bits ∧ bits.length = 4 * (runs first ids).length ∧
      runBlocks bits = (Runs.steps first.toNat (runs first ids)).map low := by
  rcases toBlocks_eq first ids with ⟨_, blocks, split, same⟩ | ⟨reached, _⟩
  swap
  · exact absurd reached bounded
  have ordered := runs_ordered ascending
  rw [← same] at ordered
  obtain ⟨final, last, looped, within, wrote⟩ := write_runs first 0 .new
    (show (0 : UInt8).toNat < 8 by decide) first.toNat rfl ordered
  rw [show BitWriter.new.written = [] from rfl, List.nil_append, same] at wrote
  obtain ⟨length, bits⟩ := BitWriter.finish_words within wrote
  have steps : (Runs.steps first.toNat (runs first ids)).length = (runs first ids).length := Runs.length_steps _ _
  have size : final.finish.length = 4 * (runs first ids).length := by
    rw [length, length_stepWords, steps]
    ring
  refine ⟨final.finish, ?_, size, runBlocks_spelled (by rw [size, steps]) bits⟩
  rw [encodeCompressedEdges, split, Outcome.ok_bind, show (index (first :: ids) 0 : Result UInt32) = .ok first from rfl,
    Outcome.ok_bind, looped]
  rfl

theorem runsFit_of {first nbIds count reached : ℕ} {moves : List (ℕ × ℕ)}
    (bounded : ∀ run ∈ Runs.walk (first + reached) moves, run.2 < 4294967296) : RunsFit first nbIds count reached moves := by
  induction moves generalizing count reached with
  | nil => trivial
  | cons step moves ih =>
    have here := bounded _ List.mem_cons_self
    refine fun _ => ⟨by dsimp only at here; omega, ih fun run member => bounded run (List.mem_cons_of_mem _ ?_)⟩
    have reaches : first + (reached + step.1 + step.2) = first + reached + step.1 + step.2 := by omega
    rwa [reaches] at member

end CompressedEdges

def RoundTrips (format : IdStorageFormat) (first : UInt32) (ids : List UInt32) : Prop :=
  ∃ bits, encode (first :: ids) format = .ok bits ∧ decode bits (ids.length + 1) first format = .ok (first :: ids, bits.length)

/-- What a format can store of ascending ids: not all ids there are; gaps below 2¹⁶; no `u32::MAX`;
runs and gaps between them below 2¹⁶. -/
def Storable (format : IdStorageFormat) (first : UInt32) (ids : List UInt32) : Prop :=
  match format with
  | .none => ids.length + 1 < 4294967296
  | .compressedList => (first :: ids).IsChain fun a b => b.toNat - a.toNat < 65536
  | .uncompressedEdges => 4294967295 ∉ first :: ids
  | .compressedEdges => 4294967295 ∉ first :: ids ∧ (∀ run ∈ runs first ids, run.2 - run.1 < 65536) ∧
    (first :: ids).IsChain fun a b => b.toNat - (a.toNat + 1) < 65536

instance (format : IdStorageFormat) (first : UInt32) (ids : List UInt32) : Decidable (Storable format first ids) :=
  match format with
  | .none => inferInstanceAs (Decidable (_ < _))
  | .compressedList => inferInstanceAs (Decidable (List.IsChain _ _))
  | .uncompressedEdges => inferInstanceAs (Decidable (_ ∉ _))
  | .compressedEdges => inferInstanceAs (Decidable (_ ∧ _ ∧ _))

section RoundTrips
variable {first : UInt32} {ids : List UInt32}

theorem none_iff (contiguous : (first :: ids).IsChain fun a b => b.toNat = a.toNat + 1) :
    RoundTrips .none first ids ↔ ids.length + 1 < 4294967296 := by
  constructor
  · rintro ⟨bits, _, decoded⟩
    obtain ⟨found, counted, same⟩ := Outcome.bind_eq_ok.mp decoded
    obtain rfl := (Prod.mk.inj (Outcome.ok.inj same)).1
    have length := Outcome.length_mapM counted
    rw [List.length_range, List.length_cons] at length
    rw [length]
    exact toNat_lt _
  · intro word
    refine ⟨[], rfl, ?_⟩
    rw [decode, decodeNone_contiguous contiguous rfl word]
    rfl

private theorem near_of_decodeDeltas (buf : Bytes) (k : ℕ) {reader final : BitReader} {prev : UInt32} (same : reader.buf = buf)
    (aligned : reader.position = 16 * k) (within : reader.bitPos.toNat < 8) (enough : 2 * (k + ids.length) ≤ buf.length)
    (words : ∀ j < ids.length, Bits.word buf (k + j) = (gaps prev ids).getD j 0 % 2 ^ 16)
    (ascending : (prev :: ids).IsChain fun a b => a.toNat < b.toNat)
    (decoded : decodeDeltas reader prev ids.length = .ok (ids, final)) :
    (prev :: ids).IsChain fun a b => b.toNat - a.toNat < 65536 := by
  induction ids generalizing k reader prev with
  | nil => exact .singleton prev
  | cons id ids ih =>
    rw [List.length_cons] at enough
    obtain ⟨above, rest⟩ := List.isChain_cons_cons.mp ascending
    obtain ⟨value, same', moved, within'⟩ := BitReader.readBits_word buf k same aligned within (by omega)
    obtain ⟨next, added, decoded⟩ := Outcome.bind_eq_ok.mp decoded
    obtain ⟨⟨others, last⟩, later, decoded⟩ := Outcome.bind_eq_ok.mp decoded
    cases decoded
    have fits : prev.toNat + (reader.readBits 16).1.toNat < 4294967296 := (addU32_eq_ok.mp added).1
    have here : id = prev + (reader.readBits 16).1 := (addU32_eq_ok.mp added).2
    refine List.isChain_cons_cons.mpr ⟨?_, ih (k + 1) same' moved within' (by omega) (fun j inside => ?_) rest later⟩
    · have sum := (congrArg UInt32.toNat here).trans (toNat_add fits)
      have delta := value.trans (words 0 (Nat.succ_pos _))
      rw [gaps, List.getD_cons_zero] at delta
      have small : (reader.readBits 16).1.toNat < 65536 := by
        rw [delta]
        exact Nat.mod_lt _ (by decide)
      omega
    · have word := words (j + 1) (Nat.succ_lt_succ inside)
      rw [gaps, List.getD_cons_succ] at word
      rw [Nat.add_assoc, Nat.add_comm 1 j, word]

theorem compressedList_iff (ascending : (first :: ids).IsChain fun a b => a.toNat < b.toNat) :
    RoundTrips .compressedList first ids ↔ (first :: ids).IsChain fun a b => b.toNat - a.toNat < 65536 := by
  obtain ⟨bits, encoded, length, spelled⟩ := encodeCompressedList_spelled ascending
  by_cases single : ids = []
  · subst single
    refine iff_of_true ⟨bits, encoded, ?_⟩ (.singleton first)
    rw [length]
    rfl
  constructor
  · rintro ⟨other, same, decoded⟩
    cases encoded.symm.trans same
    have some : ids.length ≠ 0 := mt List.length_eq_zero_iff.mp single
    rw [decode, decodeCompressedList, if_neg (by omega), subUsize, if_pos (by omega), Outcome.ok_bind, Nat.add_sub_cancel,
      if_neg (by omega)] at decoded
    obtain ⟨⟨others, final⟩, deltas, decoded⟩ := Outcome.bind_eq_ok.mp decoded
    rw [(List.cons.inj (Prod.mk.inj (Outcome.ok.inj decoded)).1).2] at deltas
    refine near_of_decodeDeltas bits 0 rfl rfl (show (0 : UInt8).toNat < 8 by decide) (by omega) (fun j inside => ?_) ascending deltas
    have inside : j < (gaps first ids).length := by rwa [length_gaps]
    rw [Nat.zero_add, Bits.word_spelled (spelled.trans (List.append_nil _).symm) inside, List.getD_eq_getElem _ _ inside]
  · intro near
    have spaced : Spaced (first :: ids) := by
      apply List.isChain_iff_getElem.mpr
      intro i inside
      have up := List.isChain_iff_getElem.mp ascending i inside
      have gap := List.isChain_iff_getElem.mp near i inside
      exact ⟨up, by omega⟩
    refine ⟨bits, encoded, ?_⟩
    have decoded := decodeCompressedList_spelled spaced single length spelled []
    rwa [List.append_nil] at decoded

theorem uncompressedEdges_iff (ascending : (first :: ids).IsChain fun a b => a.toNat < b.toNat) :
    RoundTrips .uncompressedEdges first ids ↔ 4294967295 ∉ first :: ids := by
  constructor
  · rintro ⟨bits, encoded, _⟩
    rcases toBlocks_eq first ids with ⟨bounded, _⟩ | ⟨_, overflow⟩
    · exact bounded
    · rw [encode, encodeUncompressedEdges, overflow] at encoded
      cases encoded
  · intro bounded
    obtain ⟨bits, encoded, length, edges⟩ := encodeUncompressedEdges_spelled (fun _ => first_le ascending) bounded
    have reads := decodeUncompressedEdges_reads bits (ids.length + 1) first
    rw [edges] at reads
    refine ⟨bits, encoded, (reads.ok_of (edgesFit_of ?_) (gather_runs ascending)).trans ?_⟩
    · rw [edges]
      exact fun run member => runs_bounded bounded member
    · rw [Nat.zero_add, length]

private theorem sum_mod_le (lengths : List ℕ) (modulus : ℕ) : (lengths.map (· % modulus)).sum ≤ lengths.sum := by
  induction lengths with
  | nil => exact Nat.le_refl 0
  | cons length lengths ih =>
    rw [List.map_cons, List.sum_cons, List.sum_cons]
    exact Nat.add_le_add (Nat.mod_le _ _) ih

private theorem eq_of_sum_le (lengths : List ℕ) (modulus : ℕ) (total : lengths.sum ≤ (lengths.map (· % modulus)).sum) :
    lengths.map (· % modulus) = lengths := by
  induction lengths with
  | nil => rfl
  | cons length lengths ih =>
    rw [List.map_cons, List.sum_cons, List.sum_cons] at total
    have here := Nat.mod_le length modulus
    have later := sum_mod_le lengths modulus
    rw [List.map_cons, ih (by omega)]
    congr 1
    omega

/-- Steps whose low bits lead through the same numbers have no other bits. -/
private theorem low_eq {runs : List (ℕ × ℕ)} {reached n : ℕ} (ordered : Runs.Ordered reached runs)
    (total : (Runs.expand runs).length = n)
    (enough : n ≤ (Runs.expand (Runs.walk reached ((Runs.steps reached runs).map low))).length)
    (same : (Runs.expand (Runs.walk reached ((Runs.steps reached runs).map low))).take n = Runs.expand runs) :
    (Runs.steps reached runs).map low = Runs.steps reached runs := by
  have lows : ((Runs.steps reached runs).map low).map Prod.snd = ((Runs.steps reached runs).map Prod.snd).map (· % 2 ^ 16) := by
    rw [List.map_map, List.map_map]
    rfl
  have through := Runs.walk_steps ordered
  have sum : ((Runs.steps reached runs).map Prod.snd).sum = n := by
    rw [← Runs.length_expand_walk reached, through, total]
  -- too long a run would leave too few numbers
  have lengths := eq_of_sum_le ((Runs.steps reached runs).map Prod.snd) (2 ^ 16) (by
    rw [sum, ← lows, ← Runs.length_expand_walk reached]
    exact enough)
  rw [← lows] at lengths
  rw [List.take_of_length_le (by rw [Runs.length_expand_walk, lengths, sum])] at same
  refine (Runs.walk_inj reached lengths.symm (fun step member => ?_) ?_).symm
  · have listed := List.mem_map_of_mem (f := Prod.snd) member
    rw [Runs.steps_lengths] at listed
    obtain ⟨run, inside, length⟩ := List.mem_map.mp listed
    rw [← length]
    exact Nat.sub_pos_of_lt (ordered.of_mem inside).2
  · rw [through, same]

private theorem low_eq_iff :
    (Runs.steps first.toNat (runs first ids)).map low = Runs.steps first.toNat (runs first ids) ↔
      (∀ run ∈ runs first ids, run.2 - run.1 < 65536) ∧ (first :: ids).IsChain fun a b => b.toNat - (a.toNat + 1) < 65536 := by
  have gaps := @Runs.gaps_lt_iff first.toNat first.toNat first.toNat 65536 (by decide) (ids.map UInt32.toNat)
  rw [Nat.sub_self, and_iff_right (by decide : 0 < 65536), ← List.map_cons, List.isChain_map, ← runs] at gaps
  have lengths : (∀ step ∈ Runs.steps first.toNat (runs first ids), step.2 < 65536) ↔ ∀ run ∈ runs first ids, run.2 - run.1 < 65536 := by
    have same := congrArg (fun lengths : List ℕ => ∀ length ∈ lengths, length < 65536) (Runs.steps_lengths first.toNat (runs first ids))
    simpa only [List.forall_mem_map] using Iff.of_eq same
  rw [← gaps, ← lengths, ← forall₂_and]
  nth_rewrite 2 [← List.map_id (Runs.steps first.toNat (runs first ids))]
  rw [List.map_inj_left]
  refine forall₂_congr fun step _ => ?_
  rw [low, id, Prod.ext_iff, Nat.mod_eq_iff_lt (by decide), Nat.mod_eq_iff_lt (by decide), and_comm]
  rfl

theorem compressedEdges_iff (ascending : (first :: ids).IsChain fun a b => a.toNat < b.toNat) :
    RoundTrips .compressedEdges first ids ↔ 4294967295 ∉ first :: ids ∧ (∀ run ∈ runs first ids, run.2 - run.1 < 65536) ∧
      (first :: ids).IsChain fun a b => b.toNat - (a.toNat + 1) < 65536 := by
  by_cases bounded : 4294967295 ∉ first :: ids
  swap
  · refine iff_of_false ?_ fun storable => bounded storable.1
    rintro ⟨bits, encoded, _⟩
    rcases toBlocks_eq first ids with ⟨absent, _⟩ | ⟨_, overflow⟩
    · exact bounded absent
    · rw [encode, encodeCompressedEdges, overflow] at encoded
      cases encoded
  rw [and_iff_right bounded]
  obtain ⟨bits, encoded, length, blocks⟩ := encodeCompressedEdges_spelled ascending bounded
  have reads := decodeCompressedEdges_reads bits (ids.length + 1) first
  rw [blocks] at reads
  rw [← low_eq_iff]
  constructor
  · rintro ⟨other, same, decoded⟩
    cases encoded.symm.trans same
    obtain ⟨used, gathered, _⟩ := reads.of_ok decoded
    obtain ⟨listed, enough, _⟩ := Runs.gather_eq_some gathered
    rw [List.nil_append] at listed enough
    rw [← expand_runs] at listed
    refine low_eq (runs_ordered ascending) ?_ enough listed.symm
    rw [expand_runs, List.length_map, List.length_cons]
  · intro small
    rw [small, Runs.walk_steps (runs_ordered ascending)] at reads
    refine ⟨bits, encoded, (reads.ok_of (runsFit_of ?_) (gather_runs ascending)).trans ?_⟩
    · rw [Nat.add_zero, Runs.walk_steps (runs_ordered ascending)]
      exact fun run member => (runs_bounded bounded member).2
    · rw [Nat.zero_add, length]

/-- An ascending list comes back from its id field exactly if the format can store it. -/
theorem round_trips_iff (ascending : (first :: ids).Pairwise (· < ·)) (format : IdStorageFormat)
    (contiguous : format = .none → (first :: ids).IsChain fun a b => b.toNat = a.toNat + 1) :
    RoundTrips format first ids ↔ Storable format first ids := by
  have chain : (first :: ids).IsChain fun a b => a.toNat < b.toNat :=
    ascending.isChain.imp fun a b less => (lt_iff a b).mp less
  cases format with
  | none => exact none_iff (contiguous rfl)
  | compressedList => exact compressedList_iff chain
  | uncompressedEdges => exact uncompressedEdges_iff chain
  | compressedEdges => exact compressedEdges_iff chain

/-- Three runs, the last of one id. -/
theorem round_trips_iff_runs :
    (∀ format, format ≠ .none → RoundTrips format 3 [4, 5, 9, 10, 65545]) ∧ RoundTrips .none 4294967294 [4294967295] := by
  constructor
  · intro format listed
    refine (round_trips_iff (by decide) format fun none => absurd none listed).mpr ?_
    cases format with
    | none => exact absurd rfl listed
    | compressedList | uncompressedEdges | compressedEdges => decide +kernel
  · exact (round_trips_iff (by decide) .none fun _ => by decide).mpr (by decide +kernel)

/-- A gap of 2¹⁶ is read as none, before an id and before a run; `u32::MAX` has no end after it. -/
theorem round_trips_fails :
    (encode [0, 65536] .compressedList = .ok [0, 0] ∧ decode [0, 0] 2 0 .compressedList = .ok ([0, 0], 2)) ∧
      ¬ RoundTrips .compressedList 0 [65536] ∧ ¬ RoundTrips .compressedEdges 0 [65537] ∧
      ¬ RoundTrips .uncompressedEdges 4294967295 [] := by
  refine ⟨by decide +kernel, ?_, ?_, ?_⟩
  · rw [compressedList_iff (by decide)]
    decide
  · rw [compressedEdges_iff (by decide)]
    decide +kernel
  · rw [uncompressedEdges_iff (by decide)]
    decide

end RoundTrips
end IdStorage
end Delp
