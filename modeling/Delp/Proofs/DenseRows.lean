import Delp.Codec.Matrix
import Delp.Gf.Symbols
import Delp.Lib.OrderedKeys

/-! What the operations on dense coefficient rows do to the coefficient of each id. -/

namespace Delp.DenseCoefs
open Machine Gf

def Addressed (row : DenseCoefs) : Prop := row.baseId.toNat + row.coefs.length ≤ 4294967296

instance (row : DenseCoefs) : Decidable row.Addressed := inferInstanceAs (Decidable (_ ≤ _))

def Bounded (row : DenseCoefs) : Prop := row.baseId.toNat + row.coefs.length < 4294967296

instance (row : DenseCoefs) : Decidable row.Bounded := inferInstanceAs (Decidable (_ < _))

structure Shaped (field : Config.Field) (row : DenseCoefs) : Prop where
  addressed : row.Addressed
  inField : ∀ c ∈ row.coefs, InField field c

variable {field : Config.Field} {row other : DenseCoefs}

theorem get_eq (row : DenseCoefs) (id : SourceSymbolId) :
    row.get id = if row.baseId.toNat ≤ id.toNat then row.coefs.getD (id.toNat - row.baseId.toNat) 0 else 0 := by
  unfold get
  split
  next below =>
    rw [lt_iff] at below
    rw [if_neg (by omega)]
  next inside =>
    rw [lt_iff, Nat.not_lt] at inside
    rw [if_pos inside, toNat_sub (by rwa [le_iff])]

theorem getD_inField {coefs : Bytes} (inside : ∀ c ∈ coefs, InField field c) (i : Nat) :
    InField field (coefs.getD i 0) := by
  rw [List.getD_eq_getElem?_getD]
  cases found : coefs[i]? with
  | none => exact inField_zero
  | some c => exact inside c (List.mem_of_getElem? found)

theorem get_inField (shaped : Shaped field row) (id : SourceSymbolId) : InField field (row.get id) := by
  rw [get_eq]
  split
  · exact getD_inField shaped.inField _
  · exact inField_zero

theorem get_entry (row : DenseCoefs) {i : Nat} (inside : i < row.coefs.length)
    (addressable : row.baseId.toNat + i < 4294967296) :
    row.get (row.baseId + UInt32.ofNat i) = row.coefs[i] := by
  have offset : (row.baseId + UInt32.ofNat i).toNat = row.baseId.toNat + i := by
    rw [toNat_add (by rwa [toNat_ofNat (by omega)]), toNat_ofNat (by omega)]
  rw [get_eq, offset, if_pos (by omega), Nat.add_sub_cancel_left, List.getD_eq_getElem _ _ inside]

theorem entry_of_get {id : SourceSymbolId} (nonzero : row.get id ≠ 0) :
    row.baseId.toNat ≤ id.toNat ∧ id.toNat - row.baseId.toNat < row.coefs.length := by
  rw [get_eq] at nonzero
  split at nonzero
  next above =>
    refine ⟨above, ?_⟩
    by_contra outside
    rw [List.getD_eq_getElem?_getD, List.getElem?_eq_none (by omega)] at nonzero
    exact nonzero rfl
  next => exact absurd rfl nonzero

section FromMap
variable {map : Std.TreeMap SourceSymbolId UInt8}

private theorem length_fill (entries : List (SourceSymbolId × UInt8)) (start : SourceSymbolId) (coefs : Bytes) :
    (entries.foldl (fun coefs (id, coef) => coefs.set (id - start).toNat coef) coefs).length = coefs.length := by
  induction entries generalizing coefs with
  | nil => rfl
  | cons entry entries ih => rw [List.foldl_cons, ih, List.length_set]

private theorem fill_untouched {entries : List (SourceSymbolId × UInt8)} {start id : SourceSymbolId}
    (ordered : ∀ entry ∈ entries, start ≤ entry.1) (room : start ≤ id) (absent : ∀ entry ∈ entries, entry.1 ≠ id)
    (coefs : Bytes) :
    (entries.foldl (fun coefs (id, coef) => coefs.set (id - start).toNat coef) coefs).getD (id - start).toNat 0 =
      coefs.getD (id - start).toNat 0 := by
  induction entries generalizing coefs with
  | nil => rfl
  | cons entry entries ih =>
    rw [List.foldl_cons, ih (fun other member => ordered other (List.mem_cons_of_mem _ member))
      (fun other member => absent other (List.mem_cons_of_mem _ member))]
    have apart : (entry.1 - start).toNat ≠ (id - start).toNat := by
      have first := ordered entry List.mem_cons_self
      rw [toNat_sub first, toNat_sub room]
      rw [le_iff] at first room
      have different := absent entry List.mem_cons_self
      rw [ne_eq, eq_iff] at different
      omega
    rw [List.getD_eq_getElem?_getD, List.getElem?_set_ne apart, ← List.getD_eq_getElem?_getD]

private theorem fill_entry {entries : List (SourceSymbolId × UInt8)} {start : SourceSymbolId} {coefs : Bytes}
    (ordered : ∀ entry ∈ entries, start ≤ entry.1) (distinct : entries.Pairwise (·.1 ≠ ·.1))
    (room : ∀ entry ∈ entries, (entry.1 - start).toNat < coefs.length)
    {id : SourceSymbolId} {c : UInt8} (member : (id, c) ∈ entries) :
    (entries.foldl (fun coefs (id, coef) => coefs.set (id - start).toNat coef) coefs).getD (id - start).toNat 0 = c := by
  induction entries generalizing coefs with
  | nil => cases member
  | cons entry entries ih =>
    rw [List.foldl_cons]
    obtain ⟨fresh, distinct⟩ := List.pairwise_cons.mp distinct
    have orderedRest := fun other member => ordered other (List.mem_cons_of_mem entry member)
    rcases List.mem_cons.mp member with rfl | member
    · rw [fill_untouched orderedRest (ordered _ List.mem_cons_self)
        (fun other listed same => fresh other listed same.symm), List.getD_eq_getElem?_getD,
        List.getElem?_set_self (room _ List.mem_cons_self), Option.getD_some]
    · exact ih orderedRest distinct
        (fun other listed => by rw [List.length_set]; exact room other (List.mem_cons_of_mem _ listed)) member

private theorem fromMap_cases (map : Std.TreeMap SourceSymbolId UInt8) :
    fromMap map = ⟨0, []⟩ ∧ (∀ id, id ∉ map) ∨
      ∃ first last, first ∈ map ∧ last ∈ map ∧ (∀ id ∈ map, first ≤ id ∧ id ≤ last) ∧
        fromMap map = ⟨first, map.toList.foldl (fun coefs (id, coef) => coefs.set (id - first).toNat coef)
          (List.replicate ((last - first).toNat + 1) 0)⟩ := by
  cases head : map.keys.head? with
  | none =>
    have empty := List.head?_eq_none_iff.mp head
    refine .inl ⟨by simp [fromMap, head], fun id member => ?_⟩
    have listed := Std.TreeMap.mem_keys.mpr member
    rw [empty] at listed
    cases listed
  | some first =>
    cases final : map.keys.getLast? with
    | none =>
      rw [List.getLast?_eq_none_iff.mp final] at head
      cases head
    | some last =>
      refine .inr ⟨first, last, OrderedKeys.head_mem head, OrderedKeys.last_mem final,
        fun id member => ⟨OrderedKeys.head_le head member, OrderedKeys.le_last final member⟩, ?_⟩
      simp only [fromMap, head, final]

private theorem mem_of_entry {entry : SourceSymbolId × UInt8} (listed : entry ∈ map.toList) : entry.1 ∈ map := by
  rw [Std.TreeMap.mem_iff_isSome_getElem?, Std.TreeMap.mem_toList_iff_getElem?_eq_some.mp listed]
  rfl

theorem get_fromMap (map : Std.TreeMap SourceSymbolId UInt8) (id : SourceSymbolId) :
    (fromMap map).get id = map[id]?.getD 0 := by
  rcases fromMap_cases map with ⟨same, empty⟩ | ⟨first, last, _, _, range, same⟩
  · rw [same, Std.TreeMap.getElem?_eq_none (empty id)]
    simp [get]
  rw [same]
  have ordered : ∀ entry ∈ map.toList, first ≤ entry.1 := fun entry listed => (range _ (mem_of_entry listed)).1
  cases found : map[id]? with
  | some c =>
    have listed := Std.TreeMap.mem_toList_iff_getElem?_eq_some.mpr found
    have room : ∀ entry ∈ map.toList,
        (entry.1 - first).toNat < (List.replicate ((last - first).toNat + 1) (0 : UInt8)).length := by
      intro entry listed
      obtain ⟨above, below⟩ := range _ (mem_of_entry listed)
      have whole : first ≤ last := by rw [le_iff] at *; omega
      rw [List.length_replicate, toNat_sub above, toNat_sub whole]
      rw [le_iff] at *
      omega
    have above := ordered _ listed
    rw [get_eq, if_pos (by rwa [le_iff] at above), ← toNat_sub above]
    exact fill_entry ordered (OrderedKeys.distinct map) room listed
  | none =>
    rw [get_eq]
    split
    next above =>
      have room : first ≤ id := by rwa [le_iff]
      rw [← toNat_sub room, fill_untouched ordered room]
      · rw [List.getD_eq_getElem?_getD, List.getElem?_replicate]
        split <;> rfl
      · rintro entry listed rfl
        rw [Std.TreeMap.mem_toList_iff_getElem?_eq_some.mp listed] at found
        cases found
    next => rfl

theorem fromMap_shaped (inside : ∀ (id : SourceSymbolId) c, map[id]? = some c → InField field c) :
    (fromMap map).Shaped field := by
  rcases fromMap_cases map with ⟨same, _⟩ | ⟨first, last, _, final, range, same⟩
  · rw [same]
    exact ⟨by decide, by simp⟩
  rw [same]
  have whole : first ≤ last := (range last final).1
  have bounded := toNat_lt last
  constructor
  · rw [Addressed, length_fill, List.length_replicate, toNat_sub whole]
    rw [le_iff] at whole
    dsimp only
    omega
  · have fill : ∀ entries : List (SourceSymbolId × UInt8), (∀ entry ∈ entries, InField field entry.2) →
        ∀ coefs : Bytes, (∀ c ∈ coefs, InField field c) →
        ∀ c ∈ entries.foldl (fun coefs (id, coef) => coefs.set (id - first).toNat coef) coefs, InField field c := by
      intro entries listed
      induction entries with
      | nil => exact fun coefs kept => kept
      | cons entry entries ih =>
        intro coefs kept
        refine ih (fun other member => listed other (List.mem_cons_of_mem _ member)) _ fun c member => ?_
        rcases List.mem_or_eq_of_mem_set member with member | rfl
        · exact kept c member
        · exact listed entry List.mem_cons_self
    refine fill _ (fun entry listed => inside entry.1 entry.2
      (Std.TreeMap.mem_toList_iff_getElem?_eq_some.mp listed)) _ fun c member => ?_
    rw [List.eq_of_mem_replicate member]
    exact inField_zero

theorem fromMap_bounded_iff (map : Std.TreeMap SourceSymbolId UInt8) : (fromMap map).Bounded ↔ (0xFFFFFFFF : SourceSymbolId) ∉ map := by
  rcases fromMap_cases map with ⟨same, empty⟩ | ⟨first, last, _, final, range, same⟩
  · rw [same]
    exact iff_of_true (by decide) (empty _)
  rw [same, Bounded, length_fill, List.length_replicate, toNat_sub (range last final).1]
  have whole := (le_iff _ _).mp (range last final).1
  have bounded := toNat_lt last
  dsimp only
  constructor
  · intro below member
    have top := (le_iff _ _).mp (range _ member).2
    change 4294967295 ≤ _ at top
    omega
  · intro missing
    have apart : last.toNat ≠ 4294967295 := fun top => missing ((eq_iff last 0xFFFFFFFF).mpr top ▸ final)
    omega

theorem fromMap_start_iff {map : Std.TreeMap SourceSymbolId UInt8} {id : SourceSymbolId} (some : id ∈ map) :
    (fromMap map).coefs ≠ [] ∧ ((fromMap map).baseId = 0 ↔ 0 ∈ map) := by
  rcases fromMap_cases map with ⟨_, empty⟩ | ⟨first, last, start, final, range, same⟩
  · exact absurd some (empty id)
  rw [same]
  refine ⟨fun empty => ?_, fun zero => zero ▸ start, fun member => ?_⟩
  · have length := congrArg List.length empty
    rw [length_fill, List.length_replicate] at length
    cases length
  · have low := (le_iff _ _).mp (range 0 member).1
    rw [UInt32.toNat_zero] at low
    rw [eq_iff, UInt32.toNat_zero]
    exact Nat.le_zero.mp low

end FromMap

section EnsureCovers
variable {id : SourceSymbolId}

theorem get_ensureCovers (row : DenseCoefs) (id query : SourceSymbolId) :
    (row.ensureCovers id).get query = row.get query := by
  unfold ensureCovers
  split
  next empty =>
    rw [get_eq, get_eq, List.isEmpty_iff.mp empty]
    have zero (i : Nat) : [(0 : UInt8)].getD i 0 = 0 := by cases i <;> rfl
    simp only [zero, List.getD_nil, ite_self]
  split
  next below =>
    rw [get_eq, get_eq, toNat_sub (UInt32.le_of_lt below)]
    rw [lt_iff] at below
    dsimp only
    split
    next above =>
      split
      next inside =>
        rw [List.getD_append_right _ _ _ _ (by rw [List.length_replicate]; omega), List.length_replicate]
        congr 1
        omega
      next outside =>
        rw [List.getD_append _ _ _ _ (by rw [List.length_replicate]; omega), List.getD_eq_getElem?_getD,
          List.getElem?_replicate]
        split <;> rfl
    next outside => rw [if_neg (by omega)]
  · dsimp only
    split
    · rw [get_eq, get_eq]
      dsimp only
      split
      next above =>
        rcases Nat.lt_or_ge (query.toNat - row.baseId.toNat) row.coefs.length with inside | outside
        · rw [List.getD_append _ _ _ _ inside]
        · rw [List.getD_append_right _ _ _ _ outside, List.getD_eq_getElem?_getD, List.getElem?_replicate,
            List.getD_eq_getElem?_getD, List.getElem?_eq_none outside]
          split <;> rfl
      next => rfl
    · rfl

/-- A grown row has an entry for the id, and still one for every id it had. -/
structure Covers (row grown : DenseCoefs) (id : SourceSymbolId) : Prop where
  start : grown.baseId.toNat ≤ id.toNat
  reach : id.toNat < grown.baseId.toNat + grown.coefs.length
  lower : row.coefs ≠ [] → grown.baseId.toNat ≤ row.baseId.toNat
  upper : row.coefs ≠ [] → row.baseId.toNat + row.coefs.length ≤ grown.baseId.toNat + grown.coefs.length
  limit : grown.baseId.toNat + grown.coefs.length ≤ max (row.baseId.toNat + row.coefs.length) (id.toNat + 1)
  base : row.coefs ≠ [] → grown.baseId = row.baseId ∨ grown.baseId = id
  entries : ∀ c ∈ grown.coefs, c = 0 ∨ c ∈ row.coefs

theorem ensureCovers_covers (row : DenseCoefs) (id : SourceSymbolId) : Covers row (row.ensureCovers id) id := by
  unfold ensureCovers
  split
  next empty =>
    have none : row.coefs = [] := List.isEmpty_iff.mp empty
    refine ⟨Nat.le_refl _, ?_, fun filled => absurd none filled, fun filled => absurd none filled, ?_,
      fun filled => absurd none filled, ?_⟩
    · simp only [List.length_singleton]; omega
    · simp only [List.length_singleton]; omega
    · exact fun c member => .inl (List.mem_singleton.mp member)
  next filled =>
  have positive : 0 < row.coefs.length := List.length_pos_iff.mpr fun none => filled (by simp [none])
  split
  next below =>
    have width := toNat_sub (UInt32.le_of_lt below)
    rw [lt_iff] at below
    refine ⟨Nat.le_refl _, ?_, fun _ => Nat.le_of_lt below, fun _ => ?_, ?_, fun _ => .inr rfl, ?_⟩
    · simp only [List.length_append, List.length_replicate, width]; omega
    · simp only [List.length_append, List.length_replicate, width]; omega
    · simp only [List.length_append, List.length_replicate, width]; omega
    · intro c member
      rcases List.mem_append.mp member with zero | old
      · exact .inl (List.eq_of_mem_replicate zero)
      · exact .inr old
  next above =>
    have room : row.baseId ≤ id := UInt32.not_lt.mp above
    have width := toNat_sub room
    rw [le_iff] at room
    dsimp only
    split
    next short =>
      refine ⟨room, ?_, fun _ => Nat.le_refl _, fun _ => ?_, ?_, fun _ => .inl rfl, ?_⟩
      · simp only [List.length_append, List.length_replicate, width]; omega
      · simp only [List.length_append, List.length_replicate, width]; omega
      · simp only [List.length_append, List.length_replicate, width] at *; omega
      · intro c member
        rcases List.mem_append.mp member with old | zero
        · exact .inr old
        · exact .inl (List.eq_of_mem_replicate zero)
    next long =>
      exact ⟨room, by omega, fun _ => Nat.le_refl _, fun _ => Nat.le_refl _, Nat.le_max_left _ _, fun _ => .inl rfl,
        fun c member => .inr member⟩

end EnsureCovers

section SubtractScaled

private theorem getD_splice {coefs middle : Bytes} {start len : Nat} (length : middle.length = len)
    (inside : start + len ≤ coefs.length) (k : Nat) :
    (coefs.take start ++ middle ++ coefs.drop (start + len)).getD k 0 =
      if k < start then coefs.getD k 0
      else if k < start + len then middle.getD (k - start) 0
      else coefs.getD k 0 := by
  have front : (coefs.take start).length = start := by rw [List.length_take]; omega
  rw [List.append_assoc]
  split
  next before =>
    rw [List.getD_append _ _ _ _ (by omega), List.getD_eq_getElem?_getD, List.getElem?_take_of_lt before,
      ← List.getD_eq_getElem?_getD]
  next after =>
    rw [List.getD_append_right _ _ _ _ (by omega), front]
    split
    next within => rw [List.getD_append _ _ _ _ (by omega)]
    next beyond =>
      rw [List.getD_append_right _ _ _ _ (by omega), List.getD_eq_getElem?_getD, List.getElem?_drop,
        ← List.getD_eq_getElem?_getD]
      congr 1
      omega

private theorem getD_slice (coefs : Bytes) (start len k : Nat) (inside : k < len) :
    ((coefs.drop start).take len).getD k 0 = coefs.getD (start + k) 0 := by
  rw [List.getD_eq_getElem?_getD, List.getElem?_take_of_lt inside, List.getElem?_drop, ← List.getD_eq_getElem?_getD]

structure Encloses (row other wide : DenseCoefs) : Prop where
  same : ∀ id, wide.get id = row.get id
  start : wide.baseId ≤ other.baseId
  reach : other.baseId.toNat + other.coefs.length ≤ wide.baseId.toNat + wide.coefs.length
  limit : wide.baseId.toNat + wide.coefs.length ≤
    max (row.baseId.toNat + row.coefs.length) (other.baseId.toNat + other.coefs.length)
  upper : row.coefs ≠ [] → row.baseId.toNat + row.coefs.length ≤ wide.baseId.toNat + wide.coefs.length
  base : row.coefs ≠ [] → wide.baseId.toNat = min row.baseId.toNat other.baseId.toNat
  entries : ∀ c ∈ wide.coefs, c = 0 ∨ c ∈ row.coefs

private theorem enclose (row : DenseCoefs) (filled : other.coefs ≠ []) {final : SourceSymbolId}
    (start : other.baseId.toNat ≤ final.toNat) (last : final.toNat < other.baseId.toNat + other.coefs.length)
    (reach : other.baseId.toNat + other.coefs.length ≤ ((row.ensureCovers other.baseId).ensureCovers final).baseId.toNat +
      ((row.ensureCovers other.baseId).ensureCovers final).coefs.length) :
    Encloses row other ((row.ensureCovers other.baseId).ensureCovers final) := by
  have positive : 0 < other.coefs.length := List.length_pos_iff.mpr filled
  have first := ensureCovers_covers row other.baseId
  have second := ensureCovers_covers (row.ensureCovers other.baseId) final
  have firstStart := first.start
  have firstReach := first.reach
  have firstLimit := first.limit
  have grown : (row.ensureCovers other.baseId).coefs ≠ [] := by
    intro empty
    rw [empty, List.length_nil] at firstReach
    omega
  have secondLower := second.lower grown
  have secondLimit := second.limit
  refine ⟨fun id => by rw [get_ensureCovers, get_ensureCovers], by rw [le_iff]; omega, reach, by omega,
    fun some => (first.upper some).trans (second.upper grown), fun some => ?_, ?_⟩
  · have firstLower := first.lower some
    have firstBase : (row.ensureCovers other.baseId).baseId.toNat = min row.baseId.toNat other.baseId.toNat := by
      rcases first.base some with same | same <;> rw [same] at firstStart firstLower ⊢ <;> omega
    rcases second.base grown with same | same
    · rw [same, firstBase]
    · rw [same] at secondLower ⊢
      omega
  intro c member
  rcases second.entries c member with rfl | member
  · exact .inl rfl
  · exact first.entries c member

structure Accumulates (field : Config.Field) (row other : DenseCoefs) (factor : UInt8) (result : DenseCoefs) : Prop where
  get : ∀ id, result.get id = row.get id ^^^ mulByte field factor (other.get id)
  limit : result.baseId.toNat + result.coefs.length ≤
    max (row.baseId.toNat + row.coefs.length) (other.baseId.toNat + other.coefs.length)
  filled : row.coefs ≠ [] → result.coefs ≠ []
  reach : row.coefs ≠ [] → row.baseId.toNat + row.coefs.length ≤ result.baseId.toNat + result.coefs.length
  start : row.coefs ≠ [] → other.coefs ≠ [] → factor ≠ 0 → (result.baseId = 0 ↔ row.baseId = 0 ∨ other.baseId = 0)
  inField : (∀ c ∈ row.coefs, InField field c) → (∀ c ∈ other.coefs, InField field c) →
    ∀ c ∈ result.coefs, InField field c

theorem Accumulates.of_nothing {factor : UInt8} (nothing : other.coefs = [] ∨ factor = 0) :
    Accumulates field row other factor row := by
  refine ⟨fun id => ?_, Nat.le_max_left _ _, fun filled => filled, fun _ => Nat.le_refl _,
    fun _ filled nonzero => (nothing.elim filled nonzero).elim, fun inside _ => inside⟩
  rcases nothing with empty | rfl
  · have zero : other.get id = 0 := by rw [get_eq, empty, List.getD_nil, ite_self]
    rw [zero, mulByte_zero, UInt8.xor_zero]
  · rw [mulByte_of_zero, UInt8.xor_zero]

private theorem accumulate {wide : DenseCoefs} (enclosed : Encloses row other wide) (factor : UInt8)
    {start : Nat} {target sum : Bytes}
    (offset : start = other.baseId.toNat - wide.baseId.toNat)
    (cut : target = (wide.coefs.drop start).take other.coefs.length)
    (total : sum = target.zipWith (· ^^^ ·) (other.coefs.map (mulByte field factor)))
    {result : DenseCoefs} (base : result.baseId = wide.baseId)
    (spliced : result.coefs = wide.coefs.take start ++ sum ++ wide.coefs.drop (start + other.coefs.length)) :
    Accumulates field row other factor result := by
  have within := (le_iff _ _).mp enclosed.start
  have reach := enclosed.reach
  have limit := enclosed.limit
  have room : start + other.coefs.length ≤ wide.coefs.length := by omega
  have targetLength : target.length = other.coefs.length := by
    rw [cut, List.length_take, List.length_drop]
    omega
  have matched : target.length = (other.coefs.map (mulByte field factor)).length := by
    rw [List.length_map, targetLength]
  have sumLength : sum.length = other.coefs.length := by
    rw [total, List.length_zipWith, ← matched, Nat.min_self, targetLength]
  have length : result.coefs.length = wide.coefs.length := by
    rw [spliced]
    simp only [List.length_append, List.length_take, List.length_drop, sumLength]
    omega
  refine ⟨fun id => ?_, by rw [base, length]; exact limit, fun some empty => ?_, fun some => ?_, fun some _ _ => ?_,
    fun inside otherInside c member => ?_⟩
  · have old := enclosed.same id
    rw [get_eq] at old
    rw [← old, get_eq, get_eq other, base, spliced, getD_splice sumLength room]
    split
    next above =>
      split
      next before => rw [if_neg (by omega), mulByte_zero, UInt8.xor_zero]
      next notBefore =>
        rw [if_pos (show other.baseId.toNat ≤ id.toNat by omega)]
        split
        next middle =>
          rw [total, getD_zipWith_xor matched, getD_map_mulByte, cut, getD_slice _ _ _ _ (by omega)]
          congr 2
          · omega
          · congr 1
            omega
        next beyond =>
          have outside : other.coefs.getD (id.toNat - other.baseId.toNat) 0 = 0 := by
            rw [List.getD_eq_getElem?_getD, List.getElem?_eq_none (by omega), Option.getD_none]
          rw [outside, mulByte_zero, UInt8.xor_zero]
    next below => rw [if_neg (by omega), mulByte_zero, UInt8.xor_zero]
  · have upper := enclosed.upper some
    have lower := enclosed.base some
    have positive := List.length_pos_iff.mpr some
    rw [empty, List.length_nil] at length
    omega
  · rw [base, length]
    exact enclosed.upper some
  · rw [base]
    simp only [eq_iff, UInt32.toNat_zero, enclosed.base some]
    omega
  · have wideInside : ∀ c ∈ wide.coefs, InField field c := by
      intro c member
      rcases enclosed.entries c member with rfl | member
      · exact inField_zero
      · exact inside c member
    rw [spliced] at member
    rcases List.mem_append.mp member with member | member
    · rcases List.mem_append.mp member with member | member
      · exact wideInside c (List.mem_of_mem_take member)
      · subst total cut
        obtain ⟨k, inside, rfl⟩ := List.mem_iff_getElem.mp member
        rw [List.getElem_zipWith, List.getElem_map]
        exact xor_inField (wideInside _ (List.mem_of_mem_drop (List.mem_of_mem_take (List.getElem_mem _))))
          (mulByte_inField (otherInside _ (List.getElem_mem _)) _)
    · exact wideInside c (List.mem_of_mem_drop member)

private theorem splice {wide : DenseCoefs} (enclosed : Encloses row other wide) (factor : UInt8) :
    ∃ result, (do
        let dstOff ← subU32 other.baseId wide.baseId
        let dst ← slice wide.coefs dstOff.toNat (dstOff.toNat + other.coefs.length)
        let dst ← Gf.mulAcc field dst other.coefs factor
        pure { wide with
          coefs := wide.coefs.take dstOff.toNat ++ dst ++ wide.coefs.drop (dstOff.toNat + other.coefs.length) } :
          Result DenseCoefs) = .ok result ∧ Accumulates field row other factor result := by
  have within := (le_iff _ _).mp enclosed.start
  have reach := enclosed.reach
  have target : ((wide.coefs.drop (other.baseId.toNat - wide.baseId.toNat)).take other.coefs.length).length =
      other.coefs.length := by
    rw [List.length_take, List.length_drop]
    omega
  refine ⟨?result, ?returned, ?values⟩
  case returned =>
    rw [show subU32 other.baseId wide.baseId = (.ok (other.baseId - wide.baseId) : Result UInt32) from
      if_pos enclosed.start, Outcome.ok_bind, toNat_sub enclosed.start, slice_of (Nat.le_add_right _ _) (by omega),
      Outcome.ok_bind, Nat.add_sub_cancel_left, mulAcc_eq target]
    rfl
  case values => exact accumulate enclosed factor rfl rfl rfl rfl rfl

theorem subtractScaled_accumulates (field : Config.Field) (row other : DenseCoefs) (factor : UInt8)
    (fits : other.coefs = [] ∨ factor = 0 ∨ other.baseId.toNat + other.coefs.length < 4294967296) :
    ∃ result, row.subtractScaled other factor field = .ok result ∧ Accumulates field row other factor result := by
  unfold subtractScaled
  split
  next nothing => exact ⟨row, rfl, .of_nothing (nothing.imp_left List.isEmpty_iff.mp)⟩
  next something =>
  have filled : other.coefs ≠ [] := fun empty => something (.inl (by simp [empty]))
  have nonzero : factor ≠ 0 := fun zero => something (.inr zero)
  have positive : 0 < other.coefs.length := List.length_pos_iff.mpr filled
  have bounded := (fits.resolve_left filled).resolve_left nonzero
  have width : (UInt32.ofNat other.coefs.length).toNat = other.coefs.length := toNat_ofNat (by omega)
  have ends : (other.baseId + UInt32.ofNat other.coefs.length).toNat = other.baseId.toNat + other.coefs.length := by
    rw [toNat_add (by omega), width]
  have added : addU32 other.baseId (UInt32.ofNat other.coefs.length) =
      (.ok (other.baseId + UInt32.ofNat other.coefs.length) : Result UInt32) :=
    if_pos (by rw [width]; exact bounded)
  have positiveEnd : other.baseId + UInt32.ofNat other.coefs.length ≠ 0 := by
    rw [ne_eq, eq_iff, ends, UInt32.toNat_zero]
    omega
  have last : (other.baseId + UInt32.ofNat other.coefs.length - 1).toNat =
      other.baseId.toNat + other.coefs.length - 1 := by
    rw [toNat_sub (by rw [le_iff, ends, UInt32.toNat_one]; omega), ends, UInt32.toNat_one]
  rw [added, Outcome.ok_bind]
  dsimp only
  rw [if_neg positiveEnd]
  have reach := (ensureCovers_covers (row.ensureCovers other.baseId)
    (other.baseId + UInt32.ofNat other.coefs.length - 1)).reach
  exact splice (enclose row filled (by omega) (by omega) (by omega)) factor

section Whole
variable {factor : UInt8}

/-- The length of a row of all the ids is truncated to zero, and its end taken to be its start. -/
private theorem subtractScaled_whole (nonzero : factor ≠ 0) (start : other.baseId = 0)
    (whole : other.coefs.length = 4294967296) :
    row.subtractScaled other factor field = (do
      let wide := (row.ensureCovers other.baseId).ensureCovers 0
      let dstOff ← subU32 other.baseId wide.baseId
      let dst ← slice wide.coefs dstOff.toNat (dstOff.toNat + other.coefs.length)
      let dst ← Gf.mulAcc field dst other.coefs factor
      pure { wide with
        coefs := wide.coefs.take dstOff.toNat ++ dst ++ wide.coefs.drop (dstOff.toNat + other.coefs.length) }) := by
  have filled : ¬ (other.coefs.isEmpty ∨ factor = 0) := by
    rintro (empty | zero)
    · rw [List.isEmpty_iff.mp empty] at whole
      cases whole
    · exact nonzero zero
  have added : addU32 other.baseId (UInt32.ofNat other.coefs.length) = (.ok 0 : Result UInt32) := by
    rw [start, whole]
    decide
  rw [subtractScaled, if_neg filled, added]
  rfl

private theorem whole_needs (nonzero : factor ≠ 0) (start : other.baseId = 0) (whole : other.coefs.length = 4294967296)
    {result : DenseCoefs} (returned : row.subtractScaled other factor field = .ok result) :
    row.coefs ≠ [] ∧ 4294967296 ≤ row.baseId.toNat + row.coefs.length := by
  rw [subtractScaled_whole nonzero start whole] at returned
  obtain ⟨dstOff, _, returned⟩ := Outcome.bind_eq_ok.mp returned
  obtain ⟨dst, cut, _⟩ := Outcome.bind_eq_ok.mp returned
  have inside := (slice_eq_ok.mp cut).1
  have first := (ensureCovers_covers row other.baseId).limit
  have second := (ensureCovers_covers (row.ensureCovers other.baseId) 0).limit
  have zero : other.baseId.toNat = 0 := congrArg UInt32.toNat start
  have none : (0 : UInt32).toNat = 0 := rfl
  have bounded := toNat_lt row.baseId
  refine ⟨fun empty => ?_, by omega⟩
  rw [empty, List.length_nil] at first
  omega

private theorem whole_accumulates (nonzero : factor ≠ 0) (start : other.baseId = 0)
    (whole : other.coefs.length = 4294967296) (filled : row.coefs ≠ [])
    (reaches : 4294967296 ≤ row.baseId.toNat + row.coefs.length) :
    ∃ result, row.subtractScaled other factor field = .ok result ∧ Accumulates field row other factor result := by
  rw [subtractScaled_whole nonzero start whole]
  have otherFilled : other.coefs ≠ [] := by
    intro empty
    rw [empty] at whole
    cases whole
  have first := ensureCovers_covers row other.baseId
  have second := ensureCovers_covers (row.ensureCovers other.baseId) 0
  have grown : (row.ensureCovers other.baseId).coefs ≠ [] := by
    intro empty
    have firstStart := first.start
    have firstReach := first.reach
    rw [empty, List.length_nil] at firstReach
    omega
  have firstUpper := first.upper filled
  have secondUpper := second.upper grown
  have zero : other.baseId.toNat = 0 := congrArg UInt32.toNat start
  exact splice (enclose row otherFilled (by omega) (by rw [UInt32.toNat_zero]; omega) (by omega)) factor

end Whole

/-- The end of the other row is an id; or that row has all the ids, and this one its end. -/
def Admits (row other : DenseCoefs) : Prop := other.Bounded ∨ other.baseId = 0 ∧ ¬ row.Bounded

theorem Admits.congr {row' : DenseCoefs} (same : row.Bounded ↔ row'.Bounded) : row.Admits other ↔ row'.Admits other := by
  rw [Admits, Admits, same]

structure Subtracts (field : Config.Field) (row other : DenseCoefs) (factor : UInt8) (result : DenseCoefs) : Prop
    extends Accumulates field row other factor result where
  shaped : result.Shaped field
  bounded : result.Bounded ↔ row.Bounded

theorem filled_of_unbounded (unbounded : ¬ row.Bounded) : row.coefs ≠ [] := by
  intro empty
  have below := toNat_lt row.baseId
  rw [Bounded, empty, List.length_nil] at unbounded
  omega

theorem subtractScaled_eq (shaped : row.Shaped field) (otherShaped : other.Shaped field) (admits : row.Admits other)
    (factor : UInt8) :
    ∃ result, row.subtractScaled other factor field = .ok result ∧ Subtracts field row other factor result := by
  have addressed := shaped.addressed
  have otherAddressed := otherShaped.addressed
  have sums : ∃ result, row.subtractScaled other factor field = .ok result ∧ Accumulates field row other factor result := by
    by_cases simple : other.coefs = [] ∨ factor = 0 ∨ other.baseId.toNat + other.coefs.length < 4294967296
    · exact subtractScaled_accumulates field row other factor simple
    simp only [not_or] at simple
    obtain ⟨_, nonzero, ends⟩ := simple
    obtain ⟨start, unbounded⟩ := admits.resolve_left ends
    have zero : other.baseId.toNat = 0 := congrArg UInt32.toNat start
    unfold Addressed at otherAddressed
    exact whole_accumulates nonzero start (by omega) (filled_of_unbounded unbounded) (Nat.not_lt.mp unbounded)
  obtain ⟨result, returned, sum⟩ := sums
  have limit := sum.limit
  refine ⟨result, returned, sum, ⟨?_, sum.inField shaped.inField otherShaped.inField⟩, ?_⟩
  · unfold Addressed at *
    omega
  · by_cases bounded : row.Bounded
    · refine iff_of_true ?_ bounded
      have otherBounded := admits.resolve_right fun whole => whole.2 bounded
      unfold Bounded at *
      omega
    · refine iff_of_false (fun below => bounded ?_) bounded
      have reach := sum.reach (filled_of_unbounded bounded)
      unfold Bounded at *
      omega

/-- Nothing else can be subtracted. -/
theorem admits_of_subtractScaled (addressed : other.Addressed) (filled : other.coefs ≠ []) {factor : UInt8} (nonzero : factor ≠ 0)
    {result : DenseCoefs} (returned : row.subtractScaled other factor field = .ok result) : row.Admits other := by
  by_cases ends : other.Bounded
  · exact .inl ends
  have positive : 0 < other.coefs.length := List.length_pos_iff.mpr filled
  unfold Bounded at ends
  unfold Addressed at addressed
  by_cases start : other.baseId = 0
  · have zero : other.baseId.toNat = 0 := congrArg UInt32.toNat start
    obtain ⟨_, reaches⟩ := whole_needs nonzero start (by omega) returned
    exact .inr ⟨start, Nat.not_lt.mpr reaches⟩
  · have positiveBase : 0 < other.baseId.toNat := by
      rw [eq_iff, UInt32.toNat_zero] at start
      omega
    have past : ¬ other.baseId.toNat + (UInt32.ofNat other.coefs.length).toNat < 4294967296 := by
      rw [toNat_ofNat (by omega)]
      exact ends
    have overflow : row.subtractScaled other factor field = .panic .overflow := by
      rw [subtractScaled, if_neg (by simp [filled, nonzero]), addU32_overflow past]
      rfl
    rw [overflow] at returned
    cases returned

/-- Rows represent coefficient maps, and a scaled row is added at every id exactly when the added row
is empty, unscaled or ends below the last id; a row of all the ids can be added to one that also ends there. -/
theorem represent_iff (field : Config.Field) :
    (∀ (map : Std.TreeMap SourceSymbolId UInt8) (id : SourceSymbolId), (fromMap map).get id = map[id]?.getD 0) ∧
      ∀ row other : DenseCoefs, row.Addressed → other.Addressed → ∀ factor : UInt8,
        ((∃ result, row.subtractScaled other factor field = .ok result ∧
            ∀ id, result.get id = row.get id ^^^ mulByte field factor (other.get id)) ↔
          other.coefs = [] ∨ factor = 0 ∨ other.baseId.toNat + other.coefs.length < 4294967296 ∨
            (other.baseId = 0 ∧ row.coefs ≠ [] ∧ row.baseId.toNat + row.coefs.length = 4294967296)) := by
  refine ⟨get_fromMap, fun row other addressed otherAddressed factor => ⟨?_, ?_⟩⟩
  · rintro ⟨result, returned, _⟩
    by_contra never
    simp only [not_or, not_and] at never
    obtain ⟨filled, nonzero, ends, short⟩ := never
    obtain ⟨start, unbounded⟩ := (admits_of_subtractScaled otherAddressed filled nonzero returned).resolve_left ends
    unfold Bounded at unbounded
    unfold Addressed at addressed
    exact short start (filled_of_unbounded unbounded) (by omega)
  · intro fits
    have sums : ∃ result, row.subtractScaled other factor field = .ok result ∧ Accumulates field row other factor result := by
      by_cases simple : other.coefs = [] ∨ factor = 0 ∨ other.baseId.toNat + other.coefs.length < 4294967296
      · exact subtractScaled_accumulates field row other factor simple
      simp only [not_or] at simple
      obtain ⟨filled, nonzero, ends⟩ := simple
      obtain ⟨start, rowFilled, reaches⟩ := ((fits.resolve_left filled).resolve_left nonzero).resolve_left ends
      have zero : other.baseId.toNat = 0 := congrArg UInt32.toNat start
      unfold Addressed at otherAddressed
      exact whole_accumulates nonzero start (by omega) rowFilled (by omega)
    obtain ⟨result, returned, sum⟩ := sums
    exact ⟨result, returned, sum.get⟩

theorem represent_iff_fields :
    (fromMap ((∅ : Std.TreeMap SourceSymbolId UInt8).insert 3 7)).get 3 =
        ((∅ : Std.TreeMap SourceSymbolId UInt8).insert 3 7)[(3 : UInt32)]?.getD 0 ∧
      ∃ result, (⟨5, [1]⟩ : DenseCoefs).subtractScaled ⟨3, [7]⟩ 2 .gf2_8 = .ok result ∧
        ∀ id, result.get id = (⟨5, [1]⟩ : DenseCoefs).get id ^^^ mulByte .gf2_8 2 ((⟨3, [7]⟩ : DenseCoefs).get id) :=
  ⟨(represent_iff .gf2_8).1 _ 3, ((represent_iff .gf2_8).2 ⟨5, [1]⟩ ⟨3, [7]⟩ (by decide) (by decide) 2).mpr (by decide)⟩

/-- The last id cannot be added to a row: the end behind it is not an id. -/
theorem last_id_fails : ¬ ∃ result, (⟨0, [1]⟩ : DenseCoefs).subtractScaled ⟨0xFFFFFFFF, [1]⟩ 1 .gf2_8 = .ok result := by
  have overflow : (⟨0, [1]⟩ : DenseCoefs).subtractScaled ⟨0xFFFFFFFF, [1]⟩ 1 .gf2_8 = .panic .overflow := by decide +kernel
  rintro ⟨result, returned⟩
  rw [overflow] at returned
  cases returned

end SubtractScaled

section Pointwise

theorem scale_shaped (shaped : row.Shaped field) (factor : UInt8) : (row.scale factor field).Shaped field := by
  constructor
  · simpa only [Addressed, scale, mulScale_eq, List.length_map] using shaped.addressed
  · intro c member
    simp only [scale, mulScale_eq] at member
    obtain ⟨s, old, rfl⟩ := List.mem_map.mp member
    exact mulByte_inField (shaped.inField s old) factor

theorem scale_bounded (row : DenseCoefs) (factor : UInt8) : (row.scale factor field).Bounded ↔ row.Bounded := by
  simp only [Bounded, scale, mulScale_eq, List.length_map]

theorem get_scale (row : DenseCoefs) (factor : UInt8) (id : SourceSymbolId) :
    (row.scale factor field).get id = mulByte field factor (row.get id) := by
  rw [get_eq, get_eq]
  simp only [scale, mulScale_eq, getD_map_mulByte]
  split
  · rfl
  · rw [mulByte_zero]

theorem remove_shaped (shaped : row.Shaped field) (id : SourceSymbolId) : (row.remove id).Shaped field := by
  unfold remove
  split
  · exact shaped
  · refine ⟨by simpa only [Addressed, List.length_set] using shaped.addressed, fun c member => ?_⟩
    rcases List.mem_or_eq_of_mem_set member with member | rfl
    · exact shaped.inField c member
    · exact inField_zero

theorem remove_baseId (row : DenseCoefs) (id : SourceSymbolId) : (row.remove id).baseId = row.baseId := by
  unfold remove
  split <;> rfl

theorem length_remove (row : DenseCoefs) (id : SourceSymbolId) : (row.remove id).coefs.length = row.coefs.length := by
  unfold remove
  split
  · rfl
  · exact List.length_set

theorem remove_bounded (row : DenseCoefs) (id : SourceSymbolId) : (row.remove id).Bounded ↔ row.Bounded := by
  rw [Bounded, Bounded, remove_baseId, length_remove]

theorem get_remove (row : DenseCoefs) (id query : SourceSymbolId) :
    (row.remove id).get query = if query = id then 0 else row.get query := by
  unfold remove
  split
  next below =>
    split
    next same =>
      subst same
      rw [lt_iff] at below
      rw [get_eq, if_neg (by omega)]
    next => rfl
  next above =>
    rw [lt_iff, Nat.not_lt] at above
    rw [toNat_sub (by rwa [le_iff]), get_eq, get_eq]
    dsimp only
    rw [List.getD_eq_getElem?_getD, List.getElem?_set]
    split
    next room =>
      by_cases same : query = id
      · subst same
        rw [if_pos rfl, if_pos rfl]
        split <;> rfl
      · have apart : id.toNat - row.baseId.toNat ≠ query.toNat - row.baseId.toNat := by
          rw [eq_iff] at same
          omega
        rw [if_neg apart, if_neg same, ← List.getD_eq_getElem?_getD]
    next => rw [ite_self]

theorem isZero_iff (shaped : row.Shaped field) : row.isZero = true ↔ ∀ id, row.get id = 0 := by
  rw [isZero, List.all_eq_true]
  constructor
  · intro zeros id
    by_contra nonzero
    obtain ⟨above, inside⟩ := entry_of_get nonzero
    rw [get_eq, if_pos above, List.getD_eq_getElem _ _ inside] at nonzero
    exact nonzero (by simpa using zeros _ (List.getElem_mem inside))
  · intro zeros c member
    obtain ⟨i, inside, rfl⟩ := List.mem_iff_getElem.mp member
    have entry := get_entry row inside (by have := shaped.addressed; unfold Addressed at this; omega)
    rw [← entry, zeros, beq_self_eq_true]

end Pointwise

section Pivots

/-- The row has its first nonzero coefficient `c` at `id`. -/
structure LeadsWith (row : DenseCoefs) (id : SourceSymbolId) (c : UInt8) : Prop where
  coef : row.get id = c
  nonzero : c ≠ 0
  first : ∀ before, before < id → row.get before = 0
  pivotCoef : row.pivotCoef = some c
  pivotId : row.pivotId = .ok (some id)

private theorem entry_get (shaped : row.Shaped field) {c : UInt8} {i : Nat} (listed : (c, i) ∈ row.coefs.zipIdx) :
    i < row.coefs.length ∧ addU32 row.baseId (UInt32.ofNat i) = (.ok (row.baseId + UInt32.ofNat i) : Result UInt32) ∧
      row.get (row.baseId + UInt32.ofNat i) = c := by
  have found := List.mem_zipIdx_iff_getElem?.mp listed
  obtain ⟨inside, same⟩ := List.getElem?_eq_some_iff.mp found
  have bounded : row.baseId.toNat + row.coefs.length ≤ 4294967296 := shaped.addressed
  refine ⟨inside, if_pos ?_, (get_entry row inside (by omega)).trans same⟩
  rw [toNat_ofNat (by omega)]
  exact (show row.baseId.toNat + i < 4294967296 by omega)

private theorem listed_of_get {id : SourceSymbolId} (nonzero : row.get id ≠ 0) :
    (row.get id, id.toNat - row.baseId.toNat) ∈ row.coefs.zipIdx := by
  obtain ⟨above, inside⟩ := entry_of_get nonzero
  rw [List.mem_zipIdx_iff_getElem?, get_eq, if_pos above, List.getD_eq_getElem _ _ inside]
  exact List.getElem?_eq_getElem inside

theorem exists_pivot (shaped : row.Shaped field) (nonzero : row.isZero = false) : ∃ id c, row.LeadsWith id c := by
  have value : row.pivotCoef = (row.coefs.zipIdx.find? fun entry => entry.1 != 0).map (·.1) := by
    have unzipped : row.coefs = row.coefs.zipIdx.map (·.1) := (List.zipIdx_map_fst 0 row.coefs).symm
    rw [pivotCoef]
    conv_lhs => rw [unzipped]
    rw [List.find?_map]
    rfl
  cases found : row.coefs.zipIdx.find? fun entry => entry.1 != 0 with
  | none =>
    rw [found] at value
    have zeros := List.find?_eq_none.mp value
    have zero : row.isZero = true := List.all_eq_true.mpr fun c member => by simpa using zeros c member
    rw [zero] at nonzero
    cases nonzero
  | some entry =>
    obtain ⟨c, i⟩ := entry
    rw [found] at value
    obtain ⟨inside, added, coef⟩ := entry_get shaped (List.mem_of_find?_eq_some found)
    refine ⟨row.baseId + UInt32.ofNat i, c, coef, by simpa using List.find?_some found, ?_, value, ?_⟩
    · intro before earlier
      by_contra nonzero
      have bounded : row.baseId.toNat + row.coefs.length ≤ 4294967296 := shaped.addressed
      obtain ⟨above, listed⟩ := entry_of_get nonzero
      rw [lt_iff, toNat_add (by rw [toNat_ofNat (by omega)]; omega), toNat_ofNat (by omega)] at earlier
      obtain ⟨_, k, within, same, skipped⟩ := List.find?_eq_some_iff_getElem.mp found
      rw [List.getElem_zipIdx, Prod.mk.injEq] at same
      have zero := skipped (before.toNat - row.baseId.toNat) (by omega)
      rw [List.getElem_zipIdx] at zero
      rw [get_eq, if_pos above, List.getD_eq_getElem _ _ listed] at nonzero
      exact nonzero (by simpa using zero)
    · unfold pivotId
      split
      next absent => cases found.symm.trans absent
      next present =>
        cases found.symm.trans present
        simp only [added, Outcome.ok_bind, Outcome.pure_def]

def Solved (row : DenseCoefs) (id : SourceSymbolId) : Prop := row.get id ≠ 0 ∧ ∀ other, other ≠ id → row.get other = 0

theorem isSolved_eq (shaped : row.Shaped field) :
    ∃ found, row.isSolved = .ok found ∧ ∀ id, found = some id ↔ row.Solved id := by
  have nonzeros {c : UInt8} {i : Nat} :
      (c, i) ∈ row.coefs.zipIdx.filter (fun entry => entry.1 != 0) ↔ (c, i) ∈ row.coefs.zipIdx ∧ c ≠ 0 := by
    rw [List.mem_filter, bne_iff_ne]
  have listed {id : SourceSymbolId} (nonzero : row.get id ≠ 0) :
      (row.get id, id.toNat - row.baseId.toNat) ∈ row.coefs.zipIdx.filter (fun entry => entry.1 != 0) :=
    nonzeros.mpr ⟨listed_of_get nonzero, nonzero⟩
  unfold isSolved
  split
  next empty =>
    have found : row.coefs.zipIdx.filter (fun entry => entry.1 != 0) = [] := empty
    refine ⟨none, rfl, fun id => ⟨nofun, fun solved => ?_⟩⟩
    have member := listed solved.1
    rw [found] at member
    cases member
  next c i rest nonempty =>
    have found : row.coefs.zipIdx.filter (fun entry => entry.1 != 0) = (c, i) :: rest := nonempty
    have first := nonzeros.mp (found ▸ List.mem_cons_self : (c, i) ∈ row.coefs.zipIdx.filter fun entry => entry.1 != 0)
    obtain ⟨inside, added, coef⟩ := entry_get shaped first.1
    have bounded : row.baseId.toNat + row.coefs.length ≤ 4294967296 := shaped.addressed
    rw [added, Outcome.ok_bind]
    refine ⟨_, rfl, fun id => ?_⟩
    cases rest with
    | nil =>
      have only (other : SourceSymbolId) (nonzero : row.get other ≠ 0) : other = row.baseId + UInt32.ofNat i := by
        have member := listed nonzero
        rw [found, List.mem_singleton, Prod.mk.injEq] at member
        have above := (entry_of_get nonzero).1
        rw [eq_iff, toNat_add (by rw [toNat_ofNat (by omega)]; omega), toNat_ofNat (by omega)]
        omega
      simp only [List.isEmpty_nil, if_true, Option.some.injEq]
      constructor
      · rintro rfl
        exact ⟨by rw [coef]; exact first.2, fun other apart => by_contra fun nonzero => apart (only other nonzero)⟩
      · exact fun solved => (only id solved.1).symm
    | cons second rest =>
      obtain ⟨d, j⟩ := second
      have other := nonzeros.mp (found ▸ List.mem_cons_of_mem _ List.mem_cons_self :
        (d, j) ∈ row.coefs.zipIdx.filter fun entry => entry.1 != 0)
      obtain ⟨within, _, value⟩ := entry_get shaped other.1
      simp only [List.isEmpty_cons, Bool.false_eq_true, if_false, reduceCtorEq, false_iff]
      intro solved
      have same {k : Nat} {e : UInt8} (nonzero : e ≠ 0) (coef : row.get (row.baseId + UInt32.ofNat k) = e) :
          row.baseId + UInt32.ofNat k = id := by
        by_contra apart
        exact nonzero (coef ▸ solved.2 _ apart)
      have equal := (same first.2 coef).trans (same other.2 value).symm
      rw [UInt32.add_right_inj, eq_iff, toNat_ofNat (by omega), toNat_ofNat (by omega)] at equal
      have apart : ((c, i) :: (d, j) :: rest).map (·.2) |>.Nodup := by
        rw [← found]
        have indices : (row.coefs.zipIdx.map (·.2)).Nodup := by
          rw [List.zipIdx_map_snd]
          exact List.nodup_range'
        exact indices.sublist ((List.filter_sublist).map _)
      simp [equal] at apart

end Pivots

end Delp.DenseCoefs
