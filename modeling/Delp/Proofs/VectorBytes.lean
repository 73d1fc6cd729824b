import Delp.Proofs.ParseTotality

/-! Which bytes decide an encoding vector: its own, when its length covers the coefficients. -/

namespace Delp
open Machine

namespace IdStorage

/-- The bytes that an id field takes of its buffer, told from the counts and lengths in it. -/
def fieldBytes (buf : Bytes) (nbIds : ℕ) : IdStorageFormat → ℕ
  | .none => 0
  | .compressedList => 2 * (nbIds - 1)
  | .uncompressedEdges => 8 * Runs.taken nbIds ((edgeBlocks buf).map fun block => block.2 - block.1)
  | .compressedEdges => 4 * Runs.taken nbIds ((runBlocks buf).map Prod.snd)

theorem consumed_eq {buf : Bytes} {nbIds : ℕ} {first : UInt32} {ids : List UInt32} {consumed : ℕ} {format : IdStorageFormat}
    (decoded : decode buf nbIds first format = .ok (ids, consumed)) : consumed = fieldBytes buf nbIds format := by
  cases format with
  | none =>
    obtain ⟨found, _, decoded⟩ := Outcome.bind_eq_ok.mp decoded
    cases decoded
    rfl
  | compressedList =>
    simp only [decode, decodeCompressedList] at decoded
    split at decoded
    next one =>
      cases decoded
      rw [fieldBytes, one]
    next =>
      obtain ⟨deltas, subtracted, decoded⟩ := Outcome.bind_eq_ok.mp decoded
      obtain ⟨some, rfl⟩ := Outcome.guarded_eq_ok.mp subtracted
      split at decoded
      · cases decoded
      next enough =>
        obtain ⟨⟨later, final⟩, rest, decoded⟩ := Outcome.bind_eq_ok.mp decoded
        cases decoded
        obtain ⟨_, _, ended⟩ := decodeDeltas_ok buf 0 rfl rfl (show (0 : UInt8).toNat < 8 by decide) (by omega) rest
        rw [ended, Nat.zero_add]
        rfl
  | uncompressedEdges =>
    obtain ⟨used, gathered, rfl⟩ := (decodeUncompressedEdges_reads buf nbIds first).of_ok decoded
    rw [Nat.zero_add, Runs.taken_of_gather gathered, fieldBytes, edgeRuns, List.map_map]
    congr 3
    funext block
    exact Nat.add_sub_add_left _ _ _
  | compressedEdges =>
    obtain ⟨used, gathered, rfl⟩ := (decodeCompressedEdges_reads buf nbIds first).of_ok decoded
    rw [Nat.zero_add, Runs.taken_of_gather gathered, fieldBytes, Runs.walk_lengths]
    rfl

end IdStorage

structure SameFront (n : ℕ) (buf other : Bytes) : Prop where
  long : n ≤ buf.length
  same : other.take n = buf.take n

namespace SameFront
variable {n : ℕ} {buf other : Bytes}

theorem length_le (front : SameFront n buf other) : n ≤ other.length := by
  have length := congrArg List.length front.same
  rw [List.length_take, List.length_take, Nat.min_eq_left front.long] at length
  exact min_eq_left_iff.mp length

theorem getD_eq (front : SameFront n buf other) {i : ℕ} (inside : i < n) : other.getD i 0 = buf.getD i 0 := by
  have here := congrArg (fun bytes : Bytes => bytes[i]?) front.same
  simp only [List.getElem?_take, if_pos inside] at here
  rw [List.getD_eq_getElem?_getD, here, List.getD_eq_getElem?_getD]

theorem part_eq (front : SameFront n buf other) {start length : ℕ} (inside : start + length ≤ n) :
    (other.drop start).take length = (buf.drop start).take length := by
  rw [List.take_drop, List.take_drop]
  have shorter (bytes : Bytes) : bytes.take (start + length) = (bytes.take n).take (start + length) := by
    rw [List.take_take, Nat.min_eq_left inside]
  rw [shorter other, front.same, ← shorter]

theorem word_eq (front : SameFront n buf other) {start : ℕ} (inside : start + 4 ≤ n) :
    fromBeBytes (other.drop start) = fromBeBytes (buf.drop start) := by
  rw [← fromBeBytes_take, front.part_eq inside, fromBeBytes_take]

end SameFront

namespace EncodingVector

def idField (buf : Bytes) : Bytes :=
  (buf.drop (bodyStart (buf.getD 1 0))).take ((buf.getD 0 0).toNat * 4 - bodyStart (buf.getD 1 0))

def coefEnd (buf : Bytes) : ℕ :=
  let flags := buf.getD 1 0
  let nbCoefs := (buf.getD 3 0).toNat
  bodyStart flags + pad32 (IdStorage.fieldBytes (idField buf) (buf.getD 2 0).toNat (.fromWire ((flags >>> 2) &&& 0x3))) +
    if (flags >>> 4) &&& 0xF = 1 then nbCoefs else (nbCoefs + 1) / 2

def Contained (buf : Bytes) : Prop :=
  (buf.getD 1 0 >>> 1) &&& 0x1 = 1 → coefEnd buf ≤ (buf.getD 0 0).toNat * 4

instance (buf : Bytes) : Decidable (Contained buf) := inferInstanceAs (Decidable (_ → _))

theorem eight_le_bodyStart (flags : UInt8) : 8 ≤ bodyStart flags := by
  unfold bodyStart
  split <;> decide

theorem parseCoefs_congr {n : ℕ} {buf other : Bytes} (front : SameFront n buf other) {ccgi : UInt8} {field : Config.Field}
    (known : fieldOfCcgi ccgi = .ok field) {nbCoefs coefOffset : ℕ}
    (inside : coefOffset + (if ccgi = 1 then nbCoefs else (nbCoefs + 1) / 2) ≤ n) :
    parseCoefs other field nbCoefs coefOffset = parseCoefs buf field nbCoefs coefOffset := by
  have long := front.long
  have long' := front.length_le
  unfold fieldOfCcgi at known
  split at known
  next zero =>
    cases known
    rw [if_neg (by rw [zero]; decide)] at inside
    unfold parseCoefs
    dsimp only
    rw [if_neg (by omega), if_neg (by omega), slice_of (Nat.le_add_right _ _) (by omega), slice_of (Nat.le_add_right _ _) (by omega),
      Nat.add_sub_cancel_left, front.part_eq inside]
  split at known
  next one =>
    cases known
    rw [if_pos one] at inside
    unfold parseCoefs
    dsimp only
    rw [if_neg (by omega), if_neg (by omega), slice_of (Nat.le_add_right _ _) (by omega), slice_of (Nat.le_add_right _ _) (by omega),
      Nat.add_sub_cancel_left, front.part_eq inside]
  next => cases known

theorem parseCoefs_inside {buf : Bytes} {ccgi : UInt8} {field : Config.Field} (known : fieldOfCcgi ccgi = .ok field)
    {nbCoefs coefOffset : ℕ} {coefficients : Bytes} (parsed : parseCoefs buf field nbCoefs coefOffset = .ok coefficients) :
    coefOffset + (if ccgi = 1 then nbCoefs else (nbCoefs + 1) / 2) ≤ buf.length := by
  unfold fieldOfCcgi at known
  split at known
  next zero =>
    cases known
    rw [if_neg (by rw [zero]; decide)]
    unfold parseCoefs at parsed
    dsimp only at parsed
    split at parsed
    · cases parsed
    next enough => exact Nat.le_of_not_lt enough
  split at known
  next one =>
    cases known
    rw [if_pos one]
    unfold parseCoefs at parsed
    dsimp only at parsed
    split at parsed
    · cases parsed
    next enough => exact Nat.le_of_not_lt enough
  next => cases known

/-- A vector is parsed by its own bytes when they hold its coefficients. -/
theorem parse_congr {buf other : Bytes} (front : SameFront ((buf.getD 0 0).toNat * 4) buf other)
    (start : bodyStart (buf.getD 1 0) ≤ (buf.getD 0 0).toNat * 4) (contained : Contained buf) (codedId : UInt32) :
    parse other codedId = parse buf codedId := by
  have room := (eight_le_bodyStart (buf.getD 1 0)).trans start
  have long := front.long
  have long' := front.length_le
  have byte (i : ℕ) (inside : i < 8) : (index buf i : Result UInt8) = .ok (buf.getD i 0) := index_of (by omega)
  have byte' (i : ℕ) (inside : i < 8) : (index other i : Result UInt8) = .ok (buf.getD i 0) := by
    rw [index_of (by omega), front.getD_eq (by omega)]
  have generation : parseGeneration other (buf.getD 1 0 &&& 0x1) = parseGeneration buf (buf.getD 1 0 &&& 0x1) := by
    unfold parseGeneration
    split
    next set =>
      rw [bodyStart, if_pos set] at start
      rw [if_neg (by omega), if_neg (by omega), index_of (by omega), index_of (by omega), front.getD_eq (by omega)]
    next => rfl
  unfold parse
  rw [if_neg (by omega), if_neg (by omega), byte 0 (by decide), byte' 0 (by decide), Outcome.ok_bind, Outcome.ok_bind]
  dsimp only
  rw [if_neg (by omega), if_neg (by omega), byte 1 (by decide), byte' 1 (by decide), Outcome.ok_bind, Outcome.ok_bind,
    byte 2 (by decide), byte' 2 (by decide), byte 3 (by decide), byte' 3 (by decide), readU32_of (show 4 + 4 ≤ other.length by omega),
    readU32_of (show 4 + 4 ≤ buf.length by omega), front.word_eq (by omega), generation]
  simp only [Outcome.ok_bind]
  refine Outcome.bind_congr fun field known => ?_
  split
  · rfl
  split
  · rfl
  rcases parseGeneration_eq (show 8 ≤ buf.length by omega) (buf.getD 1 0) with ⟨_, generation, read⟩ | ⟨_, error, refused⟩
  swap
  · rw [refused]
    rfl
  rw [read, Outcome.ok_bind, Outcome.ok_bind]
  dsimp only
  rw [slice_of start long', slice_of start long, front.part_eq (by omega), Outcome.ok_bind, Outcome.ok_bind]
  refine Outcome.bind_congr fun decoded ids => ?_
  obtain ⟨sourceIds, consumed⟩ := decoded
  dsimp only
  split
  next explicit =>
    have inside := contained explicit
    rw [coefEnd, idField, ← IdStorage.consumed_eq ids] at inside
    rw [parseCoefs_congr front known inside]
  next => rfl

/-- A parsed vector is what its own bytes say: their number is announced, and they are parsed to the same
vector, by themselves and in front of whatever else. -/
structure OwnBytes (buf : Bytes) (codedId : UInt32) (ev : EncodingVector) (consumed : ℕ) : Prop where
  length : consumed = 4 * (buf.getD 0 0).toNat
  inside : consumed ≤ buf.length
  alone : parse (buf.take consumed) codedId = .ok (ev, consumed)
  decides : ∀ other : Bytes, other.take consumed = buf.take consumed → parse other codedId = .ok (ev, consumed)

/-- A parsed vector is decided by its own bytes exactly if it has no explicit coefficients, or its length
covers them. -/
theorem own_bytes_iff {buf : Bytes} {codedId : UInt32} {ev : EncodingVector} {consumed : ℕ}
    (parsed : parse buf codedId = .ok (ev, consumed)) : OwnBytes buf codedId ev consumed ↔ Contained buf := by
  have parses := parse_ok parsed
  have length := parses.length
  obtain ⟨start, fits⟩ := parses.covers
  have decides (contained : Contained buf) (other : Bytes) (same : other.take consumed = buf.take consumed) :
      parse other codedId = .ok (ev, consumed) := by
    rw [← parsed]
    apply parse_congr ⟨by rw [← length]; exact fits, by rw [← length]; exact same⟩ _ contained
    rw [← length]
    exact start
  constructor
  · intro own explicit
    have front : SameFront consumed buf (buf.take consumed) := ⟨fits, by rw [List.take_take, Nat.min_self]⟩
    have room := (eight_le_bodyStart (buf.getD 1 0)).trans start
    have short := parse_ok own.alone
    have field := short.field
    obtain ⟨idBytes, decoded, coefs⟩ := short.ids
    rw [front.getD_eq (by omega)] at field decoded coefs
    rw [front.getD_eq (by omega), front.getD_eq (by omega)] at coefs
    obtain ⟨implicit, _⟩ | ⟨_, coefs⟩ := coefs
    · exact absurd explicit implicit
    have inside := parseCoefs_inside field coefs
    rw [front.getD_eq (by omega), front.part_eq (by omega)] at decoded
    rw [List.length_take, Nat.min_eq_left fits] at inside
    rw [coefEnd, idField, ← length, ← IdStorage.consumed_eq decoded]
    exact inside
  · intro contained
    refine ⟨by rw [length, Nat.mul_comm], fits, decides contained _ ?_, decides contained⟩
    rw [List.take_take, Nat.min_self]

/-- Three words hold an id and its coefficient, in front of a payload. -/
theorem own_bytes_iff_explicit :
    ∃ ev, parse [3, 0x12, 1, 1, 0, 0, 0, 7, 5, 0, 0, 0, 9] 1 = .ok (ev, 12) ∧ ev.coefficients = [5] ∧
      OwnBytes [3, 0x12, 1, 1, 0, 0, 0, 7, 5, 0, 0, 0, 9] 1 ev 12 := by
  refine ⟨⟨.gf2_8, 1, 0, .none, [7], [5]⟩, by decide, rfl, ?_⟩
  exact (own_bytes_iff (by decide)).mpr (by decide)

/-- The same vector in two words: its coefficient is the first byte of the payload. -/
theorem own_bytes_fails :
    parse [2, 0x12, 1, 1, 0, 0, 0, 7, 5] 1 = .ok (⟨.gf2_8, 1, 0, .none, [7], [5]⟩, 8) ∧
      parse [2, 0x12, 1, 1, 0, 0, 0, 7, 6] 1 = .ok (⟨.gf2_8, 1, 0, .none, [7], [6]⟩, 8) ∧
      parse [2, 0x12, 1, 1, 0, 0, 0, 7] 1 = .err (.bufferTooShort 9 8) := by
  decide

end EncodingVector
end Delp
