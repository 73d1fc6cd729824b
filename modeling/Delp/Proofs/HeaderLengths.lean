import Delp.Proofs.IdFormats
import Delp.Proofs.PacketRoundTrip

/-! The lengths of outgoing headers, told from what goes into them, and the packet kinds whose
`HDR_LEN` says that length. -/

namespace Delp
open Machine

namespace IdStorage

def Encodable : IdStorageFormat → List UInt32 → Prop
  | .none, _ => True
  | _, [] => False
  | .compressedList, _ :: _ => True
  | .uncompressedEdges, first :: ids => 4294967295 ∉ first :: ids ∧ ∀ id ∈ first :: ids, first ≤ id
  | .compressedEdges, first :: ids => 4294967295 ∉ first :: ids ∧ (first :: ids).Pairwise (· < ·)

def fieldWords : IdStorageFormat → List UInt32 → ℕ
  | .none, _ | _, [] => 0
  | .compressedList, _ :: ids => (ids.length + 1) / 2
  | .uncompressedEdges, first :: ids => 2 * (runs first ids).length
  | .compressedEdges, first :: ids => (runs first ids).length

section Writers
variable {base : UInt32} {blocks : List (UInt32 × UInt32)}

private theorem edges_above {out bits : Bytes} (wrote : (blocks.foldlM (fun out block => do
      let start ← subU32 block.1 base
      let last ← subU32 block.2 base
      pure (out ++ toBeBytes start ++ toBeBytes last)) out : Result Bytes) = .ok bits)
    {block : UInt32 × UInt32} (member : block ∈ blocks) : base ≤ block.1 := by
  induction blocks generalizing out with
  | nil => cases member
  | cons other blocks ih =>
    obtain ⟨next, turn, rest⟩ := Outcome.bind_eq_ok.mp wrote
    obtain ⟨start, above, _⟩ := Outcome.bind_eq_ok.mp turn
    rcases List.mem_cons.mp member with rfl | later
    · exact (subU32_eq_ok.mp above).1
    · exact ih rest later

private theorem edges_follow {prev : UInt32} {writer : BitWriter} {final : BitWriter × UInt32}
    (looped : (blocks.foldlM (fun (state : BitWriter × UInt32) block => do
      let offset ← subU32 block.1 base
      let dStart ← subU32 offset state.2
      let dLen ← subU32 block.2 block.1
      let last ← subU32 block.2 base
      pure ((state.1.writeBits dStart 16).writeBits dLen 16, last)) (writer, prev) : Result (BitWriter × UInt32)) = .ok final)
    (nonempty : ∀ block ∈ blocks, block.1.toNat < block.2.toNat) :
    Runs.Ordered (base.toNat + prev.toNat) (blocks.map numbers) := by
  induction blocks generalizing prev writer with
  | nil => trivial
  | cons block blocks ih =>
    obtain ⟨next, turn, rest⟩ := Outcome.bind_eq_ok.mp looped
    obtain ⟨offset, started, turn⟩ := Outcome.bind_eq_ok.mp turn
    obtain ⟨gap, skipped, turn⟩ := Outcome.bind_eq_ok.mp turn
    obtain ⟨length, _, turn⟩ := Outcome.bind_eq_ok.mp turn
    obtain ⟨last, ended, turn⟩ := Outcome.bind_eq_ok.mp turn
    obtain ⟨above, rfl⟩ := subU32_eq_ok.mp started
    obtain ⟨later, _⟩ := subU32_eq_ok.mp skipped
    obtain ⟨high, rfl⟩ := subU32_eq_ok.mp ended
    obtain rfl := Outcome.ok.inj turn
    have ends : base.toNat + (block.2 - base).toNat = block.2.toNat := by
      rw [toNat_sub high, Nat.add_sub_cancel' ((le_iff _ _).mp high)]
    have start : prev.toNat ≤ (block.1 - base).toNat := (le_iff _ _).mp later
    rw [toNat_sub above] at start
    have low := (le_iff _ _).mp above
    have others := ih rest fun other member => nonempty other (List.mem_cons_of_mem _ member)
    rw [ends] at others
    refine ⟨?_, nonempty block List.mem_cons_self, others⟩
    dsimp only [numbers]
    omega

end Writers

section Fields
variable {first : UInt32} {ids : List UInt32}

theorem uncompressedEdges_encodable {bits : Bytes} (encoded : encodeUncompressedEdges (first :: ids) = .ok bits) :
    4294967295 ∉ first :: ids ∧ ∀ id ∈ first :: ids, first ≤ id := by
  rcases toBlocks_eq first ids with ⟨bounded, blocks, split, same⟩ | ⟨_, overflow⟩
  swap
  · rw [encodeUncompressedEdges, overflow] at encoded
    cases encoded
  rw [encodeUncompressedEdges, split, Outcome.ok_bind] at encoded
  obtain ⟨base, here, encoded⟩ := Outcome.bind_eq_ok.mp encoded
  obtain rfl := Outcome.ok.inj here
  refine ⟨bounded, fun id member => ?_⟩
  have starts (run : ℕ × ℕ) (listed : run ∈ runs first ids) : first.toNat ≤ run.1 := by
    rw [← same] at listed
    obtain ⟨block, inside, rfl⟩ := List.mem_map.mp listed
    exact (le_iff _ _).mp (edges_above encoded inside)
  have number : id.toNat ∈ Runs.expand (runs first ids) := by
    rw [expand_runs]
    exact List.mem_map_of_mem member
  exact (le_iff _ _).mpr (Runs.le_of_mem_expand starts number)

theorem compressedEdges_encodable {bits : Bytes} (encoded : encodeCompressedEdges (first :: ids) = .ok bits) :
    4294967295 ∉ first :: ids ∧ (first :: ids).Pairwise (· < ·) := by
  rcases toBlocks_eq first ids with ⟨bounded, blocks, split, same⟩ | ⟨_, overflow⟩
  swap
  · rw [encodeCompressedEdges, overflow] at encoded
    cases encoded
  rw [encodeCompressedEdges, split, Outcome.ok_bind] at encoded
  obtain ⟨base, here, encoded⟩ := Outcome.bind_eq_ok.mp encoded
  obtain rfl := Outcome.ok.inj here
  refine ⟨bounded, ?_⟩
  obtain ⟨final, looped, _⟩ := Outcome.bind_eq_ok.mp encoded
  have ordered := edges_follow looped fun block member => (of_mem_runs (same ▸ List.mem_map_of_mem (f := numbers) member)).2
  rw [same] at ordered
  have ascending := ordered.ascending
  rw [expand_runs] at ascending
  exact (List.pairwise_map.mp ascending).imp fun less => (lt_iff _ _).mpr less

/-- The id field is written exactly for the lists that its format can write, in so many words. -/
theorem encode_cases (ids : List UInt32) (format : IdStorageFormat) :
    (Encodable format ids ∧ ∃ bits, encode ids format = .ok bits ∧ pad32 bits.length = 4 * fieldWords format ids) ∨
      ¬ Encodable format ids ∧ ∀ bits, encode ids format ≠ .ok bits := by
  cases ids with
  | nil =>
    cases format with
    | none => exact .inl ⟨trivial, [], rfl, rfl⟩
    | compressedList | uncompressedEdges | compressedEdges => exact .inr ⟨fun none => none, fun bits encoded => (nomatch encoded)⟩
  | cons first ids =>
    cases format with
    | none => exact .inl ⟨trivial, [], rfl, rfl⟩
    | compressedList =>
      obtain ⟨bits, encoded, length, _⟩ := encodeCompressedList_written first ids
      refine .inl ⟨trivial, bits, encoded, ?_⟩
      rw [length, pad32, fieldWords]
      omega
    | uncompressedEdges =>
      by_cases encodable : Encodable .uncompressedEdges (first :: ids)
      · obtain ⟨bits, encoded, length, _⟩ := encodeUncompressedEdges_spelled encodable.2 encodable.1
        refine .inl ⟨encodable, bits, encoded, ?_⟩
        rw [length, pad32, fieldWords]
        omega
      · exact .inr ⟨encodable, fun bits encoded => encodable (uncompressedEdges_encodable encoded)⟩
    | compressedEdges =>
      by_cases encodable : Encodable .compressedEdges (first :: ids)
      · have ascending := encodable.2.isChain.imp fun a b less => (lt_iff a b).mp less
        obtain ⟨bits, encoded, length, _⟩ := encodeCompressedEdges_spelled ascending encodable.1
        refine .inl ⟨encodable, bits, encoded, ?_⟩
        rw [length, pad32, fieldWords]
        omega
      · exact .inr ⟨encodable, fun bits encoded => encodable (compressedEdges_encodable encoded)⟩

end Fields
end IdStorage

namespace EncodingVector

def coefWords (field : Config.Field) (nbCoefs : ℕ) : ℕ :=
  match field with
  | .gf2_8 => (nbCoefs + 3) / 4
  | .gf2_4 => (nbCoefs + 7) / 8

/-- The words of an encoding vector: two of fixed fields, the generation, the ids and the coefficients. -/
def words (ev : EncodingVector) : ℕ :=
  2 + (if ev.generation = 0 then 0 else 1) + IdStorage.fieldWords ev.idFormat ev.sourceIds +
    coefWords ev.field ev.coefficients.length

private theorem genBlock_words (ev : EncodingVector) : ev.genBlock.length = 4 * if ev.generation = 0 then 0 else 1 := by
  rw [length_genBlock, hasGeneration]
  by_cases none : ev.generation = 0
  · rw [none]
    rfl
  · rw [if_pos (bne_iff_ne.mpr none), if_neg none]

private theorem coefBytes_words (ev : EncodingVector) : ev.coefBytes.length = 4 * coefWords ev.field ev.coefficients.length := by
  rw [coefBytes, hasExplicitCoefs]
  cases ev.coefficients with
  | nil => cases ev.field <;> rfl
  | cons coef coefs =>
    rw [List.isEmpty_cons, Bool.not_false, if_pos rfl]
    dsimp only
    rw [length_resize _ (pad32_le _).1, pad32]
    cases ev.field with
    | gf2_8 => exact Nat.mul_comm _ 4
    | gf2_4 =>
      dsimp only [coefWords]
      rw [length_packNibbles]
      omega

theorem serialise_cases (ev : EncodingVector) :
    (IdStorage.Encodable ev.idFormat ev.sourceIds ∧ ∃ bytes, ev.serialise = .ok bytes ∧ bytes.length = 4 * ev.words) ∨
      ¬ IdStorage.Encodable ev.idFormat ev.sourceIds ∧ ∀ bytes, ev.serialise ≠ .ok bytes := by
  rcases IdStorage.encode_cases ev.sourceIds ev.idFormat with ⟨encodable, bits, encoded, length⟩ | ⟨other, stuck⟩
  · refine .inl ⟨encodable, ?_⟩
    rw [serialise, encoded, Outcome.ok_bind]
    refine ⟨_, rfl, ?_⟩
    have field : (resize bits (pad32 bits.length)).length = 4 * IdStorage.fieldWords ev.idFormat ev.sourceIds :=
      (length_resize bits (pad32_le _).1).trans length
    simp only [List.length_append, field, length_toBeBytes, genBlock_words, coefBytes_words, List.length_cons, List.length_nil]
    unfold words
    ring
  · refine .inr ⟨other, fun bytes serialised => ?_⟩
    obtain ⟨bits, encoded, _⟩ := Outcome.bind_eq_ok.mp serialised
    exact stuck bits encoded

end EncodingVector

inductive Outgoing where
  | source (sourceSymbolId : UInt32) (payload cci : Bytes) (tsi : Option UInt32)
  | coded (codedSymbolId : UInt32) (ev : EncodingVector) (payload cci : Bytes) (tsi : Option UInt32)
  | feedback (packet : FeedbackPacket)

namespace Outgoing

def serialise : Outgoing → Result Bytes
  | source id payload cci tsi => SourcePacket.serialise id payload cci tsi
  | coded id ev payload cci tsi => CodedPacket.serialise id ev payload cci tsi
  | feedback packet => .ok packet.serialise

/-- The part whose length varies: the payload, or the SACK vector up to a word boundary. -/
def variablePart : Outgoing → Bytes
  | source _ payload _ _ | coded _ _ payload _ _ => payload
  | feedback packet => resize packet.sack (pad32 packet.sack.length)

/-- The packets whose header can be counted: every source packet, and a coded packet whose ids its
format can write and whose header has at most 255 words; no feedback packet. -/
def HeaderCounts : Outgoing → Prop
  | source _ _ cci _ => CciFits cci
  | coded _ ev _ cci tsi => CciFits cci ∧ IdStorage.Encodable ev.idFormat ev.sourceIds ∧
      2 + cci.length / 4 + tsi.isSome.toNat + ev.words ≤ 255
  | feedback _ => False

end Outgoing

/-- A packet whose `HDR_LEN` is the offset at which its variable part begins. -/
def Truthful (bytes variablePart : Bytes) : Prop :=
  ∃ front, bytes = front ++ variablePart ∧ (CommonHeader.ofBytes bytes).hdrLenWords.toNat * 4 = front.length

theorem truthful_iff (front variablePart : Bytes) : Truthful (front ++ variablePart) variablePart ↔
    (CommonHeader.ofBytes (front ++ variablePart)).hdrLenWords.toNat * 4 = front.length := by
  constructor
  · rintro ⟨other, same, length⟩
    rwa [← List.append_cancel_right same] at length
  · exact fun length => ⟨front, rfl, length⟩

theorem CommonHeader.length_toBytes (header : CommonHeader) : header.toBytes.length = 4 := rfl

private theorem length_tsiBytes (tsi : Option UInt32) : (tsiBytes tsi).length = 4 * tsi.isSome.toNat := by
  cases tsi <;> rfl

namespace SourcePacket

theorem serialise_truthful {cci : Bytes} (fits : CciFits cci) (tsi : Option UInt32) (id : UInt32) (payload : Bytes) :
    ∃ bytes, serialise id payload cci tsi = .ok bytes ∧ Truthful bytes payload := by
  obtain ⟨words, length, counted⟩ := CommonHeader.words_fit Bytes fits tsi.isSome
  rw [serialise, Outcome.require_of fits, Outcome.ok_bind]
  dsimp only
  rw [counted]
  refine ⟨_, rfl, (truthful_iff _ payload).mpr ?_⟩
  refine length.trans ?_
  simp only [List.length_append, length_toBeBytes, CommonHeader.length_toBytes, length_tsiBytes]
  cases tsi with
  | none => exact Nat.add_right_comm 4 4 _
  | some =>
    simp only [Option.isSome_some, ↓reduceIte, Bool.toNat_true]
    omega

end SourcePacket

namespace CodedPacket

/-- The header length of a coded packet is right as long as it fits its byte. -/
theorem serialise_truthful_iff {cci : Bytes} (fits : CciFits cci) (tsi : Option UInt32) (id : UInt32) {ev : EncodingVector}
    {vector : Bytes} (serialised : ev.serialise = .ok vector) (length : vector.length = 4 * ev.words) (payload : Bytes) :
    (∃ bytes, serialise id ev payload cci tsi = .ok bytes ∧ Truthful bytes payload) ↔
      2 + cci.length / 4 + tsi.isSome.toNat + ev.words ≤ 255 := by
  obtain ⟨words, counted, next⟩ := CommonHeader.words_fit Bytes fits tsi.isSome
  have front : words.toNat = 2 + cci.length / 4 + tsi.isSome.toNat := by
    have aligned := fits.1
    cases tsi <;> simp at counted ⊢ <;> omega
  have evWords : (vector.length + 3) / 4 = ev.words := by omega
  have aligned : (4 - vector.length % 4) % 4 = 0 := by omega
  have truthful (total : UInt8) : Truthful ((CommonHeader.new .coded (.fromWords (UInt8.ofNat (cci.length / 4))) tsi.isSome total).toBytes ++
        cci ++ tsiBytes tsi ++ toBeBytes id ++ vector ++ List.replicate 0 0 ++ payload) payload ↔
      total.toNat = 2 + cci.length / 4 + tsi.isSome.toNat + ev.words := by
    have words := fits.1
    rw [truthful_iff, List.replicate_zero, List.append_nil]
    change total.toNat * 4 = _ ↔ _
    simp only [List.length_append, CommonHeader.length_toBytes, length_toBeBytes, length_tsiBytes, length]
    omega
  rw [serialise, Outcome.require_of fits, Outcome.ok_bind, serialised, Outcome.ok_bind]
  dsimp only
  rw [next, evWords, aligned]
  constructor
  · rintro ⟨bytes, wrote, length⟩
    obtain ⟨total, _, same⟩ := Outcome.bind_eq_ok.mp wrote
    obtain rfl := Outcome.ok.inj same
    have bounded : total.toNat < 256 := total.toNat_lt
    rw [(truthful total).mp length] at bounded
    exact Nat.le_of_lt_succ bounded
  · intro short
    have cast : (UInt8.ofNat ev.words).toNat = ev.words := by
      rw [UInt8.toNat_ofNat', Nat.mod_eq_of_lt (by omega)]
    have fits : words.toNat + (UInt8.ofNat ev.words).toNat < 256 := by omega
    rw [addU8_eq_ok.mpr ⟨fits, rfl⟩, Outcome.ok_bind]
    refine ⟨_, rfl, (truthful _).mpr ?_⟩
    rw [UInt8.toNat_add, Nat.mod_eq_of_lt fits, cast, front]

end CodedPacket

/-- A feedback packet counts one word less than it writes before the SACK vector. -/
theorem FeedbackPacket.serialise_not_truthful (packet : FeedbackPacket) :
    ¬ Truthful packet.serialise (resize packet.sack (pad32 packet.sack.length)) := by
  obtain ⟨tsi, nbMissingSrc, nbNotUsedCoded, firstSrcId, plrRaw, sack⟩ := packet
  rw [serialise, truthful_iff]
  simp only [List.length_append, CommonHeader.length_toBytes, length_toBeBytes, length_tsiBytes]
  cases tsi with
  | none => exact fun same : 4 * 4 = 20 => (nomatch same)
  | some => exact fun same : 5 * 4 = 24 => (nomatch same)

def Outgoing.HeaderTruthful (packet : Outgoing) : Prop :=
  ∃ bytes, packet.serialise = .ok bytes ∧ Truthful bytes packet.variablePart

/-- `HDR_LEN` is truthful in exactly the packets whose header can be counted. -/
theorem Outgoing.header_truthful_iff (packet : Outgoing) : packet.HeaderTruthful ↔ packet.HeaderCounts := by
  cases packet with
  | source id payload cci tsi =>
    refine ⟨fun truthful => ?_, fun fits => SourcePacket.serialise_truthful fits tsi id payload⟩
    obtain ⟨bytes, serialised, _⟩ := truthful
    obtain ⟨_, asserted, _⟩ := Outcome.bind_eq_ok.mp serialised
    have fits := Outcome.require_eq_ok.mp asserted
    exact fits
  | coded id ev payload cci tsi =>
    by_cases fits : CciFits cci
    swap
    · refine iff_of_false (fun truthful => fits ?_) fun counts => fits counts.1
      obtain ⟨bytes, serialised, _⟩ := truthful
      obtain ⟨_, fits, _⟩ := Outcome.bind_eq_ok.mp serialised
      exact Outcome.require_eq_ok.mp fits
    rcases ev.serialise_cases with ⟨encodable, vector, serialised, length⟩ | ⟨other, stuck⟩
    · exact (CodedPacket.serialise_truthful_iff fits tsi id serialised length payload).trans
        (by simp only [HeaderCounts, fits, encodable, true_and])
    · refine iff_of_false (fun truthful => ?_) fun counts => other counts.2.1
      obtain ⟨bytes, serialised, _⟩ := truthful
      obtain ⟨_, _, serialised⟩ := Outcome.bind_eq_ok.mp serialised
      obtain ⟨vector, wrote, _⟩ := Outcome.bind_eq_ok.mp serialised
      exact stuck vector wrote
  | feedback packet =>
    apply iff_of_false _ id
    intro truthful
    obtain ⟨bytes, serialised, truthful⟩ := truthful
    obtain rfl := Outcome.ok.inj serialised
    exact packet.serialise_not_truthful truthful

/-- The SACK vector of a feedback packet begins at byte 20, where `HDR_LEN` says 16. The edges of 127
lone ids take 256 words, of which the header counts none. -/
theorem Outgoing.header_truthful_fails :
    (feedback ⟨none, 0, 0, 0, 0, [0x80]⟩).serialise = .ok ([16, 0, 4, 2] ++ List.replicate 13 0 ++ [1, 0, 0] ++ [0x80, 0, 0, 0]) ∧
      ¬ (feedback ⟨none, 0, 0, 0, 0, [0x80]⟩).HeaderTruthful ∧
      ¬ (coded 0 ⟨.gf2_8, 0, 0, .uncompressedEdges, (List.range 127).map fun i => UInt32.ofNat (2 * i), []⟩ [] [] none).HeaderTruthful := by
  refine ⟨by decide +kernel, fun truthful => ?_, fun truthful => ?_⟩
  · obtain ⟨bytes, serialised, truthful⟩ := truthful
    obtain rfl := Outcome.ok.inj serialised
    exact FeedbackPacket.serialise_not_truthful _ truthful
  · rcases EncodingVector.serialise_cases ⟨.gf2_8, 0, 0, .uncompressedEdges, (List.range 127).map fun i => UInt32.ofNat (2 * i), []⟩
      with ⟨_, vector, serialised, length⟩ | ⟨_, stuck⟩
    · exact absurd ((CodedPacket.serialise_truthful_iff (by decide) none 0 serialised length []).mp truthful) (by decide +kernel)
    · obtain ⟨bytes, serialised, _⟩ := truthful
      obtain ⟨_, _, serialised⟩ := Outcome.bind_eq_ok.mp serialised
      obtain ⟨vector, wrote, _⟩ := Outcome.bind_eq_ok.mp serialised
      exact stuck vector wrote

end Delp
