import Delp.Proofs.TrueDelivery

/-! A channel that loses and duplicates datagrams but never lets one overtake another: no source packet
comes late on it. -/

namespace Delp
open Machine

theorem Arrival.sourcesFirst_concat {arrivals : List Arrival} {arrival : Arrival} (first : SourcesFirst arrivals)
    (timely : arrival.Timely arrivals) : SourcesFirst (arrivals ++ [arrival]) := by
  intro i inside
  rw [List.length_append, List.length_singleton] at inside
  rcases Nat.lt_succ_iff_lt_or_eq.mp inside with before | rfl
  · rw [List.getElem_append_left before, List.take_append_of_le_length (Nat.le_of_lt before)]
    exact first i before
  · rw [List.getElem_concat_length rfl, List.take_left]
    exact timely

namespace Network
variable {W C F P : Type}

/-- The position among all datagrams of the one that a step delivers to a receiver. -/
def positionAt (receiver : ReceiverId) (call : Call (Network W C F P) NetworkAction NetworkReply) : Option ℕ :=
  match call.input with
  | .deliver target index => if target = receiver then some index else none
  | _ => none

/-- No datagram reaches the receiver after one that was sent later. -/
def InOrder (receiver : ReceiverId) (calls : List (Call (Network W C F P) NetworkAction NetworkReply)) : Prop :=
  (calls.filterMap (positionAt receiver)).Pairwise (· ≤ ·)

def ReadAt (receiver : ReceiverId) (calls : List (Call (Network W C F P) NetworkAction NetworkReply)) (state : Network W C F P)
    (arrival : Arrival) : Prop :=
  ∃ index ∈ calls.filterMap (positionAt receiver), ∃ datagram, state.sent[index]? = some datagram ∧ arrival.Reads datagram.raw

variable [WindowPolicy W] [CongestionControl C] [FecRateController F] [FeedbackPolicy P]
  {config : EncoderConfig} {windowPolicy : W} {cc : C} {fec : F} {receivers : ReceiverId → DecoderConfig × P}
  {calls : List (Call (Network W C F P) NetworkAction NetworkReply)} {final : Network W C F P} {receiver : ReceiverId}

theorem step_sent {before after : Network W C F P} {action : NetworkAction} {reply : NetworkReply}
    (steps : Steps before action reply after) {index : ℕ} {datagram : Datagram} (found : before.sent[index]? = some datagram) :
    after.sent[index]? = some datagram := by
  cases steps with
  | encoded =>
    show (before.sent ++ _)[index]? = some datagram
    rw [List.getElem?_append_left (List.getElem?_eq_some_iff.mp found).1, found]
  | handled | dropped | acknowledged | ignored => exact found

omit [WindowPolicy W] [CongestionControl C] [FecRateController F] [FeedbackPolicy P] in
private theorem timely_of_inOrder {state : Network W C F P} (ordered : state.sent.Pairwise Datagram.Follows) {index : ℕ}
    {datagram : Datagram} {arrival : Arrival} (found : state.sent[index]? = some datagram) (reads : arrival.Reads datagram.raw)
    {earlier : List Arrival} (behind : ∀ prior ∈ earlier, ∃ position ≤ index, ∃ other, state.sent[position]? = some other ∧
      prior.Reads other.raw) : arrival.Timely earlier := by
  cases arrival with
  | coded packet => trivial
  | source packet =>
    by_cases copied : ∃ prior ∈ earlier, prior.kind = .source ∧ packet.sourceSymbolId ∈ prior.ids
    · exact .inl copied
    refine .inr fun prior member covered => ?_
    obtain ⟨position, before, other, sent, read⟩ := behind prior member
    cases prior with
    | source same => exact copied ⟨_, member, rfl, covered⟩
    | coded coded =>
      obtain ⟨low, here⟩ := List.getElem?_eq_some_iff.mp sent
      obtain ⟨high, there⟩ := List.getElem?_eq_some_iff.mp found
      rcases Nat.lt_or_eq_of_le before with less | same
      · have follows := List.pairwise_iff_getElem.mp ordered position index low high less
        rw [here, there] at follows
        exact follows coded packet read reads covered
      · subst same
        cases sent.symm.trans found
        cases (Arrival.ofRaw_eq_some.mpr reads).symm.trans (Arrival.ofRaw_eq_some.mpr read)

theorem inOrder_sourcesFirst (run : Run step (new config windowPolicy cc fec receivers) calls final)
    (fits : ∀ call ∈ calls, CoversFit call) (few : (accepted calls).length < 4294967296) (inOrder : InOrder receiver calls) :
    Arrival.SourcesFirst ((arrivals receiver calls).map (·.input)) := by
  suffices kept : Told config calls final ∧ ((accepted calls).length < 4294967296 → InOrder receiver calls →
      Arrival.SourcesFirst ((arrivals receiver calls).map (·.input)) ∧
        ∀ own ∈ arrivals receiver calls, ReadAt receiver calls final own.input) from (kept.2 few inOrder).1
  refine run.preserves (fun calls state => Told config calls state ∧ ((accepted calls).length < 4294967296 →
      InOrder receiver calls → Arrival.SourcesFirst ((arrivals receiver calls).map (·.input)) ∧
        ∀ own ∈ arrivals receiver calls, ReadAt receiver calls state own.input)) CoversFit ⟨run_told .start (by simp), ?_⟩ ?_ fits
  · intro _ _
    exact ⟨fun i inside => absurd inside (Nat.not_lt_zero i), fun _ member => (List.not_mem_nil member).elim⟩
  intro calls before action after reply ⟨told, kept⟩ stepped fits
  have steps := step_ok stepped
  refine ⟨told.step steps fits, fun few inOrder => ?_⟩
  rw [accepted_append, List.length_append] at few
  have short : (accepted calls).length < 4294967296 := by omega
  unfold InOrder at inOrder
  rw [List.filterMap_append] at inOrder
  obtain ⟨earlier, _, later⟩ := List.pairwise_append.mp inOrder
  obtain ⟨first, read⟩ := kept short earlier
  have grows {arrival : Arrival} (was : ReadAt receiver calls before arrival) :
      ReadAt receiver (calls ++ [⟨before, action, after, reply⟩]) after arrival := by
    obtain ⟨index, member, datagram, found, reads⟩ := was
    refine ⟨index, ?_, datagram, step_sent steps found, reads⟩
    rw [List.filterMap_append]
    exact List.mem_append_left _ member
  cases own : arrivalAt receiver ⟨before, action, after, reply⟩ with
  | none =>
    have same : arrivals receiver (calls ++ [⟨before, action, after, reply⟩]) = arrivals receiver calls := by
      rw [arrivals, List.filterMap_append, List.filterMap_cons_none own, List.filterMap_nil, List.append_nil]
      rfl
    rw [same]
    exact ⟨first, fun call member => grows (read call member)⟩
  | some call =>
    have same : arrivals receiver (calls ++ [⟨before, action, after, reply⟩]) = arrivals receiver calls ++ [call] := by
      rw [arrivals, List.filterMap_append, List.filterMap_cons_some own, List.filterMap_nil]
      rfl
    obtain ⟨index, datagram, input, _, found, reads, _, _⟩ := arrivalAt_eq_some.mp own
    have position : positionAt receiver ⟨before, action, after, reply⟩ = some index := by
      rw [positionAt, show action = .deliver receiver index from input]
      exact if_pos rfl
    rw [same, List.map_append, List.map_singleton]
    refine ⟨Arrival.sourcesFirst_concat first (timely_of_inOrder (told.ordered short) found reads fun prior member => ?_), ?_⟩
    · obtain ⟨other, listed, rfl⟩ := List.mem_map.mp member
      obtain ⟨before, inside, datagram, sent, reads⟩ := read other listed
      refine ⟨before, later before inside index ?_, datagram, sent, reads⟩
      rw [List.filterMap_cons_some position]
      exact List.mem_cons_self
    · intro call member
      rcases List.mem_append.mp member with old | new
      · exact grows (read call old)
      · cases List.mem_singleton.mp new
        refine ⟨index, ?_, datagram, step_sent steps found, reads⟩
        rw [List.filterMap_append, List.filterMap_cons_some position]
        exact List.mem_append_right _ List.mem_cons_self

/-- Over a channel that may lose and duplicate but not reorder, every receiver takes every packet and delivers a
part of the submitted symbols in order, the first of them without exception until it reports a gap. -/
theorem in_order_delivers (run : Run step (new config windowPolicy cc fec receivers) calls final)
    (fits : ∀ call ∈ calls, CoversFit call) (few : (accepted calls).length < 4294967296) (receiver : ReceiverId)
    (matched : (receivers receiver).1.Matches config) (inOrder : InOrder receiver calls) :
    Conveys (accepted calls) (arrivals receiver calls) (final.decoders receiver) :=
  conveys run fits few matched (inOrder_sourcesFirst run fits few inOrder)

/-- The first datagram is lost and the last arrives twice. -/
theorem in_order_delivers_lossy :
    ∃ (calls : List (Call SmallNetwork NetworkAction NetworkReply)) (final : SmallNetwork),
      Run step (new Encoder.smallConfig {} {} ⟨0, 1, 0⟩ smallReceivers) calls final ∧ accepted calls = [[1], [2]] ∧
        Decoder.deliveries (arrivals 7 calls) = [(0, [1]), (1, [2])] ∧
        Conveys [[1], [2]] (arrivals 7 calls) (final.decoders 7) := by
  obtain ⟨calls, final, run, check⟩ := Run.exists_of_check step
    (new Encoder.smallConfig {} {} ⟨0, 1, 0⟩ smallReceivers : SmallNetwork)
    [.encode (.submit [1]), .encode (.submit [2]), .deliver 7 1, .encode .coded, .deliver 7 2, .deliver 7 2]
    (fun result => decide (accepted result.1 = [[1], [2]] ∧ Decoder.deliveries (arrivals 7 result.1) = [(0, [1]), (1, [2])] ∧
      result.1.filterMap (positionAt 7) = [1, 2, 2]) && coversFit result.1) (by decide +kernel)
  obtain ⟨shape, fits⟩ := Bool.and_eq_true_iff.mp check
  obtain ⟨symbols, delivered, positions⟩ := of_decide_eq_true shape
  have few : (accepted calls).length < 4294967296 := by
    rw [symbols]
    decide
  have conveys := in_order_delivers run (of_coversFit fits) few 7 ⟨rfl, rfl⟩ (by rw [InOrder, positions]; decide)
  rw [symbols] at conveys
  exact ⟨calls, final, run, symbols, delivered, conveys⟩

end Network
end Delp
