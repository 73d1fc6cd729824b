import Delp.Proofs.Recovery
import Mathlib.Algebra.Module.BigOperators
import Mathlib.LinearAlgebra.Basis.VectorSpace

/-! Which symbols a system of equations determines: those whose unit vectors its coefficients span. -/

namespace Delp
open Machine Gf Elimination

theorem Gf.elem_surjective (field : Config.Field) (a : field.Elem) : ∃ c, elem field c = a := by
  cases field with
  | gf2_8 => exact ⟨a.value, rfl⟩
  | gf2_4 => exact ⟨a.value, Gf2_4.ext (and_of_lt a.low)⟩

variable {field : Config.Field} {size : ℕ}

structure Satisfies (size : ℕ) (equations : Set (SymbolEquation field)) (x : SourceSymbolId → Bytes) : Prop where
  sized : ∀ id, (x id).length = size
  holds : ∀ equation ∈ equations, equation ∈ truths field x

theorem Satisfies.of_span {equations : Set (SymbolEquation field)} {x : SourceSymbolId → Bytes}
    (satisfies : Satisfies size equations x) {equation : SymbolEquation field}
    (follows : equation ∈ Submodule.span field.Elem equations) : equation ∈ truths field x :=
  Submodule.span_le.mpr (fun equation member => satisfies.holds equation member) follows

theorem exists_of_fst_mem {equations : Set (SymbolEquation field)} {coefs : SourceSymbolId → field.Elem}
    (inside : coefs ∈ Submodule.span field.Elem (Prod.fst '' equations)) :
    ∃ equation ∈ Submodule.span field.Elem equations, equation.1 = coefs := by
  rw [← LinearMap.coe_fst (R := field.Elem), ← Submodule.map_span] at inside
  exact inside

/-- Equations that follow from others, and whose coefficients span theirs, have the same solutions, once there is one. -/
theorem Satisfies.iff_of_span {before after : Set (SymbolEquation field)} {x : SourceSymbolId → Bytes}
    (satisfies : Satisfies size before x) (follow : ∀ equation ∈ after, equation ∈ Submodule.span field.Elem before)
    (covers : ∀ equation ∈ before, equation.1 ∈ Submodule.span field.Elem (Prod.fst '' after)) (y : SourceSymbolId → Bytes) :
    Satisfies size after y ↔ Satisfies size before y := by
  have weaker {y : SourceSymbolId → Bytes} (holds : Satisfies size before y) : Satisfies size after y :=
    ⟨holds.sized, fun equation member => holds.of_span (follow equation member)⟩
  refine ⟨fun holds => ⟨holds.sized, fun equation member => ?_⟩, weaker⟩
  obtain ⟨other, follows, same⟩ := exists_of_fst_mem (covers equation member)
  -- one solution satisfies both equations, so their values agree as well
  have left := mem_satisfied.mp (satisfies.holds equation member)
  have right := mem_satisfied.mp ((weaker satisfies).of_span follows)
  have equal : other = equation := Prod.ext same (right.trans ((congrArg (fun coefs : SourceSymbolId → field.Elem =>
    ∑ id, coefs id • symbol field (x id)) same).trans left.symm))
  exact equal ▸ holds.of_span follows

private theorem Satisfies.move {equations : Set (SymbolEquation field)} {x : SourceSymbolId → Bytes}
    (satisfies : Satisfies size equations x) (φ : (SourceSymbolId → field.Elem) →ₗ[field.Elem] field.Elem)
    (vanishes : ∀ equation ∈ equations, φ equation.1 = 0) :
    ∃ y, Satisfies size equations y ∧
      ∀ id, symbol field (y id) = symbol field (x id) + φ (Pi.single id 1) • symbol field (List.replicate size 1) := by
  choose c scales using fun id => elem_surjective field (φ (Pi.single id 1))
  have length (id : SourceSymbolId) : (x id).length = ((List.replicate size 1).map (mulByte field (c id))).length := by
    rw [satisfies.sized id, List.length_map, List.length_replicate]
  have moved (id : SourceSymbolId) :
      symbol field ((x id).zipWith (· ^^^ ·) ((List.replicate size 1).map (mulByte field (c id)))) =
        symbol field (x id) + φ (Pi.single id 1) • symbol field (List.replicate size 1) := by
    rw [symbol_xor (length id), symbol_mulByte, scales]
  refine ⟨fun id => (x id).zipWith (· ^^^ ·) ((List.replicate size 1).map (mulByte field (c id))), ⟨fun id => ?_, ?_⟩, moved⟩
  · rw [List.length_zipWith, ← length, Nat.min_self, satisfies.sized]
  · intro equation member
    have before := mem_satisfied.mp (satisfies.holds equation member)
    have along : ∑ id, equation.1 id * φ (Pi.single id 1) = 0 := by
      have expanded := LinearMap.pi_apply_eq_sum_univ φ equation.1
      rw [vanishes equation member] at expanded
      refine Eq.trans (Finset.sum_congr rfl fun id _ => ?_) expanded.symm
      rw [smul_eq_mul]
      congr 2
      funext other
      rw [Pi.single_apply]
      split
      · next same => rw [if_pos same.symm]
      · next differ => rw [if_neg (Ne.symm differ)]
    refine mem_satisfied.mpr ?_
    simp only [moved, smul_add, Finset.sum_add_distrib, smul_smul]
    rw [← Finset.sum_smul, along, zero_smul, add_zero, before]

/-- All solutions agree on an id exactly if its unit vector is in the span of the coefficients. -/
theorem determined_iff (positive : 0 < size) {equations : Set (SymbolEquation field)} {x : SourceSymbolId → Bytes}
    (satisfies : Satisfies size equations x) {id : SourceSymbolId} :
    (∀ y, Satisfies size equations y → y id = x id) ↔
      (Pi.single id 1 : SourceSymbolId → field.Elem) ∈ Submodule.span field.Elem (Prod.fst '' equations) := by
  constructor
  · intro determined
    by_contra outside
    obtain ⟨φ, nonzero, inside⟩ := Submodule.exists_le_ker_of_notMem outside
    obtain ⟨y, other, moved⟩ := satisfies.move φ fun equation member =>
      LinearMap.mem_ker.mp (inside (Submodule.subset_span ⟨equation, member, rfl⟩))
    -- the first lane tells the two solutions apart
    have lane := congrFun (moved id) 0
    rw [determined y other, Pi.add_apply, left_eq_add, Pi.smul_apply, smul_eq_mul, mul_eq_zero] at lane
    refine lane.elim nonzero fun zero => ?_
    obtain ⟨more, rfl⟩ := Nat.exists_eq_succ_of_ne_zero (Nat.pos_iff_ne_zero.mp positive)
    have one : symbol field (List.replicate (more + 1) 1) 0 = 1 := by
      cases field with
      | gf2_8 => rfl
      | gf2_4 => exact Gf2_4.ext (show (1 : UInt8) &&& 0x0F = 1 by decide)
    exact one_ne_zero (one.symm.trans zero)
  · intro inside y other
    obtain ⟨⟨coefs, value⟩, follows, same⟩ := exists_of_fst_mem inside
    cases same
    have left := known_mem_satisfied.mp (other.of_span follows)
    have right := known_mem_satisfied.mp (satisfies.of_span follows)
    exact symbol_injective ((other.sized id).trans (satisfies.sized id).symm) (left.symm.trans right)

end Delp
