import Delp.Gf.Element
import Delp.Lib.CyclicField

/-! The tables multiply as a field does: the exp table lists the powers of the
generator, the log table inverts it, and doubling is additive. -/

namespace Delp.Gf
open Function

section Tables
variable {double : UInt8 → UInt8} {n : ℕ}

theorem getD_powers {i count : ℕ} (inside : i < count) (x : UInt8) :
    (powers double count x).getD i 0 = double^[i] x := by
  induction count generalizing i x with
  | zero => omega
  | succ count ih =>
    cases i with
    | zero => rfl
    | succ i => exact ih (by omega) (double x)

theorem length_powers (count : ℕ) (x : UInt8) : (powers double count x).length = count := by
  induction count generalizing x with
  | zero => rfl
  | succ count ih => exact congrArg (· + 1) (ih (double x))

private theorem length_logTable (order count : ℕ) (exp : List UInt8) :
    (logTable order count exp).length = order := by
  induction count with
  | zero => simp [logTable]
  | succ count ih =>
    rw [logTable, List.range_succ, List.foldl_append]
    simpa [logTable] using ih

/-- The log table inverts an exp table whose first entries are distinct. -/
theorem getD_logTable (order : ℕ) {count : ℕ} {exp : List UInt8}
    (small : ∀ i < count, (exp.getD i 0).toNat < order)
    (distinct : ∀ i < count, ∀ j < count, exp.getD i 0 = exp.getD j 0 → i = j)
    {i : ℕ} (inside : i < count) :
    (logTable order count exp).getD (exp.getD i 0).toNat 0 = UInt8.ofNat i := by
  induction count with
  | zero => omega
  | succ count ih =>
    have unfolded : logTable order (count + 1) exp =
        (logTable order count exp).set (exp.getD count 0).toNat (UInt8.ofNat count) := by
      simp only [logTable, List.range_succ, List.foldl_append, List.foldl_cons, List.foldl_nil]
    rw [unfolded, List.getD_eq_getElem?_getD, List.getElem?_set]
    by_cases last : i = count
    · subst last
      rw [if_pos rfl, if_pos (by rw [length_logTable]; exact small i inside)]
      rfl
    · have other : (exp.getD count 0).toNat ≠ (exp.getD i 0).toNat := fun same =>
        last (distinct i inside count (Nat.lt_succ_self count) (UInt8.toNat_inj.mp same.symm))
      rw [if_neg other, ← List.getD_eq_getElem?_getD]
      exact ih (fun j below => small j (by omega)) (fun j below k bound => distinct j (by omega) k (by omega))
        (by omega)

/-- A table of the powers of a generator, beside its log table. -/
structure Generates (double : UInt8 → UInt8) (n : ℕ) (exp : List UInt8) : Prop where
  minimal : minimalPeriod double 1 = n
  inside : ∀ i, 0 < (double^[i] 1).toNat ∧ (double^[i] 1).toNat ≤ n
  small : n ≤ 255
  table : ∀ i < n, exp.getD i 0 = double^[i] 1

namespace Generates
variable {exp : List UInt8} (generates : Generates double n exp)
include generates

theorem log_power {i : ℕ} (below : i < n) :
    ((logTable (n + 1) n exp).getD (double^[i] 1).toNat 0).toNat = i := by
  have distinct : ∀ i < n, ∀ j < n, exp.getD i 0 = exp.getD j 0 → i = j := by
    intro i first j second same
    rw [generates.table i first, generates.table j second] at same
    exact iterate_injOn_Iio_minimalPeriod (by simpa [generates.minimal]) (by simpa [generates.minimal]) same
  have found := getD_logTable (n + 1)
    (fun j inside => by rw [generates.table j inside]; have := (generates.inside j).2; omega) distinct below
  rw [generates.table i below] at found
  have small := generates.small
  rw [found, UInt8.toNat_ofNat', Nat.mod_eq_of_lt (by omega)]

theorem exists_power {a : UInt8} (nonzero : a ≠ 0) (bounded : a.toNat ≤ n) : ∃ i < n, double^[i] 1 = a :=
  iterate_surjective_of_minimalPeriod generates.minimal UInt8.toNat (fun _ _ => UInt8.toNat_inj.mp)
    generates.inside (Nat.pos_of_ne_zero fun zero => nonzero (UInt8.toNat_inj.mp zero)) bounded

theorem log_lt {a : UInt8} (nonzero : a ≠ 0) (bounded : a.toNat ≤ n) :
    ((logTable (n + 1) n exp).getD a.toNat 0).toNat < n := by
  obtain ⟨i, below, rfl⟩ := generates.exists_power nonzero bounded
  rwa [generates.log_power below]

theorem power_log {a : UInt8} (nonzero : a ≠ 0) (bounded : a.toNat ≤ n) :
    double^[((logTable (n + 1) n exp).getD a.toNat 0).toNat] 1 = a := by
  obtain ⟨i, below, rfl⟩ := generates.exists_power nonzero bounded
  rw [generates.log_power below]

@[simp] theorem period : double^[n] 1 = 1 := by
  have cycle := iterate_minimalPeriod (f := double) (x := 1)
  rwa [generates.minimal] at cycle

theorem power_mod (i : ℕ) : double^[i % n] 1 = double^[i] 1 := by
  have cycle := iterate_mod_minimalPeriod_eq (f := double) (x := 1) (n := i)
  rwa [generates.minimal] at cycle

end Generates

/-- A representation of elements by bytes, under which doubling is additive. -/
structure Represents (α : Type) [AddCommGroup α] (double : UInt8 → UInt8) (n : ℕ) where
  value : α → UInt8
  injective : Injective value
  step : α →+ α
  one : α
  value_step : ∀ a, value (step a) = double (value a)
  value_zero : value 0 = 0
  value_one : value one = 1
  bounded : ∀ a, (value a).toNat ≤ n

namespace Represents
variable {α : Type} [AddCommGroup α] (rep : Represents α double n) {exp : List UInt8}

theorem value_iterate (k : ℕ) (a : α) : rep.value (rep.step^[k] a) = double^[k] (rep.value a) := by
  induction k generalizing a with
  | zero => rfl
  | succ k ih => rw [iterate_succ_apply, iterate_succ_apply, ih, rep.value_step]

theorem value_ne_zero {a : α} : rep.value a ≠ 0 ↔ a ≠ 0 := by
  rw [ne_eq, ne_eq, ← rep.value_zero, rep.injective.eq_iff]

/-- The field of which the tables hold the powers and logarithms. -/
def field (generates : Generates double n exp) : CyclicField α where
  double := rep.step
  one := rep.one
  order := n
  log a := ((logTable (n + 1) n exp).getD (rep.value a).toNat 0).toNat
  one_ne_zero := rep.value_ne_zero.mp (by rw [rep.value_one]; decide)
  order_pos := by
    have start := generates.inside 0
    omega
  period := rep.injective (by rw [value_iterate, rep.value_one, generates.period])
  power_log a nonzero := rep.injective (by
    rw [value_iterate, rep.value_one, generates.power_log (rep.value_ne_zero.mpr nonzero) (rep.bounded a)])

variable (generates : Generates double n exp)

theorem value_power (k : ℕ) : rep.value ((rep.field generates).power k) = double^[k] 1 :=
  (rep.value_iterate k _).trans (by rw [← rep.value_one]; rfl)

theorem log_lt {a : α} (nonzero : a ≠ 0) : (rep.field generates).log a < n :=
  generates.log_lt (rep.value_ne_zero.mpr nonzero) (rep.bounded a)

variable [DecidableEq α]

theorem value_mul (a b : α) : rep.value ((rep.field generates).mul a b) =
    if rep.value a = 0 ∨ rep.value b = 0 then 0
    else double^[(rep.field generates).log a + (rep.field generates).log b] 1 := by
  by_cases left : a = 0
  · rw [left, CyclicField.zero_mul, rep.value_zero, if_pos (.inl rfl)]
  by_cases right : b = 0
  · rw [right, CyclicField.mul_zero, rep.value_zero, if_pos (.inr rfl)]
  have power (c : α) (nonzero : c ≠ 0) : c = (rep.field generates).power ((rep.field generates).log c) :=
    ((rep.field generates).power_log c nonzero).symm
  have product : (rep.field generates).mul a b =
      (rep.field generates).power ((rep.field generates).log a + (rep.field generates).log b) := by
    conv_lhs => rw [power a left, power b right]
    exact (rep.field generates).power_mul_power _ _
  rw [product, value_power, if_neg (not_or.mpr ⟨rep.value_ne_zero.mpr left, rep.value_ne_zero.mpr right⟩)]

theorem mul_power_sub {a : α} (nonzero : a ≠ 0) :
    (rep.field generates).mul a ((rep.field generates).power (n - (rep.field generates).log a)) = rep.one := by
  have below := rep.log_lt generates nonzero
  have product : (rep.field generates).mul ((rep.field generates).power ((rep.field generates).log a))
      ((rep.field generates).power (n - (rep.field generates).log a)) = (rep.field generates).power n := by
    rw [CyclicField.power_mul_power, Nat.add_sub_cancel' (by omega)]
  rw [show (rep.field generates).power ((rep.field generates).log a) = a from
    (rep.field generates).power_log a nonzero] at product
  exact product.trans (rep.field generates).period

end Represents

private theorem iterate_ne_zero (preserves : ∀ x, x ≠ 0 → double x ≠ 0) (i : ℕ) : double^[i] 1 ≠ 0 := by
  induction i with
  | zero =>
    rw [iterate_zero, id]
    decide
  | succ i ih =>
    rw [iterate_succ_apply']
    exact preserves _ ih

end Tables

section Gf2_8

private theorem and_bit (v : UInt16) : v &&& 0x100 = 0 ∨ v &&& 0x100 = 0x100 := by
  have bit := BitVec.and_twoPow v.toBitVec 8
  by_cases high : v.toBitVec.getLsbD 8
  · rw [if_pos high] at bit
    exact .inr (UInt16.toBitVec_inj.mp bit)
  · rw [if_neg high] at bit
    exact .inl (UInt16.toBitVec_inj.mp bit)

theorem gf2_8Double_xor (x y : UInt8) : gf2_8Double (x ^^^ y) = gf2_8Double x ^^^ gf2_8Double y := by
  have shifted : (x ^^^ y).toUInt16 <<< 1 = (x.toUInt16 <<< 1) ^^^ (y.toUInt16 <<< 1) := by
    rw [UInt8.toUInt16_xor, UInt16.shiftLeft_xor]
  unfold gf2_8Double
  dsimp only
  rw [shifted]
  generalize x.toUInt16 <<< 1 = v
  generalize y.toUInt16 <<< 1 = w
  have carried : (v ^^^ w) &&& 0x100 = (v &&& 0x100) ^^^ (w &&& 0x100) :=
    UInt16.toBitVec_inj.mp (by ext; simp [Bool.and_xor_distrib_right])
  rw [carried]
  have carry : (0x100 : UInt16) ≠ 0 := by decide
  -- the reduction is applied to the sum exactly when one summand alone carries
  rcases and_bit v with left | left <;> rcases and_bit w with right | right <;> rw [left, right]
  · simp
  · simp [UInt8.xor_assoc]
  · simp only [UInt16.xor_zero, ne_eq, carry, not_false_eq_true, not_true_eq_false, if_true, if_false,
      UInt16.toUInt8_xor]
    ac_rfl
  · simp only [UInt16.xor_self, ne_eq, carry, not_false_eq_true, not_true_eq_false, if_true, if_false,
      UInt16.toUInt8_xor]
    rw [UInt8.xor_comm w.toUInt8, UInt8.xor_assoc, ← UInt8.xor_assoc gf2_8Poly.toUInt8, UInt8.xor_self,
      UInt8.zero_xor]

theorem gf2_8_generates : Generates gf2_8Double 255 gf2_8Exp where
  minimal := by
    have proper : ∀ d < 256, d ∣ 255 → d ≠ 255 → gf2_8Double^[d] 1 ≠ 1 := by decide +kernel
    refine minimalPeriod_eq_of_divisors (show gf2_8Double^[255] 1 = 1 by decide +kernel) fun d divides => ?_
    exact proper d (Nat.lt_succ_of_le (Nat.le_of_dvd (by decide) divides)) divides
  inside i := by
    have preserves : ∀ x : UInt8, x ≠ 0 → gf2_8Double x ≠ 0 := by
      have entries : ∀ n < 256, UInt8.ofNat n ≠ 0 → gf2_8Double (UInt8.ofNat n) ≠ 0 := by decide +kernel
      intro x nonzero
      have entry := entries x.toNat x.toNat_lt
      rw [UInt8.ofNat_toNat] at entry
      exact entry nonzero
    have nonzero := iterate_ne_zero preserves i
    have bounded := (gf2_8Double^[i] 1).toNat_lt
    exact ⟨Nat.pos_of_ne_zero fun zero => nonzero (UInt8.toNat_inj.mp zero), by omega⟩
  small := Nat.le_refl _
  table i below := by
    unfold gf2_8Exp
    dsimp only
    rw [List.append_assoc, List.append_assoc, List.getD_append _ _ _ _ (by rwa [length_powers]), getD_powers below]

/-- The doubled table reaches every sum of two logarithms. -/
theorem getD_gf2_8Exp {i : ℕ} (inside : i ≤ 510) : gf2_8Exp.getD i 0 = gf2_8Double^[i] 1 := by
  have length : (powers gf2_8Double 255 1).length = 255 := length_powers 255 1
  unfold gf2_8Exp
  dsimp only
  rw [List.append_assoc, List.append_assoc]
  rcases Nat.lt_or_ge i 255 with first | rest
  · rw [List.getD_append _ _ _ _ (by omega), getD_powers first]
  rw [List.getD_append_right _ _ _ _ (by omega), length, ← gf2_8_generates.power_mod i,
    show i % 255 = (i - 255) % 255 by omega]
  rcases Nat.lt_or_ge i 510 with second | last
  · rw [List.getD_append _ _ _ _ (by omega), getD_powers (by omega), Nat.mod_eq_of_lt (by omega)]
  · rw [List.getD_append_right _ _ _ _ (by omega), length, show i = 510 by omega]
    rfl

end Gf2_8

section Gf2_4

theorem gf2_4Double_xor {x y : UInt8} (low : x < 16) (other : y < 16) :
    gf2_4Double (x ^^^ y) = gf2_4Double x ^^^ gf2_4Double y := by
  have entries : ∀ m < 16, ∀ n < 16, gf2_4Double (UInt8.ofNat m ^^^ UInt8.ofNat n) =
    gf2_4Double (UInt8.ofNat m) ^^^ gf2_4Double (UInt8.ofNat n) := by decide +kernel
  have entry := entries x.toNat (UInt8.lt_iff_toNat_lt.mp low) y.toNat (UInt8.lt_iff_toNat_lt.mp other)
  simpa only [UInt8.ofNat_toNat] using entry

theorem gf2_4Double_lt {x : UInt8} (low : x < 16) : gf2_4Double x < 16 := by
  have entries : ∀ n < 16, gf2_4Double (UInt8.ofNat n) < 16 := by decide +kernel
  have entry := entries x.toNat (UInt8.lt_iff_toNat_lt.mp low)
  rwa [UInt8.ofNat_toNat] at entry

private theorem gf2_4_minimal : minimalPeriod gf2_4Double 1 = 15 := by
  have proper : ∀ d < 16, d ∣ 15 → d ≠ 15 → gf2_4Double^[d] 1 ≠ 1 := by decide +kernel
  refine minimalPeriod_eq_of_divisors (show gf2_4Double^[15] 1 = 1 by decide +kernel) fun d divides => ?_
  exact proper d (Nat.lt_succ_of_le (Nat.le_of_dvd (by decide) divides)) divides

theorem gf2_4_generates : Generates gf2_4Double 15 gf2_4Exp where
  minimal := gf2_4_minimal
  inside i := by
    have entries : ∀ i < 15, 0 < (gf2_4Double^[i] 1).toNat ∧ (gf2_4Double^[i] 1).toNat ≤ 15 := by decide +kernel
    have cycle := iterate_mod_minimalPeriod_eq (f := gf2_4Double) (x := 1) (n := i)
    rw [gf2_4_minimal] at cycle
    rw [← cycle]
    exact entries _ (Nat.mod_lt _ (by decide))
  small := by decide
  table i below := by
    change (powers gf2_4Double 15 1 ++ [1]).getD i 0 = _
    rw [List.getD_append _ _ _ _ (by rwa [length_powers]), getD_powers below]

theorem getD_gf2_4Exp (i : ℕ) : gf2_4Exp.getD (i % 15) 0 = gf2_4Double^[i] 1 := by
  rw [gf2_4_generates.table _ (Nat.mod_lt _ (by decide)), gf2_4_generates.power_mod]

end Gf2_4
end Delp.Gf

namespace Delp
open Gf Function

namespace Gf2_8

instance : Add Gf2_8 := ⟨add⟩
instance : Zero Gf2_8 := ⟨⟨0⟩⟩
instance : Neg Gf2_8 := ⟨id⟩

instance : AddCommGroup Gf2_8 where
  add_assoc a b c := Gf2_8.ext (UInt8.xor_assoc a.value b.value c.value)
  zero_add _ := Gf2_8.ext UInt8.zero_xor
  add_zero _ := Gf2_8.ext UInt8.xor_zero
  neg_add_cancel _ := Gf2_8.ext UInt8.xor_self
  add_comm a b := Gf2_8.ext (UInt8.xor_comm a.value b.value)
  nsmul := nsmulRec
  zsmul := zsmulRec

def bytes : Represents Gf2_8 gf2_8Double 255 where
  value := value
  injective _ _ same := Gf2_8.ext same
  step := {
    toFun := fun a => ⟨gf2_8Double a.value⟩
    map_zero' := Gf2_8.ext (by decide)
    map_add' := fun a b => Gf2_8.ext (gf2_8Double_xor a.value b.value) }
  one := ⟨1⟩
  value_step _ := rfl
  value_zero := rfl
  value_one := rfl
  bounded a := Nat.le_of_lt_succ a.value.toNat_lt

instance : Field Gf2_8 := (bytes.field gf2_8_generates).toField

@[simp] theorem value_zero : (0 : Gf2_8).value = 0 := rfl

@[simp] theorem value_one : (1 : Gf2_8).value = 1 := rfl

@[simp] theorem value_add (a b : Gf2_8) : (a + b).value = a.value ^^^ b.value := rfl

private theorem log_eq (a : Gf2_8) :
    (bytes.field gf2_8_generates).log a = (gf2_8Log.getD a.value.toNat 0).toNat := by
  rw [gf2_8Log, gf2_8Order, Represents.field, bytes]

theorem value_mul (a b : Gf2_8) : (a * b).value = mulRaw a.value b.value := by
  refine (bytes.value_mul gf2_8_generates a b).trans ?_
  unfold mulRaw
  split
  next zero => exact (if_pos zero).symm
  next nonzero =>
    have left := bytes.log_lt gf2_8_generates (bytes.value_ne_zero.mp (not_or.mp nonzero).1)
    have right := bytes.log_lt gf2_8_generates (bytes.value_ne_zero.mp (not_or.mp nonzero).2)
    rw [← getD_gf2_8Exp (by omega), log_eq, log_eq]
    exact (if_neg nonzero).symm

theorem inv_eq {a : Gf2_8} (nonzero : a.value ≠ 0) : ∃ b, inv a = .ok b ∧ a * b = 1 := by
  refine ⟨(bytes.field gf2_8_generates).power (255 - (bytes.field gf2_8_generates).log a), ?_,
    bytes.mul_power_sub gf2_8_generates (bytes.value_ne_zero.mp nonzero)⟩
  rw [inv, Outcome.require_of nonzero, Outcome.ok_bind, ← log_eq]
  have reached : 255 - (bytes.field gf2_8_generates).log a ≤ 510 := by omega
  generalize 255 - (bytes.field gf2_8_generates).log a = exponent at reached ⊢
  exact congrArg Outcome.ok (Gf2_8.ext
    ((getD_gf2_8Exp reached).trans (bytes.value_power gf2_8_generates exponent).symm))

end Gf2_8

namespace Gf2_4

instance : Add Gf2_4 := ⟨add⟩
instance : Zero Gf2_4 := ⟨⟨0, by decide⟩⟩
instance : Neg Gf2_4 := ⟨id⟩

instance : AddCommGroup Gf2_4 where
  add_assoc a b c := Gf2_4.ext (UInt8.xor_assoc a.value b.value c.value)
  zero_add _ := Gf2_4.ext UInt8.zero_xor
  add_zero _ := Gf2_4.ext UInt8.xor_zero
  neg_add_cancel _ := Gf2_4.ext UInt8.xor_self
  add_comm a b := Gf2_4.ext (UInt8.xor_comm a.value b.value)
  nsmul := nsmulRec
  zsmul := zsmulRec

def nibbles : Represents Gf2_4 gf2_4Double 15 where
  value := value
  injective _ _ same := Gf2_4.ext same
  step := {
    toFun := fun a => ⟨gf2_4Double a.value, gf2_4Double_lt a.low⟩
    map_zero' := Gf2_4.ext (by decide)
    map_add' := fun a b => Gf2_4.ext (gf2_4Double_xor a.low b.low) }
  one := ⟨1, by decide⟩
  value_step _ := rfl
  value_zero := rfl
  value_one := rfl
  bounded a := Nat.le_of_lt_succ (UInt8.lt_iff_toNat_lt.mp a.low)

instance : Field Gf2_4 := (nibbles.field gf2_4_generates).toField

@[simp] theorem value_zero : (0 : Gf2_4).value = 0 := rfl

@[simp] theorem value_one : (1 : Gf2_4).value = 1 := rfl

@[simp] theorem value_add (a b : Gf2_4) : (a + b).value = a.value ^^^ b.value := rfl

private theorem log_eq (a : Gf2_4) :
    (nibbles.field gf2_4_generates).log a = (gf2_4Log.getD a.value.toNat 0).toNat := rfl

theorem value_mul (a b : Gf2_4) : (a * b).value = mulRaw a.value b.value := by
  refine (nibbles.value_mul gf2_4_generates a b).trans ?_
  unfold mulRaw
  split
  next zero => exact (if_pos zero).symm
  next nonzero =>
    rw [← getD_gf2_4Exp, log_eq, log_eq]
    exact (if_neg nonzero).symm

theorem inv_eq {a : Gf2_4} (nonzero : a.value ≠ 0) : ∃ b, inv a = .ok b ∧ a * b = 1 := by
  refine ⟨(nibbles.field gf2_4_generates).power (15 - (nibbles.field gf2_4_generates).log a), ?_,
    nibbles.mul_power_sub gf2_4_generates (nibbles.value_ne_zero.mp nonzero)⟩
  have table := (getD_gf2_4Exp (15 - (nibbles.field gf2_4_generates).log a)).trans
    (nibbles.value_power gf2_4_generates _).symm
  rw [inv, Outcome.require_of nonzero, Outcome.ok_bind]
  exact congrArg Outcome.ok (Gf2_4.ext table)

end Gf2_4
end Delp
