import Fluxion.Proofs.Number.Signs

/-!
# Estimates bound the rounding of sums

A sum in the arbitrary tier is rounded once, and half a unit in its last place is never more
than the step of its precision relative to the rounded sum (`abs_sub_roundTo_le_mul`).  So a
step of the estimate pays for the rounding of one operation, and what the operands bring along
pays for their own distances: `Approximates.apply`.  By induction over a tree of sums, of
differences, of opposites and of clones, its estimate pays for the whole tree.

The estimates of a program are `Float`s, and these are rounded too.  `SumTree.estimate` is
therefore the recurrence that estimates follow over any arithmetic: over `Float`s it is the
estimate of the program, and over extended reals it is that estimate read as exact.
-/

namespace Fluxion.Number

open Quantity

/-- Rounding moves a number by no more than one step relative to the rounded number. -/
theorem abs_sub_roundTo_le_mul {bits : ℕ} (hbits : 0 < bits) (w : ℚ) :
    |w - roundTo bits w| ≤ |roundTo bits w| * 2 ^ (-(bits : ℤ)) := by
  rcases eq_or_ne w 0 with rfl | hw
  · rw [roundTo_zero, sub_zero, abs_zero, zero_mul]
  · have hsplit : (2 : ℚ) ^ (place bits w - 1) =
        2 ^ (place bits w + bits - 1) * 2 ^ (-(bits : ℤ)) := by
      rw [← zpow_add₀ (by norm_num)]
      congr 1
      ring
    calc
      |w - roundTo bits w| ≤ 2 ^ (place bits w - 1) := abs_sub_roundTo_le bits w
      _ = 2 ^ (place bits w + bits - 1) * 2 ^ (-(bits : ℤ)) := hsplit
      _ ≤ |roundTo bits w| * 2 ^ (-(bits : ℤ)) :=
          mul_le_mul_of_nonneg_right (le_abs_roundTo hbits hw) (by positivity)

/-! ## What estimates are made of -/

def Quantity.size : Quantity → Float
  | .fast x _ => x.abs
  | .arbitrary w _ _ => magnitude w

/-- The size of a step of rounding relative to the value, as a `Float`. -/
def Quantity.step : Quantity → Float
  | .fast _ _ => epsilon
  | .arbitrary _ bits _ => bitStep bits

/-- The size of a step of rounding relative to the value. -/
def Quantity.exactStep : Quantity → ℚ
  | .fast _ _ => 2 ^ (-52 : ℤ)
  | .arbitrary _ bits _ => 2 ^ (-(bits : ℤ))

/-- An arithmetic of estimates: how one is read from a number, how those of two operands are
put together, and how an operation with a given result adds to them. -/
structure EstimateArithmetic (E : Type) where
  read : Float → E
  plus : E → E → E
  accumulate : E → Quantity → E

/-- The estimates of the program. -/
def EstimateArithmetic.floats : EstimateArithmetic Float where
  read error := error
  plus e e' := e + e'
  accumulate prior result := Quantity.accumulate prior result.size result.step

/-- Estimates without rounding.  An estimate that is not a number bounds nothing, and a result
that is not finite has no bound. -/
noncomputable def EstimateArithmetic.exact : EstimateArithmetic EReal where
  read error := (floatValue error).extended.getD ⊥
  plus e e' := e + e'
  accumulate prior result :=
    match result.value with
    | .finite v => prior + (((|v| * result.exactStep : ℚ) : ℝ) : EReal)
    | _ => ⊤

/-- The estimate of a result is the same function of prior estimates and result in both tiers. -/
theorem error_apply [Multiprecision] (op : ArithmeticOp) (policy : Policy) (a b : Quantity) :
    (apply op policy a b).error =
      EstimateArithmetic.floats.accumulate (a.error + b.error) (apply op policy a b) := by
  rcases apply_cases op policy a b with ⟨bits, -, -, -, heq⟩ | ⟨-, -, heq⟩
  · rw [heq]
    rfl
  · rw [heq]
    rfl

/-! ## Operations -/

/-- The quantity is a finite number of the arbitrary tier that fits its precision, as all that
are built do, and `e` bounds its distance from `r`. -/
structure Approximates (q : Quantity) (r : ℝ) (e : EReal) : Prop where
  arbitrary : q.isArbitrary = true
  fits : q.value.HasBits q.bits
  near : ∃ v : ℚ, q.value = .finite v ∧ ((|(v : ℝ) - r| : ℝ) : EReal) ≤ e

/-- What was built fits its precision. -/
theorem Built.approximates [Multiprecision] [RoundsCorrectly] {q : Quantity} (h : Built q)
    (harbitrary : q.isArbitrary = true) {v : ℚ} (hv : q.value = .finite v) {r : ℝ}
    {e : EReal} (hnear : ((|(v : ℝ) - r| : ℝ) : EReal) ≤ e) :
    Approximates q r e :=
  ⟨harbitrary, h.hasBits, v, hv, hnear⟩

namespace Approximates

variable [Multiprecision] [RoundsCorrectly] {op : ArithmeticOp} {a b q : Quantity} {r r' s : ℝ}
  {e e' : EReal}

/-- An operation that moves its exact result by no more than its operands are moved keeps
within what the estimate adds to theirs. -/
theorem apply (policy : Policy) (ha : Approximates a r e) (hb : Approximates b r' e')
    (hop : op ≠ .div)
    (hstable : ∀ x y : ℚ, |((op.exact x y : ℚ) : ℝ) - s| ≤ |(x : ℝ) - r| + |(y : ℝ) - r'|) :
    Approximates (Quantity.apply op policy a b) s
      (EstimateArithmetic.exact.accumulate (e + e') (Quantity.apply op policy a b)) := by
  obtain ⟨x, hx, hxr⟩ := ha.near
  obtain ⟨y, hy, hyr⟩ := hb.near
  rcases apply_cases op policy a b with ⟨bits, habits, hbbits, hpolicy, heq⟩ | ⟨hfast, -, -⟩
  · have hbits : 0 < bits := policy.bits_pos.trans_le hpolicy
    -- The operands lose nothing on the way, so one rounding is all that the operation adds.
    have hvalue : (op.onWide bits (a.toWide bits) (b.toWide bits)).value =
        .finite (roundTo bits (op.exact x y)) :=
      value_onWide hbits op ((value_toWide ha.fits habits).trans hx)
        ((value_toWide hb.fits hbbits).trans hy) fun hdiv => absurd hdiv hop
    have hround : |((op.exact x y : ℚ) : ℝ) - (roundTo bits (op.exact x y) : ℚ)| ≤
        ((|roundTo bits (op.exact x y)| * 2 ^ (-(bits : ℤ)) : ℚ) : ℝ) := by
      exact_mod_cast abs_sub_roundTo_le_mul hbits (op.exact x y)
    rw [heq, arbitraryOp]
    refine ⟨rfl, ((rounds_onWide hbits op _ _).stored hbits).hasBits, _, hvalue, ?_⟩
    simp only [EstimateArithmetic.exact, value, hvalue, exactStep]
    generalize roundTo bits (op.exact x y) = v at hround
    generalize |v| * 2 ^ (-(bits : ℤ)) = ε at hround
    have hdistance : |(v : ℝ) - s| ≤ |(x : ℝ) - r| + |(y : ℝ) - r'| + ε := by
      have htriangle := abs_sub_le (v : ℝ) ((op.exact x y : ℚ) : ℝ) s
      rw [abs_sub_comm _ ((op.exact x y : ℚ) : ℝ)] at htriangle
      linarith [hstable x y]
    calc
      ((|(v : ℝ) - s| : ℝ) : EReal)
        ≤ ((|(x : ℝ) - r| + |(y : ℝ) - r'| + ε : ℝ) : EReal) :=
          EReal.coe_le_coe_iff.mpr hdistance
      _ = ((|(x : ℝ) - r| : ℝ) : EReal) + ((|(y : ℝ) - r'| : ℝ) : EReal) + ((ε : ℝ) : EReal) := by
          rw [EReal.coe_add, EReal.coe_add]
      _ ≤ e + e' + ((ε : ℝ) : EReal) :=
          add_le_add_left (add_le_add hxr hyr) _
  · rw [ha.arbitrary] at hfast
    cases hfast

/-- A sum is as far from the sum of the real numbers as its estimate admits. -/
theorem add (policy : Policy) (ha : Approximates a r e) (hb : Approximates b r' e') :
    Approximates (Quantity.apply .add policy a b) (r + r')
      (EstimateArithmetic.exact.accumulate (e + e') (Quantity.apply .add policy a b)) := by
  apply ha.apply policy hb (by decide)
  intro x y
  rw [ArithmeticOp.exact, Rat.cast_add, add_sub_add_comm]
  exact abs_add_le _ _

theorem sub (policy : Policy) (ha : Approximates a r e) (hb : Approximates b r' e') :
    Approximates (Quantity.apply .sub policy a b) (r - r')
      (EstimateArithmetic.exact.accumulate (e + e') (Quantity.apply .sub policy a b)) := by
  apply ha.apply policy hb (by decide)
  intro x y
  rw [ArithmeticOp.exact, Rat.cast_sub, sub_sub_sub_comm]
  exact abs_sub _ _

/-- A change of sign is exact and keeps the estimate. -/
theorem neg (h : Approximates q r e) : Approximates q.neg (-r) e := by
  obtain ⟨v, hv, hnear⟩ := h.near
  have hvalue : q.neg.value = q.value.neg := value_neg h.fits
  refine ⟨(isArbitrary_neg q).trans h.arbitrary, ?_, -v, ?_, ?_⟩
  · rw [hvalue, bits_neg]
    exact h.fits.neg
  · rw [hvalue, hv, Value.neg]
  · rwa [Rat.cast_neg, neg_sub_neg, abs_sub_comm]

theorem clone (h : Approximates q r e) : Approximates q.clone r e := by
  have hvalue : q.clone.value = q.value := value_clone h.fits
  obtain ⟨harbitrary, hfits, hnear⟩ := h
  rw [← hvalue] at hfits hnear
  cases q with
  | fast x error => exact ⟨harbitrary, hfits, hnear⟩
  | arbitrary w bits error => exact ⟨rfl, hfits, hnear⟩

end Approximates

/-! ## Trees of operations -/

/-- What is built from given numbers by sums, differences, opposites and clones, with a policy
at each operation. -/
inductive SumTree (ι : Type) where
  | given (i : ι)
  | add (policy : Policy) (s t : SumTree ι)
  | sub (policy : Policy) (s t : SumTree ι)
  | neg (t : SumTree ι)
  | clone (t : SumTree ι)

namespace SumTree

variable {ι E : Type}

def eval [Multiprecision] (given : ι → Quantity) : SumTree ι → Quantity
  | .given i => given i
  | .add policy s t => apply .add policy (s.eval given) (t.eval given)
  | .sub policy s t => apply .sub policy (s.eval given) (t.eval given)
  | .neg t => (t.eval given).neg
  | .clone t => (t.eval given).clone

noncomputable def ideal (given : ι → ℝ) : SumTree ι → ℝ
  | .given i => given i
  | .add _ s t => s.ideal given + t.ideal given
  | .sub _ s t => s.ideal given - t.ideal given
  | .neg t => -t.ideal given
  | .clone t => t.ideal given

/-- The estimate of what the tree gives, in an arithmetic of estimates. -/
def estimate [Multiprecision] (A : EstimateArithmetic E) (given : ι → Quantity) : SumTree ι → E
  | .given i => A.read (given i).error
  | .add policy s t =>
      A.accumulate (A.plus (s.estimate A given) (t.estimate A given))
        ((SumTree.add policy s t).eval given)
  | .sub policy s t =>
      A.accumulate (A.plus (s.estimate A given) (t.estimate A given))
        ((SumTree.sub policy s t).eval given)
  | .neg t => t.estimate A given
  | .clone t => t.estimate A given

/-- The estimate that the program gives is the one in its own arithmetic. -/
theorem error_eval [Multiprecision] (given : ι → Quantity) (t : SumTree ι) :
    (t.eval given).error = t.estimate .floats given := by
  induction t with
  | given i => rfl
  | add policy s t ihs iht | sub policy s t ihs iht =>
      rw [estimate, ← ihs, ← iht]
      exact error_apply _ policy _ _
  | neg t ih => exact (error_neg _).trans ih
  | clone t ih =>
      rw [estimate, ← ih, eval]
      cases t.eval given <;> rfl

/-- With any arithmetic that rounds correctly: if the estimates of given numbers bound their
distances from real numbers, then what a tree of sums gives is finite, and its estimate, read as
exact, bounds the distance from what the tree gives on the real numbers. -/
theorem eval_approximates [Multiprecision] [RoundsCorrectly] (t : SumTree ι)
    {given : ι → Quantity} {real : ι → ℝ}
    (h : ∀ i, Approximates (given i) (real i) (EstimateArithmetic.exact.read (given i).error)) :
    (t.eval given).error = t.estimate .floats given ∧
      Approximates (t.eval given) (t.ideal real) (t.estimate .exact given) := by
  refine ⟨error_eval given t, ?_⟩
  induction t with
  | given i => exact h i
  | add policy s t ihs iht => exact ihs.add policy iht
  | sub policy s t ihs iht => exact ihs.sub policy iht
  | neg t ih => exact ih.neg
  | clone t ih => exact ih.clone

/-- The number 1, and the number 3 with 24 bits and an estimate of one half. -/
def oneAndThree : Bool → Quantity
  | true => wideOne
  | false => .arbitrary (Wide.ofInt 24 3 0) 24 0.5

/-- The number 1, and a number within one half of 3. -/
noncomputable def oneAndMoreThanThree : Bool → ℝ
  | true => 1
  | false => 13 / 4

/-- The tree of `(a + -b) - a`. -/
def oppositeTree : SumTree Bool :=
  .sub .default (.add .default (.given true) (.neg (.given false))) (.clone (.given true))

theorem eval_approximates_oppositeTree :
    (∀ i, Approximates (oneAndThree i) (oneAndMoreThanThree i)
      (EstimateArithmetic.exact.read (oneAndThree i).error)) ∧
    ∃ v : ℚ, (oppositeTree.eval oneAndThree).value = .finite v ∧
      ((|(v : ℝ) - (-13 / 4)| : ℝ) : EReal) ≤ oppositeTree.estimate .exact oneAndThree := by
  have hhalf : floatValue 0.5 = .finite (1 / 2) := by
    have hread : Binary64.ofFloat 0.5 = .finite false 4503599627370496 (-53) := by decide
    rw [floatValue, hread, Binary64.value, Wide.signed]
    norm_num
  have hthree : (oneAndThree false).value = .finite 3 := by
    have hbits : HasBits 24 ((3 : ℤ) : ℚ) := ⟨3, 0, by norm_num, by norm_num⟩
    rw [oneAndThree, value, Wide.value_ofInt_of_hasBits hbits, Int.cast_ofNat]
  have hgiven : ∀ i, Approximates (oneAndThree i) (oneAndMoreThanThree i)
      (EstimateArithmetic.exact.read (oneAndThree i).error) := by
    intro i
    cases i with
    | true =>
        have hread : EstimateArithmetic.exact.read (oneAndThree true).error =
            (((0 : ℚ) : ℝ) : EReal) := congrArg (fun v => v.extended.getD ⊥) floatValue_zero
        refine Built.approximates (.ofInt (by decide) 1 0.0) rfl value_wideOne ?_
        rw [hread, EReal.coe_le_coe_iff]
        norm_num [oneAndMoreThanThree]
    | false =>
        have hread : EstimateArithmetic.exact.read (oneAndThree false).error =
            (((1 / 2 : ℚ) : ℝ) : EReal) := congrArg (fun v => v.extended.getD ⊥) hhalf
        refine Built.approximates (.ofInt (by decide) 3 0.5) rfl hthree ?_
        rw [hread, EReal.coe_le_coe_iff]
        norm_num [oneAndMoreThanThree, abs_le]
  obtain ⟨-, -, v, hv, hnear⟩ := (eval_approximates oppositeTree hgiven).2
  have hideal : oppositeTree.ideal oneAndMoreThanThree = -13 / 4 := by
    norm_num [oppositeTree, ideal, oneAndMoreThanThree]
  rw [hideal] at hnear
  exact ⟨hgiven, v, hv, hnear⟩

end SumTree

end Fluxion.Number
