import Fluxion.Proofs.Number.SameValue

/-!
# Signs and the order of operands

An operation reads the tier and the precision of its operands, the sum of their estimates, and
what the operation gives in either tier: `apply_eq_settle`.  The decision for a tier and the new
estimate depend on the size of the result only, so turning over the sign of what is settled
turns over the sign of the outcome and changes nothing else (`settle_neg`).  In the arbitrary
tier an operation that rounds correctly is known from its exact result (`onWide_congr`).  Hence
the laws of signs hold for quantities as they hold for `Float`s and for exact values.
-/

namespace Fluxion.Number.Quantity

variable {policy : Policy} {a b q : Quantity} {bits : ℕ}

theorem magnitude_neg (w : Wide) : magnitude w.neg = magnitude w := by
  cases w with
  | nan | infinite negative => rfl
  | finite m e =>
      have habs : (Wide.finite (-m) e).abs = (Wide.finite m e).abs := by
        rw [Wide.abs, Wide.abs, Int.natAbs_neg]
      rw [Wide.neg, magnitude, magnitude, habs]
      rfl

/-! ## What an operation depends on -/

/-- The outcome of an operation that gives `x` in the fast tier, and `w` with so many bits in
the arbitrary tier.  Only the latter may be taken if `wide` is true. -/
def settle (policy : Policy) (wide : Bool) (prior : Float) (bits : ℕ) (x : Float) (w : Wide) :
    Quantity :=
  if wide || (x.isFinite && accumulate prior x.abs epsilon > policy.threshold * x.abs) then
    .arbitrary w bits (accumulate prior (magnitude w) (bitStep bits))
  else .fast x (accumulate prior x.abs epsilon)

def resultBits (policy : Policy) (a b : Quantity) : ℕ :=
  max (max a.bits b.bits) policy.bits

theorem le_resultBits (policy : Policy) (a b : Quantity) :
    a.bits ≤ resultBits policy a b ∧ b.bits ≤ resultBits policy a b ∧
      policy.bits ≤ resultBits policy a b :=
  ⟨le_trans (le_max_left _ _) (le_max_left _ _), le_trans (le_max_right _ _) (le_max_left _ _),
    le_max_right _ _⟩

theorem resultBits_pos (policy : Policy) (a b : Quantity) : 0 < resultBits policy a b :=
  policy.bits_pos.trans_le (le_resultBits policy a b).2.2

theorem resultBits_comm (policy : Policy) (a b : Quantity) :
    resultBits policy a b = resultBits policy b a := by
  rw [resultBits, resultBits, max_comm a.bits]

/-- The result of the fast tier does not matter where the arbitrary tier has to be taken. -/
theorem settle_congr {wide : Bool} {prior x x' : Float} {w w' : Wide}
    (hx : wide = true ∨ x = x') (hw : w = w') :
    settle policy wide prior bits x w = settle policy wide prior bits x' w' := by
  subst hw
  rcases hx with rfl | rfl <;> rfl

section

variable [Multiprecision]

/-- An operation is settled from its results in both tiers. -/
theorem apply_eq_settle (op : ArithmeticOp) (policy : Policy) (a b : Quantity) :
    apply op policy a b = settle policy (a.isArbitrary || b.isArbitrary) (a.error + b.error)
      (resultBits policy a b) (op.onFloat a.toFloat b.toFloat)
      (op.onWide (resultBits policy a b) (a.toWide (resultBits policy a b))
        (b.toWide (resultBits policy a b))) := by
  rw [apply, settle]
  cases htier : a.isArbitrary || b.isArbitrary with
  | true => rfl
  | false =>
      obtain ⟨ha, hb⟩ := Bool.or_eq_false_iff.mp htier
      have hpolicy : resultBits policy a b = policy.bits :=
        max_eq_right (max_le (bits_le_of_fast policy ha) (bits_le_of_fast policy hb))
      rw [hpolicy]
      rfl

/-! ## Opposite operands -/

@[simp]
theorem bits_neg (q : Quantity) : q.neg.bits = q.bits := by
  cases q <;> rfl

@[simp]
theorem error_neg (q : Quantity) : q.neg.error = q.error := by
  cases q <;> rfl

@[simp]
theorem isArbitrary_neg (q : Quantity) : q.neg.isArbitrary = q.isArbitrary := by
  cases q <;> rfl

theorem toFloat_neg (q : Quantity) : q.isArbitrary = true ∨ q.neg.toFloat = -q.toFloat := by
  cases q with
  | fast x error => exact .inr rfl
  | arbitrary w own error => exact .inl rfl

/-- What an operation with an opposite operand is settled from. -/
theorem apply_neg_right (op : ArithmeticOp) (policy : Policy) (a b : Quantity) :
    apply op policy a b.neg = settle policy (a.isArbitrary || b.isArbitrary) (a.error + b.error)
      (resultBits policy a b) (op.onFloat a.toFloat (-b.toFloat))
      (op.onWide (resultBits policy a b) (a.toWide (resultBits policy a b))
        (b.neg.toWide (resultBits policy a b))) := by
  have hbits : resultBits policy a b.neg = resultBits policy a b := by
    rw [resultBits, resultBits, bits_neg]
  rw [apply_eq_settle, hbits, isArbitrary_neg, error_neg]
  refine settle_congr ?_ rfl
  rcases toFloat_neg b with hwide | hfast
  · left
    rw [hwide, Bool.or_true]
  · right
    rw [hfast]

end

section

variable [Multiprecision] [RoundsCorrectly]

/-- The opposite of a quantity that fits its precision is exact. -/
theorem value_neg (h : q.value.HasBits q.bits) : q.neg.value = q.value.neg := by
  cases q with
  | fast x error => exact floatValue_neg x
  | arbitrary w own error => exact (RoundsCorrectly.neg (.inr h)).value_eq_of_hasBits h.neg

theorem value_toWide_neg (h : q.value.HasBits q.bits) (hle : q.bits ≤ bits) :
    (q.neg.toWide bits).value = (q.toWide bits).value.neg := by
  have hneg : q.neg.value.HasBits q.neg.bits := by
    rw [value_neg h, bits_neg]
    exact h.neg
  rw [value_toWide hneg (by rwa [bits_neg]), value_neg h, value_toWide h hle]

/-- The sign of what is settled is the sign of the outcome. -/
theorem settle_neg {w : Wide} (hw : Number.Stored bits w) (wide : Bool) (prior x : Float) :
    settle policy wide prior bits (-x) w.neg = (settle policy wide prior bits x w).neg := by
  have hneg : Multiprecision.neg bits w = w.neg :=
    (RoundsCorrectly.neg (.inr hw.hasBits)).unique hw.neg
  simp only [settle, isFinite_neg, float_abs_neg, magnitude_neg]
  split_ifs
  · rw [neg, hneg]
  · rfl

/-- Operations with the same exact result give the same number. -/
theorem onWide_congr {op op' : ArithmeticOp} {v v' w w' : Wide} (hbits : 0 < bits)
    (h : op.onValue v.value w.value = op'.onValue v'.value w'.value) :
    op.onWide bits v w = op'.onWide bits v' w' :=
  (h ▸ rounds_onWide hbits op v w).unique (rounds_onWide hbits op' v' w')

/-! ## The laws -/

theorem apply_add_comm (policy : Policy) (a b : Quantity) :
    apply .add policy a b = apply .add policy b a := by
  rw [apply_eq_settle, apply_eq_settle, Bool.or_comm, float_add_comm a.error, resultBits_comm]
  exact settle_congr (.inr (float_add_comm _ _))
    (onWide_congr (resultBits_pos policy b a) (Value.add_comm _ _))

theorem apply_mul_comm (policy : Policy) (a b : Quantity) :
    apply .mul policy a b = apply .mul policy b a := by
  rw [apply_eq_settle, apply_eq_settle, Bool.or_comm, float_add_comm a.error, resultBits_comm]
  exact settle_congr (.inr (float_mul_comm _ _))
    (onWide_congr (resultBits_pos policy b a) (Value.mul_comm _ _))

theorem apply_sub_eq_add_neg (policy : Policy) (a : Quantity) (hb : b.value.HasBits b.bits) :
    apply .sub policy a b = apply .add policy a b.neg := by
  rw [apply_neg_right, apply_eq_settle]
  refine settle_congr (.inr (float_sub_eq_add_neg _ _))
    (onWide_congr (resultBits_pos policy a b) ?_)
  rw [ArithmeticOp.onValue, ArithmeticOp.onValue,
    value_toWide_neg hb (le_resultBits policy a b).2.1]

theorem apply_mul_neg (policy : Policy) (a : Quantity) (hb : b.value.HasBits b.bits) :
    apply .mul policy a b.neg = (apply .mul policy a b).neg := by
  have hbits := resultBits_pos policy a b
  have hproduct := rounds_onWide hbits .mul (a.toWide (resultBits policy a b))
    (b.toWide (resultBits policy a b))
  have hopposite := rounds_onWide hbits .mul (a.toWide (resultBits policy a b))
    (b.neg.toWide (resultBits policy a b))
  rw [ArithmeticOp.onValue, value_toWide_neg hb (le_resultBits policy a b).2.1,
    Value.mul_neg] at hopposite
  rw [apply_neg_right, apply_eq_settle .mul policy a b, ← settle_neg (hproduct.stored hbits)]
  exact settle_congr (.inr (float_mul_neg _ _)) (hopposite.unique hproduct.neg)

end

/-- With any arithmetic that rounds correctly, sums and products do not depend on the order of
operands, a difference is the sum with the opposite, and the sign of a factor is that of the
product: in tier, value, precision and estimate, under every policy, and whatever the operands
are if the second one fits its precision. -/
theorem apply_respects_signs [Multiprecision] [RoundsCorrectly] (policy : Policy) (a : Quantity)
    {b : Quantity} (hb : b.value.HasBits b.bits) :
    apply .add policy a b = apply .add policy b a ∧
      apply .mul policy a b = apply .mul policy b a ∧
      apply .sub policy a b = apply .add policy a b.neg ∧
      apply .mul policy a b.neg = (apply .mul policy a b).neg :=
  ⟨apply_add_comm policy a b, apply_mul_comm policy a b, apply_sub_eq_add_neg policy a hb,
    apply_mul_neg policy a hb⟩

theorem apply_respects_signs_three :
    wideOne.value.HasBits wideOne.bits ∧
      apply .sub Policy.default fastThree wideOne =
        apply .add Policy.default fastThree wideOne.neg ∧
      apply .mul Policy.default fastThree wideOne.neg =
        (apply .mul Policy.default fastThree wideOne).neg := by
  have hone : wideOne.value.HasBits wideOne.bits := Built.hasBits (.ofInt (by decide) 1 0.0)
  exact ⟨hone, (apply_respects_signs Policy.default fastThree hone).2.2⟩

end Fluxion.Number.Quantity
