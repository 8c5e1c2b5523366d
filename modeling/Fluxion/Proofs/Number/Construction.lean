import Fluxion.Proofs.Number.Multiprecision

/-!
# How quantities are made

`MadeFrom` is one operation, with the quantities it works on, and `Built` is what any
number of operations makes of given numbers.  If the arithmetic rounds correctly, a quantity
that was built holds a number that was rounded to its precision (`Built.stored`), so it has no
more bits (`Built.hasBits`).  Hence an operation of the arbitrary tier loses nothing before its
result is rounded.  With the standard arithmetic it rounds once: `apply_rounds_once`.
-/

namespace Fluxion.Number

open Quantity

/-- A quantity and the quantities that it is made from by one operation. -/
inductive MadeFrom [Multiprecision] : List Quantity → Quantity → Prop where
  | apply (op : ArithmeticOp) (policy : Policy) (a b : Quantity) :
      MadeFrom [a, b] (Quantity.apply op policy a b)
  | neg (a : Quantity) : MadeFrom [a] a.neg
  | clone (a : Quantity) : MadeFrom [a] a.clone
  | toArbitrary (bits : ℕ) (a : Quantity) : MadeFrom [a] (a.toArbitrary bits)

/-- Quantities that are made from given numbers, by any operations under any policies.  The
precision of a quantity is positive. -/
inductive Built [Multiprecision] : Quantity → Prop where
  | ofFloat (x error : Float) : Built (.fast x error)
  | ofText {bits : ℕ} (hbits : 0 < bits) {text : String} {w : Wide}
      (hread : Multiprecision.read bits text = .ok w) (error : Float) :
      Built (.arbitrary w bits error)
  | ofFloatAt {bits : ℕ} (hbits : 0 < bits) (x error : Float) :
      Built (.arbitrary (Multiprecision.ofFloat bits x) bits error)
  | ofInt {bits : ℕ} (hbits : 0 < bits) (n : ℤ) (error : Float) :
      Built (.arbitrary (Multiprecision.ofInt bits n) bits error)
  | ofWide {bits : ℕ} (hbits : 0 < bits) (w : Wide) (error : Float) :
      Built (.arbitrary (Multiprecision.round bits w) bits error)
  | step {operands : List Quantity} {q : Quantity} (hoperands : ∀ a ∈ operands, Built a)
      (hmade : MadeFrom operands q) (hbits : 0 < q.bits) : Built q

variable {op : ArithmeticOp} {policy : Policy} {a b q : Quantity} {w : Wide} {bits : ℕ}
  {error : Float}

/-! ## Conversions -/

/-- A quantity of the arbitrary tier holds a number as it is stored with its bits. -/
def Quantity.Stored : Quantity → Prop
  | .fast _ _ => True
  | .arbitrary w bits _ => Number.Stored bits w

theorem Quantity.Stored.hasBits (h : q.Stored) : q.value.HasBits q.bits := by
  cases q with
  | fast x error => exact hasBits_floatValue x
  | arbitrary w bits error => exact Number.Stored.hasBits h

section

variable [Multiprecision] [RoundsCorrectly]

/-- A precision that is high enough loses nothing. -/
theorem value_toWide (h : q.value.HasBits q.bits) (hle : q.bits ≤ bits) :
    (q.toWide bits).value = q.value := by
  cases q with
  | fast x error =>
      have hbits : 0 < bits := Nat.lt_of_lt_of_le (by decide : 0 < floatBits) hle
      exact (RoundsCorrectly.ofFloat hbits x).value_eq_of_hasBits (h.mono hle)
  | arbitrary w own error =>
      rw [toWide]
      split_ifs
      · rfl
      · exact (RoundsCorrectly.round (.inr (h.mono hle))).value_eq_of_hasBits (h.mono hle)

/-- A conversion gives a number as it is stored with the bits that it is made for. -/
theorem stored_toWide (h : q.Stored) (hbits : 0 < bits) : Number.Stored bits (q.toWide bits) := by
  cases q with
  | fast x error => exact (RoundsCorrectly.ofFloat hbits x).stored hbits
  | arbitrary w own error =>
      rw [toWide]
      split_ifs with hsame
      · exact hsame ▸ h
      · exact (RoundsCorrectly.round (.inl hbits)).stored hbits

end

/-! ## Operations -/

theorem Policy.bits_pos (policy : Policy) : 0 < policy.bits :=
  Nat.lt_of_lt_of_le (by decide) policy.floatBits_le_bits

/-- Every policy has enough bits for the fast tier. -/
theorem bits_le_of_fast (policy : Policy) (h : q.isArbitrary = false) : q.bits ≤ policy.bits := by
  cases q with
  | fast x error => exact policy.floatBits_le_bits
  | arbitrary w bits error => cases h

/-- An operation stays in the fast tier, or it is carried out with enough bits for its
operands and the policy. -/
theorem apply_cases [Multiprecision] (op : ArithmeticOp) (policy : Policy) (a b : Quantity) :
    (∃ bits, a.bits ≤ bits ∧ b.bits ≤ bits ∧ policy.bits ≤ bits ∧
      apply op policy a b = arbitraryOp op a b (a.error + b.error) bits) ∨
    (a.isArbitrary = false ∧ b.isArbitrary = false ∧
      apply op policy a b = .fast (op.onFloat a.toFloat b.toFloat)
        (accumulate (a.error + b.error) (op.onFloat a.toFloat b.toFloat).abs epsilon)) := by
  rw [apply]
  dsimp only
  split_ifs with htier hpromote
  · exact Or.inl ⟨_, le_trans (le_max_left _ _) (le_max_left _ _),
      le_trans (le_max_right _ _) (le_max_left _ _), le_max_right _ _, rfl⟩
  · obtain ⟨ha, hb⟩ := Bool.or_eq_false_iff.mp (Bool.not_eq_true _ ▸ htier)
    exact Or.inl ⟨policy.bits, bits_le_of_fast policy ha, bits_le_of_fast policy hb, le_refl _, rfl⟩
  · obtain ⟨ha, hb⟩ := Bool.or_eq_false_iff.mp (Bool.not_eq_true _ ▸ htier)
    exact Or.inr ⟨ha, hb, rfl⟩

/-- A result in the arbitrary tier was computed there, with enough bits for operands and policy.
-/
theorem apply_eq_arbitrary [Multiprecision]
    (h : apply op policy a b = .arbitrary w bits error) :
    a.bits ≤ bits ∧ b.bits ≤ bits ∧ policy.bits ≤ bits ∧
      w = op.onWide bits (a.toWide bits) (b.toWide bits) := by
  rcases apply_cases op policy a b with ⟨bits', ha, hb, hpolicy, heq⟩ | ⟨_, _, heq⟩
  · rw [h, arbitraryOp] at heq
    injection heq with hw hbits
    subst hbits
    exact ⟨ha, hb, hpolicy, hw⟩
  · rw [h] at heq
    cases heq

/-! ## What is built -/

theorem Built.bits_pos [Multiprecision] (h : Built q) : 0 < q.bits := by
  cases h with
  | ofFloat x error => exact (by decide : 0 < floatBits)
  | ofText hbits | ofFloatAt hbits | ofInt hbits | ofWide hbits | step _ _ hbits => exact hbits

section

variable [Multiprecision] [RoundsCorrectly]

/-- Every operation that gives a quantity of positive precision stores its result with it. -/
theorem stored_of_madeFrom {operands : List Quantity} (hmade : MadeFrom operands q)
    (hbits : 0 < q.bits) (hoperands : ∀ a ∈ operands, a.Stored) : q.Stored := by
  cases hmade with
  | apply op policy a b =>
      rcases apply_cases op policy a b with ⟨bits, _, _, hpolicy, heq⟩ | ⟨_, _, heq⟩
      · have hpositive : 0 < bits := policy.bits_pos.trans_le hpolicy
        rw [heq]
        exact (rounds_onWide hpositive op _ _).stored hpositive
      · rw [heq]
        trivial
  | neg a =>
      cases a with
      | fast x error => trivial
      | arbitrary w bits error => exact (RoundsCorrectly.neg (.inl hbits)).stored hbits
  | clone a =>
      cases a with
      | fast x error => trivial
      | arbitrary w bits error => exact (RoundsCorrectly.round (.inl hbits)).stored hbits
  | toArbitrary bits a => exact stored_toWide (hoperands a List.mem_cons_self) hbits

/-- What is built is stored with its precision, by induction over the operations. -/
theorem Built.stored (h : Built q) : q.Stored := by
  induction h with
  | ofFloat x error => trivial
  | ofText hbits hread error => exact RoundsCorrectly.read hbits hread
  | ofFloatAt hbits x error => exact (RoundsCorrectly.ofFloat hbits x).stored hbits
  | ofInt hbits n error => exact (RoundsCorrectly.ofInt hbits n).stored hbits
  | ofWide hbits w error => exact (RoundsCorrectly.round (.inl hbits)).stored hbits
  | step _ hmade hbits ih => exact stored_of_madeFrom hmade hbits ih

/-- What is built has no more bits than its precision. -/
theorem Built.hasBits (h : Built q) : q.value.HasBits q.bits :=
  h.stored.hasBits

end

/-- Quantities of the arbitrary tier keep within their precision, and an operation that is
carried out there loses nothing before it rounds the exact result, once.  This is the standard
arithmetic with all its steps on integers; nothing is assumed of it. -/
theorem apply_rounds_once :
    (∀ {w : Wide} {bits : ℕ} {error : Float}, Built (.arbitrary w bits error) →
      w.value.HasBits bits) ∧
    ∀ {a b : Quantity}, Built a → Built b → ∀ (op : ArithmeticOp) (policy : Policy) {w : Wide}
      {bits : ℕ} {error : Float}, apply op policy a b = .arbitrary w bits error →
      (a.bits ≤ bits ∧ b.bits ≤ bits ∧ policy.bits ≤ bits) ∧
      w = op.onWide bits (a.toWide bits) (b.toWide bits) ∧
      (a.toWide bits).value = a.value ∧ (b.toWide bits).value = b.value ∧
      ∀ x y : ℚ, a.value = .finite x → b.value = .finite y → (op = .div → y ≠ 0) →
        w.value = .finite (roundTo bits (op.exact x y)) := by
  refine ⟨fun h => h.hasBits, fun {a b} ha hb op policy {w bits error} happly => ?_⟩
  obtain ⟨habits, hbbits, hpolicy, hw⟩ := apply_eq_arbitrary happly
  have hleft : (a.toWide bits).value = a.value := value_toWide ha.hasBits habits
  have hright : (b.toWide bits).value = b.value := value_toWide hb.hasBits hbbits
  refine ⟨⟨habits, hbbits, hpolicy⟩, hw, hleft, hright, fun x y hx hy hdiv => ?_⟩
  rw [hw]
  exact value_onWide (policy.bits_pos.trans_le hpolicy) op (hleft.trans hx) (hright.trans hy) hdiv

def wideOne : Quantity :=
  .arbitrary (Wide.ofInt 113 1 0) 113 0.0

def fastThree : Quantity :=
  .fast 3.0 0.0

theorem value_wideOne : wideOne.value = .finite 1 := by
  have hone : HasBits 113 ((1 : ℤ) : ℚ) := ⟨1, 0, by norm_num, by norm_num⟩
  rw [wideOne, value, Wide.value_ofInt_of_hasBits hone, Int.cast_one]

theorem value_fastThree : fastThree.value = .finite 3 := by
  have hread : Binary64.ofFloat 3.0 = .finite false 6755399441055744 (-51) := by decide
  rw [fastThree, value, floatValue, hread, Binary64.value, Wide.signed]
  norm_num

theorem apply_rounds_once_third :
    Built wideOne ∧ Built fastThree ∧ ∃ w error,
      apply .div Policy.default wideOne fastThree = .arbitrary w 113 error ∧
        w.value = .finite (roundTo 113 (1 / 3)) := by
  have hone : Built wideOne := .ofInt (by decide) 1 0.0
  have hthree : Built fastThree := .ofFloat 3.0 0.0
  have happly : apply .div Policy.default wideOne fastThree =
      arbitraryOp .div wideOne fastThree (wideOne.error + fastThree.error) 113 := rfl
  exact ⟨hone, hthree, _, _, happly,
    (apply_rounds_once.2 hone hthree .div Policy.default happly).2.2.2.2 1 3 value_wideOne
      value_fastThree (fun _ => by norm_num)⟩

end Fluxion.Number
