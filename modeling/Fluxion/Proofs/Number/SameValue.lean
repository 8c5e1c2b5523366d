import Fluxion.Proofs.Number.Construction
import Fluxion.Proofs.Number.Estimates
import Mathlib.Data.EReal.Basic

/-!
# Quantities of the same value

Quantities are compared in the tier and at the precision that hold both of them, so nothing
is rounded for the comparison.  What is compared there is the form of two binary numbers, and
with an arithmetic that rounds correctly the form of a number is known from its value.

So `sameValue` decides whether two values are the same (`sameValue_iff_value_eq`), which is to
say whether both are not numbers or both stand for one extended real:
`sameValue_decides_extended`.
-/

open Float.Model

namespace Fluxion.Number

/-! ## Comparing quantities -/

/-- The extended real that a value stands for, if it is a number. -/
noncomputable def Value.extended : Value → Option EReal
  | .nan => none
  | .infinite true => some ⊥
  | .infinite false => some ⊤
  | .finite v => some ((v : ℝ) : EReal)

theorem Value.extended_injective : Function.Injective Value.extended := by
  intro v w h
  rcases v with _ | (_ | _) | v <;> rcases w with _ | (_ | _) | w <;> simp_all [extended]

/-- Values are equal if neither is a number or both are the same extended real. -/
theorem Value.eq_iff_extended {v w : Value} :
    v = w ↔ v = .nan ∧ w = .nan ∨ ∃ r, v.extended = some r ∧ w.extended = some r := by
  constructor
  · rintro rfl
    cases h : v.extended with
    | none =>
        have hnan : v = .nan := extended_injective h
        exact Or.inl ⟨hnan, hnan⟩
    | some r => exact Or.inr ⟨r, rfl, rfl⟩
  · rintro (⟨rfl, rfl⟩ | ⟨r, hv, hw⟩)
    · rfl
    · exact extended_injective (hv.trans hw.symm)

namespace Quantity

variable {a b : Quantity}

theorem isNaN_iff_value_eq : a.isNaN = true ↔ a.value = .nan := by
  cases a with
  | fast x error => exact isNaN_iff_floatValue_eq
  | arbitrary w bits error => exact Wide.isNaN_iff

theorem built_clone [Multiprecision] (ha : Built a) : Built a.clone :=
  .step (List.forall_mem_singleton.mpr ha) (.clone a) (by cases a <;> exact ha.bits_pos)

theorem built_toArbitrary [Multiprecision] {bits : ℕ} (ha : Built a) (hle : a.bits ≤ bits) :
    Built (a.toArbitrary bits) :=
  .step (List.forall_mem_singleton.mpr ha) (.toArbitrary bits a) (ha.bits_pos.trans_le hle)

section

variable [Multiprecision] [RoundsCorrectly] {bits : ℕ}

/-- A precision that holds both quantities tells them apart. -/
theorem toWide_eq_iff_value_eq (ha : Built a) (hb : Built b) (habits : a.bits ≤ bits)
    (hbbits : b.bits ≤ bits) : a.toWide bits = b.toWide bits ↔ a.value = b.value := by
  rw [← value_toWide ha.hasBits habits, ← value_toWide hb.hasBits hbbits]
  have hbits : 0 < bits := ha.bits_pos.trans_le habits
  exact ⟨congrArg Wide.value, (stored_toWide ha.stored hbits).reduced.eq_of_value_eq
    (stored_toWide hb.stored hbits).reduced⟩

/-- On what is built, comparing quantities is comparing values. -/
theorem sameValue_iff_value_eq (ha : Built a) (hb : Built b) :
    sameValue a b = true ↔ a.value = b.value := by
  rw [sameValue]
  split_ifs with hnan htier
  · rw [Bool.and_eq_true, isNaN_iff_value_eq, isNaN_iff_value_eq]
    rw [Bool.or_eq_true, isNaN_iff_value_eq, isNaN_iff_value_eq] at hnan
    constructor
    · rintro ⟨hleft, hright⟩
      rw [hleft, hright]
    · intro h
      rcases hnan with hleft | hright
      · exact ⟨hleft, h ▸ hleft⟩
      · exact ⟨h ▸ hright, hright⟩
  · rw [beq_iff_eq]
    exact toWide_eq_iff_value_eq ha hb (le_max_left _ _) (le_max_right _ _)
  · have hnumber : a.isNaN = false := (Bool.or_eq_false_iff.mp (Bool.not_eq_true _ ▸ hnan)).1
    cases a with
    | arbitrary w bits error => exact absurd rfl htier
    | fast x error => cases b with
      | arbitrary w bits error' => exact absurd rfl htier
      | fast y error' => exact beq_iff_floatValue_eq hnumber

theorem value_clone (h : a.value.HasBits a.bits) : a.clone.value = a.value := by
  cases a with
  | fast x error => rfl
  | arbitrary w bits error => exact (RoundsCorrectly.round (.inr h)).value_eq_of_hasBits h

end

/-- With any arithmetic that rounds correctly, comparing quantities decides whether both are not
numbers or both stand for one extended real, whatever tiers, precisions and estimates they have.
So it is an equivalence, and neither a clone nor a conversion to at least the own precision tells
a quantity apart. -/
theorem sameValue_decides_extended [Multiprecision] [RoundsCorrectly] :
    (∀ {a b : Quantity}, Built a → Built b →
      (sameValue a b = true ↔ a.isNaN = true ∧ b.isNaN = true ∨
        ∃ r : EReal, a.value.extended = some r ∧ b.value.extended = some r)) ∧
    Equivalence (fun a b : {q // Built q} => sameValue a.1 b.1 = true) ∧
    ∀ {a : Quantity}, Built a → sameValue a a.clone = true ∧
      ∀ {bits : ℕ}, a.bits ≤ bits → sameValue a (a.toArbitrary bits) = true := by
  have hiff : ∀ a b : {q // Built q}, sameValue a.1 b.1 = true ↔ a.1.value = b.1.value :=
    fun a b => sameValue_iff_value_eq a.2 b.2
  refine ⟨fun {a b} ha hb => ?_, ⟨fun a => ?_, fun {a b} h => ?_, fun {a b c} hab hbc => ?_⟩,
    fun {a} ha => ⟨?_, fun {bits} hle => ?_⟩⟩
  · rw [sameValue_iff_value_eq ha hb, isNaN_iff_value_eq, isNaN_iff_value_eq]
    exact Value.eq_iff_extended
  · exact (hiff a a).mpr rfl
  · exact (hiff b a).mpr ((hiff a b).mp h).symm
  · exact (hiff a c).mpr (((hiff a b).mp hab).trans ((hiff b c).mp hbc))
  · exact (sameValue_iff_value_eq ha (built_clone ha)).mpr (value_clone ha.hasBits).symm
  · exact (sameValue_iff_value_eq ha (built_toArbitrary ha hle)).mpr
      (value_toWide ha.hasBits hle).symm

theorem sameValue_decides_extended_three :
    Built fastThree ∧ Built wideOne ∧ Built (.arbitrary (Wide.ofInt 24 3 0) 24 0.5) ∧
      sameValue fastThree (.arbitrary (Wide.ofInt 24 3 0) 24 0.5) = true ∧
      sameValue fastThree wideOne = false ∧
      fastThree.bits ≤ 60 ∧ sameValue fastThree (fastThree.toArbitrary 60) = true := by
  have hthree : Built fastThree := .ofFloat 3.0 0.0
  have hone : Built wideOne := .ofInt (by decide) 1 0.0
  have hshort : Built (.arbitrary (Wide.ofInt 24 3 0) 24 0.5) := .ofInt (by decide) 3 0.5
  have hvalue : (Quantity.arbitrary (Wide.ofInt 24 3 0) 24 0.5).value = .finite 3 := by
    have hbits : HasBits 24 ((3 : ℤ) : ℚ) := ⟨3, 0, by norm_num, by norm_num⟩
    rw [value, Wide.value_ofInt_of_hasBits hbits, Int.cast_ofNat]
  refine ⟨hthree, hone, hshort, ?_, ?_, by decide,
    (sameValue_decides_extended.2.2 hthree).2 (by decide)⟩
  · rw [sameValue_decides_extended.1 hthree hshort, value_fastThree, hvalue]
    exact Or.inr ⟨_, rfl, rfl⟩
  · rw [← Bool.not_eq_true, sameValue_decides_extended.1 hthree hone]
    rintro (⟨hnan, -⟩ | ⟨r, hleft, hright⟩)
    · cases hnan
    · have hsame := Value.extended_injective (hleft.trans hright.symm)
      rw [value_fastThree, value_wideOne] at hsame
      norm_num at hsame

end Quantity

end Fluxion.Number
