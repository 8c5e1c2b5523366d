import Fluxion.Proofs.Number.Arithmetic
import Fluxion.Proofs.Number.Construction

/-!
# Estimates only grow

An estimate of an error is a `Float` that is not below zero; it may be infinite.  A sum of
estimates is not below either of them, since rounding passes no `Float`, and what an
operation adds is not negative.  So no operation gives an estimate below the sum of those of
its operands: `le_error_apply`.
-/

open Float.Model

namespace Fluxion.Number

open Quantity

/-- The number estimates an error: it is not below zero, and it may be infinite. -/
def IsEstimate (x : Float) : Prop :=
  0.0 ≤ x

variable {x y z : Float} {v : ℚ}

theorem floatValue_zero : floatValue 0.0 = .finite 0 := by
  have hread : Binary64.ofFloat 0.0 = .finite false 0 (-1074) := by decide
  rw [floatValue, hread, Binary64.value, signed_zero, Int.cast_zero, zero_mul]

/-- An estimate is positive infinity or a rational number that is not negative. -/
theorem isEstimate_iff : IsEstimate x ↔
    floatValue x = .infinite false ∨ ∃ v, 0 ≤ v ∧ floatValue x = .finite v := by
  rw [IsEstimate, le_iff_value_le, floatValue_zero]
  cases floatValue x with
  | nan => simp [Value.le]
  | infinite negative => cases negative <;> simp [Value.le]
  | finite v => simp [Value.le]

theorem isEstimate_of_finite (hv : 0 ≤ v) (h : floatValue x = .finite v) : IsEstimate x :=
  isEstimate_iff.mpr (Or.inr ⟨v, hv, h⟩)

theorem isEstimate_of_infinite (h : floatValue x = .infinite false) : IsEstimate x :=
  isEstimate_iff.mpr (Or.inl h)

/-- A number that is nearest to one that is not negative is an estimate. -/
theorem isEstimate_of_rounded (hv : 0 ≤ v) (h : floatValue x = rounded v) : IsEstimate x := by
  rw [rounded, decide_eq_false (not_lt.mpr hv)] at h
  split_ifs at h
  · exact isEstimate_of_finite (roundFloat_nonneg hv) h
  · exact isEstimate_of_infinite h

/-! ## The order of estimates -/

theorem Value.trans_le {a b c : Value} (hab : a.le b) (hbc : b.le c) : a.le c := by
  rcases a with _ | (_ | _) | u <;> rcases b with _ | (_ | _) | v <;>
    rcases c with _ | (_ | _) | w <;>
    first
      | trivial
      | exact hab.elim
      | exact hbc.elim
      | exact @le_trans ℚ _ _ _ _ hab hbc

theorem float_le_trans (hxy : x ≤ y) (hyz : y ≤ z) : x ≤ z := by
  rw [le_iff_value_le] at hxy hyz ⊢
  exact Value.trans_le hxy hyz

theorem IsEstimate.of_le (h : IsEstimate x) (hxy : x ≤ y) : IsEstimate y :=
  float_le_trans h hxy

theorem IsEstimate.self_le (h : IsEstimate x) : x ≤ x := by
  rw [le_iff_value_le]
  rcases isEstimate_iff.mp h with hx | ⟨v, _, hx⟩
  · rw [hx]
    trivial
  · rw [hx]
    exact le_refl v

theorem IsEstimate.nonneg (h : IsEstimate x) (hx : floatValue x = .finite v) : 0 ≤ v := by
  rw [isEstimate_iff, hx] at h
  rcases h with h | ⟨w, hw, h⟩
  · cases h
  · obtain rfl := Value.finite.inj h
    exact hw

theorem IsEstimate.not_isNaN (h : IsEstimate x) : x.isNaN = false := by
  cases hunpack : x.toModel.unpack with
  | notANumber =>
      have hvalue : floatValue x = .nan := by
        rw [← unpackedValue_unpack, hunpack]
        rfl
      rw [isEstimate_iff, hvalue] at h
      rcases h with h | ⟨_, _, h⟩ <;> cases h
  | infinity s | zero s | finite s m e hm =>
      rw [Float.isNaN, Float.Model.isNaN, hunpack]
      rfl

theorem floatValue_infinity : floatValue infinity = .infinite false := by
  rw [floatValue, Binary64.ofFloat_infinity]
  rfl

/-- Nothing is above infinity. -/
theorem IsEstimate.le_of_infinite (h : IsEstimate x) (hy : floatValue y = .infinite false) :
    x ≤ y := by
  rw [le_iff_value_le, hy]
  rcases isEstimate_iff.mp h with hx | ⟨v, _, hx⟩ <;> rw [hx] <;> trivial

/-- A `Float` is not above what is nearest to a larger number. -/
theorem le_of_rounded (hx : floatValue x = .finite v) {w : ℚ} (hv : 0 ≤ v) (hvw : v ≤ w)
    (hy : floatValue y = rounded w) : x ≤ y := by
  rw [rounded, decide_eq_false (not_lt.mpr (hv.trans hvw))] at hy
  split_ifs at hy
  · rw [le_iff_value_le, hx, hy]
    exact le_roundFloat (representable_of_floatValue hx) hvw
  · exact (isEstimate_of_finite hv hx).le_of_infinite hy

/-! ## Sums and products -/

theorem unpack_of_infinite (h : floatValue x = .infinite false) :
    x.toModel.unpack = .infinity .positive := by
  rw [← unpackedValue_unpack] at h
  cases hunpack : x.toModel.unpack with
  | infinity s =>
      rw [hunpack] at h
      cases s with
      | negative => cases h
      | positive => rfl
  | notANumber | zero s | finite s m e hm =>
      rw [hunpack] at h
      cases h

theorem floatValue_pack_infinity (s : UnpackedFloat.Sign) :
    floatValue (.ofModel (Float.Model.pack (.infinity s))) = .infinite (isMinus s) := by
  have hunpack : (Float.Model.pack (.infinity s)).unpack = .infinity s := by cases s <;> rfl
  rw [floatValue_pack, hunpack]
  rfl

/-- A sum with an infinite estimate is infinite. -/
theorem floatValue_add_of_infinite (hx : IsEstimate x) (hy : IsEstimate y)
    (h : floatValue x = .infinite false ∨ floatValue y = .infinite false) :
    floatValue (x + y) = .infinite false := by
  have hadd : x + y = .ofModel (Float.Model.pack
      (UnpackedFloat.add Format.binary64 x.toModel.unpack y.toModel.unpack)) := rfl
  have hsum : UnpackedFloat.add Format.binary64 x.toModel.unpack y.toModel.unpack =
      .infinity .positive := by
    rcases isEstimate_iff.mp hx with hx | ⟨a, _, hx⟩ <;>
      rcases isEstimate_iff.mp hy with hy | ⟨b, _, hy⟩
    · rw [unpack_of_infinite hx, unpack_of_infinite hy]
      rfl
    · rw [unpack_of_infinite hx]
      rcases unpack_cases hy with ⟨s, hyu, -⟩ | ⟨s, m, e, hm, hyu, -, -⟩ <;> rw [hyu] <;> rfl
    · rw [unpack_of_infinite hy]
      rcases unpack_cases hx with ⟨s, hxu, -⟩ | ⟨s, m, e, hm, hxu, -, -⟩ <;> rw [hxu] <;> rfl
    · rw [hx, hy] at h
      rcases h with h | h <;> cases h
  rw [hadd, hsum, floatValue_pack_infinity]
  rfl

/-- A sum of estimates is not below them. -/
theorem IsEstimate.le_add (hx : IsEstimate x) (hy : IsEstimate y) : x ≤ x + y ∧ y ≤ x + y := by
  by_cases hinfinite : floatValue x = .infinite false ∨ floatValue y = .infinite false
  · have hsum := floatValue_add_of_infinite hx hy hinfinite
    exact ⟨hx.le_of_infinite hsum, hy.le_of_infinite hsum⟩
  · obtain ⟨hxfinite, hyfinite⟩ := not_or.mp hinfinite
    obtain ⟨a, ha, hxa⟩ := (isEstimate_iff.mp hx).resolve_left hxfinite
    obtain ⟨b, hb, hyb⟩ := (isEstimate_iff.mp hy).resolve_left hyfinite
    have hsum := floatValue_add hxa hyb
    exact ⟨le_of_rounded hxa ha (by linarith) hsum, le_of_rounded hyb hb (by linarith) hsum⟩

theorem IsEstimate.add (hx : IsEstimate x) (hy : IsEstimate y) : IsEstimate (x + y) :=
  hx.of_le (hx.le_add hy).1

/-- A product of finite estimates is an estimate. -/
theorem isEstimate_mul {a b : ℚ} (ha : 0 ≤ a) (hb : 0 ≤ b) (hx : floatValue x = .finite a)
    (hy : floatValue y = .finite b) : IsEstimate (x * y) :=
  isEstimate_of_rounded (mul_nonneg ha hb) (floatValue_mul hx hy)

/-! ## Finite numbers -/

theorem isFinite_iff : x.isFinite = true ↔ ∃ v, floatValue x = .finite v := by
  rw [Float.isFinite, Float.Model.isFinite, ← unpackedValue_unpack]
  cases x.toModel.unpack with
  | notANumber => simp [UnpackedFloat.isFinite, unpackedValue]
  | infinity s => simp [UnpackedFloat.isFinite, unpackedValue]
  | zero s => simp [UnpackedFloat.isFinite, unpackedValue]
  | finite s m e hm => simp [UnpackedFloat.isFinite, unpackedValue]

theorem isFinite_eq (x : Float) : x.isFinite = !(x.isNaN || x.isInf) := by
  rw [Float.isFinite, Float.isNaN, Float.isInf, Float.Model.isFinite, Float.Model.isNaN,
    Float.Model.isInf]
  cases x.toModel.unpack <;> rfl

/-- The size of a number is an estimate if it is finite, which it is if the number is. -/
theorem floatValue_abs (h : floatValue x = .finite v) : floatValue x.abs = .finite |v| := by
  have habs : x.abs = .ofModel (Float.Model.pack x.toModel.unpack.abs) := rfl
  rw [habs]
  rcases unpack_cases h with ⟨s, hxu, rfl⟩ | ⟨s, m, e, hm, hxu, hnormal, rfl⟩ <;> rw [hxu]
  · rw [abs_zero, ← rounded_zero]
    exact floatValue_pack_zero .positive
  · have hsize : |(Wide.signed (isMinus s) m : ℚ) * 2 ^ e| = m * 2 ^ e := by
      have hpos : (0 : ℚ) ≤ m * 2 ^ e := by positivity
      cases s
      · rw [value_negative, abs_neg, abs_of_nonneg hpos]
      · rw [value_positive, abs_of_nonneg hpos]
    rw [UnpackedFloat.abs, floatValue_pack_finite .positive hm hnormal,
      if_pos (hnormal.lt_iff.mpr (normalized_of_unpack hxu).2), value_positive, hsize]

theorem isFinite_abs (x : Float) : x.abs.isFinite = x.isFinite := by
  cases hfinite : x.isFinite with
  | true =>
      obtain ⟨v, hv⟩ := isFinite_iff.mp hfinite
      exact isFinite_iff.mpr ⟨_, floatValue_abs hv⟩
  | false =>
      rw [Float.isFinite, Float.Model.isFinite] at hfinite
      have habs : x.abs.isFinite = (Float.Model.pack x.toModel.unpack.abs).unpack.isFinite := rfl
      rw [habs]
      cases hunpack : x.toModel.unpack with
      | notANumber => rfl
      | infinity s => cases s <;> rfl
      | zero s | finite s m e hm =>
          rw [hunpack] at hfinite
          cases hfinite

/-! ## The size of a step -/

theorem floatValue_epsilon : floatValue epsilon = .finite (2 ^ (-52 : ℤ)) := by
  have hread : Binary64.ofFloat epsilon = .finite false 4503599627370496 (-104) := by
    decide
  rw [floatValue, hread, Binary64.value, Wide.signed]
  norm_num

/-- A step is finite and not negative; it may underflow to zero. -/
theorem floatValue_bitStep (bits : ℕ) :
    ∃ v, 0 ≤ v ∧ floatValue (bitStep bits) = .finite v := by
  have hpower : 0 < Nat.pow 2 bits := Nat.pow_pos (by decide)
  have hpositive : (0 : ℚ) < 1 / (Nat.pow 2 bits : ℕ) := by positivity
  have hsmall : |(1 : ℚ) / (Nat.pow 2 bits : ℕ)| ≤ 2 ^ (0 : ℤ) := by
    rw [abs_of_pos hpositive, zpow_zero]
    exact div_le_one_of_le₀ (by exact_mod_cast Nat.one_le_two_pow) (Nat.cast_nonneg _)
  have hplace : floatPlace ((1 : ℚ) / (Nat.pow 2 bits : ℕ)) ≤ 0 := by
    refine max_le (place_lt_of_abs_lt hpositive.ne' ?_) (by decide)
    exact hsmall.trans_lt (zpow_lt_zpow_right₀ (by norm_num) (by decide))
  have hround : |roundFloat ((1 : ℚ) / (Nat.pow 2 bits : ℕ))| < 2 ^ (1024 : ℤ) :=
    (abs_roundAt_le hplace hsmall).trans_lt (zpow_lt_zpow_right₀ (by norm_num) (by decide))
  have hvalue : floatValue (bitStep bits) = rounded ((1 : ℚ) / (Nat.pow 2 bits : ℕ)) := by
    exact floatValue_nearest false 1 hpower
  refine ⟨_, roundFloat_nonneg hpositive.le, ?_⟩
  rw [hvalue, rounded, if_pos hround]

/-! ## One step more -/

theorem isFinite_infinity : infinity.isFinite = false := by
  cases hfinite : infinity.isFinite with
  | false => rfl
  | true =>
      obtain ⟨v, hv⟩ := isFinite_iff.mp hfinite
      rw [floatValue_infinity] at hv
      cases hv

theorem accumulate_of_not_finite {magnitude : Float} (h : magnitude.isFinite = false)
    (prior step : Float) : accumulate prior magnitude step = infinity := by
  rw [accumulate, if_neg (Bool.eq_false_iff.mp h)]

/-- One step more makes an estimate no smaller. -/
theorem IsEstimate.le_accumulate {prior magnitude step : Float} {b : ℚ} (h : IsEstimate prior)
    (hmagnitude : ∀ a, floatValue magnitude = .finite a → 0 ≤ a) (hb : 0 ≤ b)
    (hstep : floatValue step = .finite b) : prior ≤ accumulate prior magnitude step := by
  cases hfinite : magnitude.isFinite with
  | false =>
      rw [accumulate_of_not_finite hfinite]
      exact h.le_of_infinite floatValue_infinity
  | true =>
      obtain ⟨a, ha⟩ := isFinite_iff.mp hfinite
      rw [accumulate, if_pos hfinite]
      exact (h.le_add (isEstimate_mul (hmagnitude a ha) hb ha hstep)).1

/-- The step of the fast tier is relative to the size of the result. -/
theorem IsEstimate.le_accumulate_abs {prior : Float} (h : IsEstimate prior) (x : Float) :
    prior ≤ accumulate prior x.abs epsilon := by
  refine h.le_accumulate (fun a ha => ?_) (by positivity) floatValue_epsilon
  have hfinite : x.isFinite = true := by
    rw [← isFinite_abs]
    exact isFinite_iff.mpr ⟨a, ha⟩
  obtain ⟨v, hv⟩ := isFinite_iff.mp hfinite
  rw [floatValue_abs hv] at ha
  obtain rfl := Value.finite.inj ha
  exact abs_nonneg v

/-! ## Operations on quantities -/

theorem magnitude_of_not_finite {w : Wide} (h : (w.isNaN || w.isInfinite) = true) :
    magnitude w = infinity := by
  rw [magnitude, if_pos h]

theorem magnitude_nonneg {w : Wide} {a : ℚ} (h : floatValue (magnitude w) = .finite a) :
    0 ≤ a := by
  cases w with
  | nan =>
      rw [magnitude_of_not_finite rfl, floatValue_infinity] at h
      cases h
  | infinite negative =>
      rw [magnitude_of_not_finite rfl, floatValue_infinity] at h
      cases h
  | finite m e =>
      have habs : (Wide.abs (.finite m e)).value = .finite ((m.natAbs : ℚ) * 2 ^ e) := by
        simp [Wide.abs, Wide.value]
      have hvalue : floatValue (magnitude (.finite m e)) =
          rounded (roundTo floatBits ((m.natAbs : ℚ) * 2 ^ e)) := by
        rw [magnitude, if_neg (by exact Bool.false_ne_true)]
        exact floatValue_toFloat habs
      have hestimate : IsEstimate (magnitude (.finite m e)) :=
        isEstimate_of_rounded (roundAt_nonneg _ (by positivity)) hvalue
      exact hestimate.nonneg h

/-- The arbitrary tier adds to the estimates of the operands. -/
theorem le_error_arbitraryOp [Multiprecision] {prior : Float} (h : IsEstimate prior)
    (op : ArithmeticOp)
    (a b : Quantity) (bits : ℕ) : prior ≤ (arbitraryOp op a b prior bits).error := by
  obtain ⟨step, hpos, hstep⟩ := floatValue_bitStep bits
  exact h.le_accumulate (fun _ => magnitude_nonneg) hpos hstep

/-- In the arbitrary tier, too, a result that is not finite has no bound on its error. -/
theorem error_arbitraryOp_of_not_finite [Multiprecision] {op : ArithmeticOp} {a b : Quantity}
    {prior : Float}
    {bits : ℕ} (h : (arbitraryOp op a b prior bits).isFinite = false) :
    (arbitraryOp op a b prior bits).error = infinity := by
  have hresult : magnitude (op.onWide bits (a.toWide bits) (b.toWide bits)) = infinity :=
    magnitude_of_not_finite ((Bool.not_eq_false' _).mp h)
  rw [arbitraryOp, Quantity.error, hresult]
  exact accumulate_of_not_finite isFinite_infinity _ _

variable {op : ArithmeticOp} {policy : Policy} {a b q : Quantity}

/-- An operation adds to what its operands bring along. -/
theorem le_error_apply [Multiprecision] (ha : IsEstimate a.error) (hb : IsEstimate b.error)
    (op : ArithmeticOp) (policy : Policy) : a.error + b.error ≤ (apply op policy a b).error := by
  rcases apply_cases op policy a b with ⟨bits, -, -, -, heq⟩ | ⟨-, -, heq⟩
  · rw [heq]
    exact le_error_arbitraryOp (ha.add hb) op a b bits
  · rw [heq]
    exact (ha.add hb).le_accumulate_abs _

/-- A `Float` that is not finite has no bound on its error. -/
theorem accumulate_abs_of_not_finite {x : Float} (h : (Quantity.fast x y).isFinite = false)
    (prior : Float) : accumulate prior x.abs epsilon = infinity := by
  apply accumulate_of_not_finite
  rw [isFinite_abs, isFinite_eq]
  exact h

/-- A result that is not finite has no bound on its error. -/
theorem error_apply_of_not_finite [Multiprecision]
    (h : (apply op policy a b).isFinite = false) :
    (apply op policy a b).error = infinity := by
  rcases apply_cases op policy a b with ⟨bits, -, -, -, heq⟩ | ⟨-, -, heq⟩
  · rw [heq] at h ⊢
    exact error_arbitraryOp_of_not_finite h
  · rw [heq] at h ⊢
    exact accumulate_abs_of_not_finite h _

end Fluxion.Number
