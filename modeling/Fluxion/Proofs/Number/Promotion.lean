import Fluxion.Proofs.Number.Arithmetic
import Fluxion.Proofs.Number.Construction

/-!
# Promotion does not change the `Float`

The arbitrary tier rounds to many bits, and reading its result as a `Float` rounds again.
Rounding twice could end on the wrong side of a midpoint between two `Float`s, but the
exact result of an operation on numbers of 53 bits cannot come so close to a midpoint
without being one: `roundTo_roundTo_exact`.  A product has few enough bits to be exact; a
sum that is long enough to be rounded has operands so far apart that the larger one would
have to be the midpoint; and the distance of a quotient from a midpoint is a fraction
whose numerator is an integer.
-/

namespace Fluxion.Number

open Quantity

variable {a b v : ℚ} {e f : ℤ} {bits : ℕ}

/-! ## Rounding exact results twice -/

/-- A midpoint lies on the grid of half steps, but not on the grid itself. -/
theorem onGrid_midpoint (n k : ℤ) : OnGrid (k - 1) (((n : ℚ) + 1 / 2) * 2 ^ k) := by
  refine ⟨2 * n + 1, ?_⟩
  rw [zpow_sub_one₀ (by norm_num)]
  push_cast
  ring

theorem not_onGrid_midpoint (n k : ℤ) : ¬ OnGrid k (((n : ℚ) + 1 / 2) * 2 ^ k) := by
  rintro ⟨m, hm⟩
  have hhalf : (n : ℚ) + 1 / 2 = m := mul_right_cancel₀ (by positivity) hm
  have hodd : (2 * n + 1 : ℚ) = 2 * m := by linarith
  have hodd' : 2 * n + 1 = 2 * m := by exact_mod_cast hodd
  omega

/-- What is rounded reaches far below the last of 53 places. -/
theorem roundTo_ne_self (hbits : 108 ≤ bits) (hne : roundTo bits v ≠ v) (hgrid : OnGrid e v) :
    e ≤ place 53 v - 56 := by
  by_contra hlarge
  have hplace : place bits v ≤ e := by
    rw [place] at hlarge ⊢
    omega
  exact hne (hgrid.mono hplace).roundAt_eq

theorem abs_sub_roundTo_le_place (hbits : 108 ≤ bits) (v : ℚ) :
    |roundTo bits v - v| ≤ 2 ^ (place 53 v - 56) := by
  rw [abs_sub_comm]
  refine (abs_sub_roundTo_le bits v).trans (zpow_le_zpow_right₀ (by norm_num) ?_)
  rw [place, place]
  omega

theorem two_zpow_place_le (v : ℚ) (hv : v ≠ 0) : (2 : ℚ) ^ (place 53 v + 52) ≤ |v| := by
  have hle := two_zpow_le_abs 53 hv
  have hexponent : place 53 v + (53 : ℕ) - 1 = place 53 v + 52 := by
    push_cast
    ring
  rwa [hexponent] at hle

theorem two_zpow_place_le_roundTo (hbits : 0 < bits) (hv : v ≠ 0) :
    (2 : ℚ) ^ (place 53 v + 52) ≤ |roundTo bits v| := by
  have hle := le_abs_roundTo hbits hv
  have hexponent : place bits v + bits - 1 = place 53 v + 52 := by
    rw [place, place]
    push_cast
    ring
  rwa [hexponent] at hle

/-- A sum that is not exact is not rounded to a midpoint: the midpoint would be the larger
operand, which is too short for it. -/
theorem roundTo_add_ne_midpoint (hbits : 108 ≤ bits) (ha : OnGrid e a)
    (hasize : |a| < 2 ^ (e + 53)) (hb : OnGrid f b) (hbsize : |b| < 2 ^ (f + 53)) (hef : e ≤ f)
    (hne : roundTo bits (a + b) ≠ a + b) (n : ℤ) :
    roundTo bits (a + b) ≠ (n + 1 / 2) * 2 ^ place 53 (a + b) := by
  intro hmiddle
  have hv : a + b ≠ 0 := ne_zero_of_roundTo_ne hne
  have hnear := abs_sub_roundTo_le_place hbits (a + b)
  have hlarge := two_zpow_place_le (a + b) hv
  have hlarge' := two_zpow_place_le_roundTo (by omega : 0 < bits) hv
  have hfar := roundTo_ne_self hbits hne (ha.add (hb.mono hef))
  generalize place 53 (a + b) = k at *
  generalize roundTo bits (a + b) = w at *
  have hpos : (0 : ℚ) < 2 ^ k := by positivity
  have hscale : ∀ j : ℤ, (2 : ℚ) ^ (k + j) = 2 ^ j * 2 ^ k := fun j => by
    rw [zpow_add₀ (by norm_num), mul_comm]
  have hasmall : |a| < 1 / 8 * 2 ^ k := by
    refine hasize.trans_le ((zpow_le_zpow_right₀ (by norm_num) (by omega : e + 53 ≤ k + -3)).trans ?_)
    rw [hscale]
    norm_num
  have hnear' : |w - (a + b)| ≤ 1 / 8 * 2 ^ k := by
    refine hnear.trans ((zpow_le_zpow_right₀ (by norm_num) (by omega : k - 56 ≤ k + -3)).trans ?_)
    rw [hscale]
    norm_num
  have hhalf : (2 : ℚ) ^ (k - 1) = 1 / 2 * 2 ^ k := by
    rw [sub_eq_add_neg, hscale]
    norm_num
  -- The larger operand is almost as large as the sum, so its last place is not below the
  -- midpoint's.
  have hblarge : (2 : ℚ) ^ (k + 51) < |b| := by
    have htriangle := abs_add_le a b
    rw [hscale] at hlarge ⊢
    norm_num at hlarge ⊢
    linarith
  have hf : k - 1 ≤ f := by
    have hlt := hblarge.trans hbsize
    rw [zpow_lt_zpow_iff_right₀ (by norm_num)] at hlt
    omega
  have hdifference : |w - b| < 2 ^ (k - 1) := by
    have htriangle := abs_add_le (w - (a + b)) a
    have hsum : w - (a + b) + a = w - b := by ring
    rw [hsum] at htriangle
    linarith
  have hwb : w = b := by
    have hgrid : OnGrid (k - 1) (w - b) :=
      (hmiddle ▸ onGrid_midpoint n k).sub (hb.mono hf)
    exact sub_eq_zero.mp (hgrid.eq_zero hdifference)
  rcases hf.lt_or_eq with hlt | heq
  · exact not_onGrid_midpoint n k (hmiddle ▸ hwb ▸ hb.mono (by omega))
  · rw [hwb] at hlarge'
    rw [← heq, sub_add_eq_add_sub] at hbsize
    have hexponent : k + 53 - 1 = k + 52 := by ring
    rw [hexponent] at hbsize
    exact absurd hbsize (not_lt.mpr hlarge')

/-- A quotient that is not exact is not rounded to a midpoint: times the denominator the
two differ by a multiple of the smaller last place, which is too much. -/
theorem roundTo_div_ne_midpoint (hbits : 108 ≤ bits) (ha : OnGrid e a)
    (hasize : |a| < 2 ^ (e + 53)) (hb : OnGrid f b) (hbsize : |b| < 2 ^ (f + 53)) (hb0 : b ≠ 0)
    (hne : roundTo bits (a / b) ≠ a / b) (n : ℤ) :
    roundTo bits (a / b) ≠ (n + 1 / 2) * 2 ^ place 53 (a / b) := by
  intro hmiddle
  have hv : a / b ≠ 0 := ne_zero_of_roundTo_ne hne
  have hbpos : 0 < |b| := abs_pos.mpr hb0
  have hnear := abs_sub_roundTo_le_place hbits (a / b)
  have hlarge := two_zpow_place_le (a / b) hv
  rw [abs_div, le_div_iff₀ hbpos] at hlarge
  generalize place 53 (a / b) = k at *
  have hdifference : (roundTo bits (a / b) - a / b) * b = roundTo bits (a / b) * b - a := by
    rw [sub_mul, div_mul_cancel₀ _ hb0]
  have hproduct : |roundTo bits (a / b) * b - a| ≤ 2 ^ (k - 56) * |b| := by
    rw [← hdifference, abs_mul]
    exact mul_le_mul_of_nonneg_right hnear hbpos.le
  have hnonzero : roundTo bits (a / b) * b - a ≠ 0 := by
    rw [← hdifference]
    exact mul_ne_zero (sub_ne_zero.mpr hne) hb0
  have hscaled : OnGrid (k - 1 + f) (roundTo bits (a / b) * b) :=
    OnGrid.mul (hmiddle ▸ onGrid_midpoint n k) hb
  rcases le_total (k - 1 + f) e with hle | hle
  · refine hnonzero ((hscaled.sub (ha.mono hle)).eq_zero (hproduct.trans_lt ?_))
    calc
      (2 : ℚ) ^ (k - 56) * |b| < 2 ^ (k - 56) * 2 ^ (f + 53) :=
        mul_lt_mul_of_pos_left hbsize (by positivity)
      _ = 2 ^ (k - 3 + f) := by
        rw [← zpow_add₀ (by norm_num)]
        congr 1
        ring
      _ ≤ 2 ^ (k - 1 + f) := zpow_le_zpow_right₀ (by norm_num) (by omega)
  · refine hnonzero (((hscaled.mono hle).sub ha).eq_zero (hproduct.trans_lt ?_))
    calc
      (2 : ℚ) ^ (k - 56) * |b| = 2 ^ (-108 : ℤ) * (2 ^ (k + 52) * |b|) := by
        rw [← mul_assoc, ← zpow_add₀ (by norm_num)]
        congr 2
        ring
      _ ≤ 2 ^ (-108 : ℤ) * |a| := mul_le_mul_of_nonneg_left hlarge (by positivity)
      _ < 2 ^ (-108 : ℤ) * 2 ^ (e + 53) := mul_lt_mul_of_pos_left hasize (by positivity)
      _ = 2 ^ (e - 55) := by
        rw [← zpow_add₀ (by norm_num)]
        congr 1
        ring
      _ ≤ 2 ^ e := zpow_le_zpow_right₀ (by norm_num) (by omega)

/-- Rounding a sum to many bits first does not matter. -/
theorem roundTo_roundTo_add (hbits : 108 ≤ bits) (ha : HasBits 53 a) (hb : HasBits 53 b) :
    roundTo 53 (roundTo bits (a + b)) = roundTo 53 (a + b) := by
  apply roundTo_roundTo (by norm_num) (by omega)
  intro n hmiddle
  by_contra hne
  obtain ⟨e, hagrid, hasize⟩ := ha.exists_onGrid
  obtain ⟨f, hbgrid, hbsize⟩ := hb.exists_onGrid
  rcases le_total e f with hef | hfe
  · exact roundTo_add_ne_midpoint hbits hagrid hasize hbgrid hbsize hef hne n hmiddle
  · rw [add_comm] at hne hmiddle
    exact roundTo_add_ne_midpoint hbits hbgrid hbsize hagrid hasize hfe hne n hmiddle

/-- Rounding a quotient to many bits first does not matter. -/
theorem roundTo_roundTo_div (hbits : 108 ≤ bits) (ha : HasBits 53 a) (hb : HasBits 53 b)
    (hb0 : b ≠ 0) : roundTo 53 (roundTo bits (a / b)) = roundTo 53 (a / b) := by
  apply roundTo_roundTo (by norm_num) (by omega)
  intro n hmiddle
  by_contra hne
  obtain ⟨e, hagrid, hasize⟩ := ha.exists_onGrid
  obtain ⟨f, hbgrid, hbsize⟩ := hb.exists_onGrid
  exact roundTo_div_ne_midpoint hbits hagrid hasize hbgrid hbsize hb0 hne n hmiddle

/-- For numbers of 53 bits, rounding the exact result of an operation to at least 108 bits
does not change what it is rounded to with 53. -/
theorem roundTo_roundTo_exact (op : ArithmeticOp) (hbits : 108 ≤ bits) (ha : HasBits 53 a)
    (hb : HasBits 53 b) (hdiv : op = .div → b ≠ 0) :
    roundTo 53 (roundTo bits (op.exact a b)) = roundTo 53 (op.exact a b) := by
  cases op with
  | add => exact roundTo_roundTo_add hbits ha hb
  | sub =>
      rw [ArithmeticOp.exact, sub_eq_add_neg]
      exact roundTo_roundTo_add hbits ha hb.neg
  | mul =>
      have hproduct : HasBits bits (a * b) := (ha.mul hb).mono (by omega)
      rw [ArithmeticOp.exact, hproduct.roundTo_eq]
  | div => exact roundTo_roundTo_div hbits ha hb (hdiv rfl)

/-! ## Normal results -/

/-- In the normal range the exponent of a `Float` does not limit its last place.  A number
just below the range may be rounded up into it. -/
theorem roundFloat_eq_roundTo (h : (2 : ℚ) ^ (-1022 : ℤ) ≤ |roundTo 53 v|) :
    roundFloat v = roundTo 53 v := by
  rcases le_or_gt Binary64.minExponent (place 53 v) with hplace | hplace
  · have hfloat : floatPlace v = place 53 v := max_eq_left hplace
    rw [roundFloat, hfloat, roundTo]
  · have hfloat : floatPlace v = Binary64.minExponent := max_eq_right hplace.le
    rw [Binary64.minExponent] at hplace hfloat
    have hupper := abs_roundTo_le 53 v
    have hk : place 53 v = -1075 := by
      have hle := h.trans hupper
      rw [zpow_le_zpow_iff_right₀ (by norm_num)] at hle
      push_cast at hle
      omega
    have hpower : |roundTo 53 v| = 2 ^ (-1022 : ℤ) := by
      rw [hk] at hupper
      exact le_antisymm hupper h
    have hgrid : OnGrid (-1074) (roundTo 53 v) := by
      apply OnGrid.of_abs
      rw [hpower]
      exact onGrid_two_zpow (by norm_num)
    rw [roundFloat, hfloat]
    apply hgrid.roundAt_eq_of_near
    refine (abs_sub_roundTo_le 53 v).trans_lt ?_
    rw [hk]
    exact zpow_lt_zpow_right₀ (by norm_num) (by norm_num)

theorem rounded_eq_roundTo (hlow : (2 : ℚ) ^ (-1022 : ℤ) ≤ |roundTo 53 v|)
    (hhigh : |roundTo 53 v| < 2 ^ (1024 : ℤ)) : rounded v = .finite (roundTo 53 v) := by
  have hround := roundFloat_eq_roundTo hlow
  rw [rounded, hround, if_pos hhigh]

/-- With any arithmetic that rounds correctly, for finite operands of the fast tier and at least
108 bits, the result of the arbitrary tier is rounded to 53 bits as the exact result is.  Where
that is a normal `Float`, reading the result gives what the operation on `Float`s gives. -/
theorem toFloat_arbitraryOp [Multiprecision] [RoundsCorrectly] (op : ArithmeticOp) {x y : Float}
    (hx : floatValue x = .finite a) (hy : floatValue y = .finite b) (hdiv : op = .div → b ≠ 0)
    (hbits : 108 ≤ bits) (leftError rightError prior : Float) :
    (∃ w error u,
      arbitraryOp op (.fast x leftError) (.fast y rightError) prior bits =
        .arbitrary w bits error ∧
      w.value = .finite u ∧ roundTo 53 u = roundTo 53 (op.exact a b)) ∧
    (2 ^ (-1022 : ℤ) ≤ |roundTo 53 (op.exact a b)| →
      |roundTo 53 (op.exact a b)| < 2 ^ (1024 : ℤ) →
      (arbitraryOp op (.fast x leftError) (.fast y rightError) prior bits).toFloat =
        op.onFloat x y) := by
  have hfast : ∀ (z error : Float), ((Quantity.fast z error).toWide bits).value = floatValue z :=
    fun z error => value_toWide (hasBits_floatValue z) (by rw [Quantity.bits, floatBits]; omega)
  have hvalue := value_onWide (by omega : 0 < bits) op ((hfast x leftError).trans hx)
    ((hfast y rightError).trans hy) hdiv
  have htwice : roundTo 53 (roundTo bits (op.exact a b)) = roundTo 53 (op.exact a b) :=
    roundTo_roundTo_exact op hbits (hasBits_floatValue x a hx) (hasBits_floatValue y b hy) hdiv
  refine ⟨⟨_, _, _, rfl, hvalue, htwice⟩, fun hlow hhigh => ?_⟩
  have hself : roundTo 53 (roundTo 53 (op.exact a b)) = roundTo 53 (op.exact a b) :=
    (hasBits_roundTo (by norm_num) _).roundTo_eq
  have hpromoted : floatValue (arbitraryOp op (.fast x leftError) (.fast y rightError) prior
      bits).toFloat = .finite (roundTo 53 (op.exact a b)) := by
    rw [arbitraryOp, Quantity.toFloat, floatValue_toFloat hvalue, floatBits, htwice,
      rounded_eq_roundTo (hself.symm ▸ hlow) (hself.symm ▸ hhigh), hself]
  have hdirect : floatValue (op.onFloat x y) = .finite (roundTo 53 (op.exact a b)) := by
    rw [floatValue_onFloat op hx hy hdiv, rounded_eq_roundTo hlow hhigh]
  exact eq_of_floatValue_eq (ne_zero_of_two_zpow_le hlow) hpromoted hdirect

theorem floatValue_one : floatValue 1.0 = .finite 1 := by
  have hread : Binary64.ofFloat 1.0 = .finite false 4503599627370496 (-52) := by decide
  rw [floatValue, hread, Binary64.value, Wide.signed]
  norm_num

theorem toFloat_arbitraryOp_third :
    (arbitraryOp .div (.fast 1.0 0.0) (.fast 3.0 0.0) 0.0 113).toFloat = 1.0 / 3.0 := by
  have hsize : place 53 (1 / 3) = -54 := by
    apply place_eq
    · norm_num [abs_of_pos]
    · norm_num [abs_of_pos]
  have hlow : (2 : ℚ) ^ (-1022 : ℤ) ≤ |roundTo 53 (1 / 3)| := by
    have hle : (2 : ℚ) ^ (place 53 (1 / 3) + (53 : ℕ) - 1) ≤ |roundTo 53 (1 / 3)| :=
      le_abs_roundTo (by norm_num) (by norm_num)
    rw [hsize] at hle
    exact le_trans (zpow_le_zpow_right₀ (by norm_num) (by norm_num)) hle
  have hhigh : |roundTo 53 (1 / 3)| < 2 ^ (1024 : ℤ) := by
    have hle := abs_roundTo_le 53 (1 / 3)
    rw [hsize] at hle
    exact lt_of_le_of_lt hle (zpow_lt_zpow_right₀ (by norm_num) (by norm_num))
  exact (toFloat_arbitraryOp .div floatValue_one value_fastThree (fun _ => by norm_num)
    (by norm_num) 0.0 0.0 0.0).2 hlow hhigh

end Fluxion.Number
