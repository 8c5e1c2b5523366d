import Fluxion.Proofs.Number.FloatSigns
import Fluxion.Proofs.Number.Nearest

/-!
# Arithmetic of `Float`s is exact arithmetic, rounded

The operations on unpacked floats work on a mantissa with two more bits, which stand for
the exact result (`Represents`).  Shifting keeps what they stand for, rounding the mantissa
is `roundEven`, and what carries over is shifted once more.  So an operation on finite
`Float`s gives the value nearest to the exact result: `floatValue_onFloat`.
-/

open Float.Model

namespace Fluxion.Number

variable {s : UnpackedFloat.Sign} {m n : ℕ} {e f : ℤ} {v w : ℚ} {u : UnpackedFloat}

/-! ## Unpacked floats of a given size -/

/-- The unpacked float has the sign and the size. -/
inductive HasSize : UnpackedFloat → UnpackedFloat.Sign → ℚ → Prop where
  | zero (s : UnpackedFloat.Sign) : HasSize (.zero s) s 0
  | finite (s : UnpackedFloat.Sign) {m : ℕ} {e : ℤ} (hm : 0 < m) (h : Normalized m e) :
      HasSize (.finite s m e hm) s (m * 2 ^ e)

theorem HasSize.floatValue_pack {r : ℚ} (h : HasSize u s r) :
    floatValue (.ofModel (Float.Model.pack u)) =
      if r < 2 ^ (1024 : ℤ) then .finite (if isMinus s then -r else r)
      else .infinite (isMinus s) := by
  cases h with
  | zero s =>
      have hunpack : (Float.Model.pack (.zero s)).unpack = .zero s := by cases s <;> rfl
      rw [Number.floatValue_pack, hunpack, if_pos (by positivity), neg_zero, ite_self]
      rfl
  | finite s hm hnormal =>
      rw [floatValue_pack_finite s hm hnormal]
      cases s
      · rw [value_negative]
        rfl
      · rw [value_positive]
        rfl

/-- A size with a sign is packed into the nearest value. -/
theorem HasSize.floatValue_signed (h : HasSize u s (roundFloat v)) (hv : 0 < v) :
    floatValue (.ofModel (Float.Model.pack u)) = rounded (if isMinus s then -v else v) := by
  rw [h.floatValue_pack, rounded_signed _ hv]

theorem floatValue_pack_zero (s : UnpackedFloat.Sign) :
    floatValue (.ofModel (Float.Model.pack (.zero s))) = rounded 0 := by
  rw [(HasSize.zero s).floatValue_pack, if_pos (by positivity), neg_zero, ite_self, rounded_zero]

/-! ## Mantissas -/

/-- The bits of an extended mantissa tell where the number lies. -/
def Represents (em : UnpackedFloat.ExtendedMantissa) (v : ℚ) : Prop :=
  match em.roundBit, em.stickyBit with
  | false, false => v = em.mantissa
  | false, true => em.mantissa < v ∧ v < em.mantissa + 1 / 2
  | true, false => v = em.mantissa + 1 / 2
  | true, true => em.mantissa + 1 / 2 < v ∧ v < em.mantissa + 1

namespace Represents

variable {em : UnpackedFloat.ExtendedMantissa}

/-- Rounding by the two extra bits is rounding to even. -/
theorem roundedMantissa (h : Represents em v) : (em.roundedMantissa : ℤ) = roundEven v := by
  obtain ⟨m, roundBit, stickyBit⟩ := em
  symm
  apply roundEven_eq
  cases roundBit <;> cases stickyBit <;> simp only [Represents] at h
  · left
    rw [h]
    simp [UnpackedFloat.ExtendedMantissa.roundedMantissa,
      UnpackedFloat.ExtendedMantissa.accuracy, UnpackedFloat.Accuracy.roundToNearestEven]
  · left
    have hrounded : (⟨m, false, true⟩ : UnpackedFloat.ExtendedMantissa).roundedMantissa = m := rfl
    rw [hrounded, Int.cast_natCast, abs_lt]
    constructor <;> linarith
  · right
    have hrounded : (⟨m, true, false⟩ : UnpackedFloat.ExtendedMantissa).roundedMantissa =
        m + m % 2 := rfl
    rw [hrounded, h]
    rcases Nat.mod_two_eq_zero_or_one m with heven | hodd
    · rw [heven]
      exact ⟨by norm_num, by omega⟩
    · rw [hodd]
      push_cast
      exact ⟨by norm_num, by omega⟩
  · left
    have hrounded : (⟨m, true, true⟩ : UnpackedFloat.ExtendedMantissa).roundedMantissa = m + 1 :=
      rfl
    rw [hrounded, abs_lt]
    push_cast
    constructor <;> linarith

theorem shiftRightOne (h : Represents em v) : Represents em.shiftRightOne (v / 2) := by
  obtain ⟨m, roundBit, stickyBit⟩ := em
  have hsplit : (m : ℚ) = 2 * (m / 2 : ℕ) + (m % 2 : ℕ) := by
    exact_mod_cast (Nat.div_add_mod m 2).symm
  rcases Nat.mod_two_eq_zero_or_one m with hbit | hbit <;> rw [hbit] at hsplit <;>
    push_cast at hsplit <;> cases roundBit <;> cases stickyBit <;>
    simp only [Represents, UnpackedFloat.ExtendedMantissa.shiftRightOne, hbit, Nat.reduceBNe,
      Bool.or_false, Bool.or_true] at h ⊢ <;>
    first
      | linarith
      | constructor <;> linarith

/-- Shifting keeps enough of the bits that are lost to tell where the number lies. -/
theorem shiftRight (h : Represents em v) (k : ℕ) : Represents (em >>> k) (v / 2 ^ k) := by
  induction k with
  | zero =>
      rw [pow_zero, div_one]
      exact h
  | succ k ih =>
      rw [pow_succ, ← div_div]
      exact ih.shiftRightOne

end Represents

/-! ## Rounding -/

open UnpackedFloat (shiftToTargetExponent roundWithAccuracy)

theorem targetExponent_eq (m : ℕ) (e : ℤ) :
    Format.binary64.targetExponent (totalExponent m e) =
      max ((m.log2 : ℤ) + 1 + e - floatBits) Binary64.minExponent := rfl

/-- The exponent that is aimed at is the last place of the nearest `Float`. -/
theorem targetExponent_eq_floatPlace (hv : 0 < v) (hlow : m ≤ v) (hhigh : v < m + 1)
    (hzero : m = 0 → e ≤ Binary64.minExponent) :
    Format.binary64.targetExponent (totalExponent m e) = floatPlace (v * 2 ^ e) := by
  have hpos : (0 : ℚ) < 2 ^ e := by positivity
  have hvalue : |v * 2 ^ e| = v * 2 ^ e := abs_of_pos (by positivity)
  rw [targetExponent_eq, floatPlace]
  rcases Nat.eq_zero_or_pos m with rfl | hm
  · have hmin := hzero rfl
    have hplace : place floatBits (v * 2 ^ e) ≤ Binary64.minExponent := by
      apply place_lt_of_abs_lt (by positivity)
      rw [hvalue]
      calc
        v * 2 ^ e < 1 * 2 ^ e := mul_lt_mul_of_pos_right (by simpa using hhigh) hpos
        _ = 2 ^ e := one_mul _
        _ ≤ 2 ^ (Binary64.minExponent + floatBits) :=
            zpow_le_zpow_right₀ (by norm_num) (by omega)
    rw [max_eq_right hplace, max_eq_right]
    rw [Nat.log2_zero, floatBits]
    omega
  · obtain ⟨hlog, hlog'⟩ := two_zpow_log2_le hm
    have hplace : place floatBits (v * 2 ^ e) = (m.log2 : ℤ) + 1 + e - floatBits := by
      apply place_eq
      · have hexponent : (m.log2 : ℤ) + 1 + e - floatBits + floatBits - 1 = m.log2 + e := by ring
        rw [hvalue, hexponent, zpow_add₀ (by norm_num)]
        exact mul_le_mul_of_nonneg_right (hlog.trans hlow) hpos.le
      · have hexponent : (m.log2 : ℤ) + 1 + e - floatBits + floatBits = m.log2 + 1 + e := by ring
        have hnext : (m : ℚ) + 1 ≤ 2 ^ ((m.log2 : ℤ) + 1) := by
          have hpower : (2 : ℚ) ^ ((m.log2 : ℤ) + 1) = ((2 ^ (m.log2 + 1) : ℕ) : ℚ) := by
            push_cast
            rw [← zpow_natCast]
            norm_cast
          rw [hpower]
          exact_mod_cast (Nat.lt_log2_self : m < 2 ^ (m.log2 + 1))
        rw [hvalue, hexponent, zpow_add₀ (by norm_num)]
        exact mul_lt_mul_of_pos_right (hhigh.trans_le hnext) hpos
    rw [hplace]

theorem Represents.mantissa_le {em : UnpackedFloat.ExtendedMantissa} (h : Represents em v) :
    em.mantissa ≤ v ∧ v < em.mantissa + 1 := by
  obtain ⟨m, roundBit, stickyBit⟩ := em
  cases roundBit <;> cases stickyBit <;> simp only [Represents] at h <;> constructor <;> linarith

theorem mantissa_ofMantissaAndAccuracy (m : ℕ) (acc : UnpackedFloat.Accuracy) :
    (UnpackedFloat.ExtendedMantissa.ofMantissaAndAccuracy m acc).mantissa = m := by
  rcases acc with _ | _ | _ | _ <;> rfl

/-- What fits is not shifted. -/
theorem shiftToTargetExponent_of_lt (hm : m < 2 ^ 53) (he : Binary64.minExponent ≤ e) :
    shiftToTargetExponent Format.binary64 m e .exact = (⟨m, false, false⟩, e) := by
  have hlog : m.log2 ≤ 52 := by
    rcases Nat.eq_zero_or_pos m with rfl | hpos
    · exact Nat.zero_le 52
    · exact Nat.le_of_lt_succ ((Nat.log2_lt hpos.ne').mpr hm)
  have hshift : (Format.binary64.targetExponent (totalExponent m e) - e).toNat = 0 := by
    rw [targetExponent_eq, floatBits]
    omega
  rw [shiftToTargetExponent, UnpackedFloat.shiftToExponent]
  simp only [hshift]
  rw [Nat.cast_zero, add_zero]
  rfl

/-- A significand that was rounded up to the next power of two is shifted once. -/
theorem shiftToTargetExponent_carry (he : Binary64.minExponent ≤ e) :
    shiftToTargetExponent Format.binary64 (2 ^ 53) e .exact = (⟨2 ^ 52, false, false⟩, e + 1) := by
  have hshift : (Format.binary64.targetExponent (totalExponent (2 ^ 53) e) - e).toNat = 1 := by
    rw [targetExponent_eq, Nat.log2_two_pow, floatBits]
    omega
  rw [shiftToTargetExponent, UnpackedFloat.shiftToExponent]
  simp only [hshift]
  rfl

/-- Once rounded, the significand is normalized. -/
theorem hasSize_of_significand (s : UnpackedFloat.Sign) (he : Binary64.minExponent ≤ e)
    (hm : m ≤ 2 ^ 53) (hnormal : 2 ^ 52 ≤ m ∨ e = Binary64.minExponent) :
    HasSize (if h : (shiftToTargetExponent Format.binary64 m e .exact).1.mantissa = 0 then .zero s
      else .finite s (shiftToTargetExponent Format.binary64 m e .exact).1.mantissa
        (shiftToTargetExponent Format.binary64 m e .exact).2 (Nat.pos_of_ne_zero h)) s
      (m * 2 ^ e) := by
  rcases hm.lt_or_eq with hlt | rfl
  · simp only [shiftToTargetExponent_of_lt hlt he]
    split_ifs with hzero
    · rw [hzero, Nat.cast_zero, zero_mul]
      exact .zero s
    · exact .finite s _ ⟨hlt, he, hnormal⟩
  · simp only [shiftToTargetExponent_carry he]
    rw [dif_neg (by norm_num)]
    have hsize : ((2 ^ 53 : ℕ) : ℚ) * 2 ^ e = ((2 ^ 52 : ℕ) : ℚ) * 2 ^ (e + 1) := by
      rw [zpow_add_one₀ (by norm_num)]
      push_cast
      ring
    rw [hsize]
    exact .finite s _ ⟨by decide, by omega, Or.inl (by decide)⟩

/-- Rounding with bits that stand for a number gives the size of the nearest `Float`, if
the mantissa is long enough. -/
theorem hasSize_roundWithAccuracy (s : UnpackedFloat.Sign) {acc : UnpackedFloat.Accuracy}
    (hv : 0 < v) (hrep : Represents (.ofMantissaAndAccuracy m acc) v)
    (hzero : m = 0 → e ≤ Binary64.minExponent) (he : e ≤ floatPlace (v * 2 ^ e)) :
    HasSize (roundWithAccuracy Format.binary64 s m e acc) s (roundFloat (v * 2 ^ e)) := by
  obtain ⟨hlow, hhigh⟩ := hrep.mantissa_le
  rw [mantissa_ofMantissaAndAccuracy] at hlow hhigh
  have htarget := targetExponent_eq_floatPlace hv hlow hhigh hzero
  obtain ⟨d, hd⟩ := Int.le.dest he
  generalize hem : UnpackedFloat.ExtendedMantissa.ofMantissaAndAccuracy m acc >>> d = em
  have hfirst : shiftToTargetExponent Format.binary64 m e acc =
      (em, floatPlace (v * 2 ^ e)) := by
    have hshift : (floatPlace (v * 2 ^ e) - e).toNat = d := by omega
    rw [shiftToTargetExponent, htarget, UnpackedFloat.shiftToExponent]
    simp only [hshift, hem, hd]
  have hscaled : v / 2 ^ d = v * 2 ^ e / 2 ^ floatPlace (v * 2 ^ e) := by
    rw [← hd, zpow_add₀ (by norm_num), zpow_natCast, mul_comm ((2 : ℚ) ^ e), mul_div_mul_right]
    positivity
  have hround : (em.roundedMantissa : ℤ) =
      roundEven (v * 2 ^ e / 2 ^ floatPlace (v * 2 ^ e)) := by
    rw [← hscaled, ← hem]
    exact (hrep.shiftRight d).roundedMantissa
  obtain ⟨hsize, hmost, hleast⟩ := roundFloat_eq_significand (by positivity) hround
  rw [roundWithAccuracy, hfirst, hsize]
  exact hasSize_of_significand s (le_max_right _ _) hmost hleast

/-! ## Normalization -/

theorem represents_exact (m : ℕ) : Represents (.ofMantissaAndAccuracy m .exact) m := rfl

theorem decreaseExponent_mul (m : ℕ) (e t : ℤ) :
    ((UnpackedFloat.decreaseExponent m e t).1 : ℚ) *
        2 ^ (UnpackedFloat.decreaseExponent m e t).2 = m * 2 ^ e := by
  rw [UnpackedFloat.decreaseExponent, Nat.shiftLeft_eq]
  push_cast
  rw [← zpow_natCast, mul_assoc, ← zpow_add₀ (by norm_num)]
  congr 2
  ring

/-- Any magnitude is rounded to the nearest `Float`. -/
theorem hasSize_round (s : UnpackedFloat.Sign) (hm : 0 < m) (e : ℤ) :
    HasSize (UnpackedFloat.round Format.binary64 s m e) s (roundFloat (m * 2 ^ e)) := by
  have htarget : Format.binary64.targetExponent (totalExponent m e) =
      floatPlace ((m : ℚ) * 2 ^ e) :=
    targetExponent_eq_floatPlace (by positivity) (le_refl _) (lt_add_one _) (by omega)
  have hvalue := decreaseExponent_mul m e (floatPlace ((m : ℚ) * 2 ^ e))
  have hle : (UnpackedFloat.decreaseExponent m e (floatPlace ((m : ℚ) * 2 ^ e))).2 ≤
      floatPlace ((m : ℚ) * 2 ^ e) := by
    simp only [UnpackedFloat.decreaseExponent]
    omega
  have hpos : 0 < (UnpackedFloat.decreaseExponent m e (floatPlace ((m : ℚ) * 2 ^ e))).1 := by
    simp only [UnpackedFloat.decreaseExponent, Nat.shiftLeft_eq]
    positivity
  rw [UnpackedFloat.round, htarget]
  generalize UnpackedFloat.decreaseExponent m e (floatPlace ((m : ℚ) * 2 ^ e)) = decreased
    at hvalue hle hpos ⊢
  rw [← hvalue] at hle ⊢
  exact hasSize_roundWithAccuracy s (Nat.cast_pos.mpr hpos) (represents_exact _)
    (fun hzero => absurd hzero hpos.ne') hle

/-- An integer times a power of two is rounded to the nearest `Float`. -/
theorem floatValue_normalize (k e : ℤ) (zeroSign : UnpackedFloat.Sign) :
    floatValue (.ofModel (Float.Model.pack
      (UnpackedFloat.normalize Format.binary64 k e zeroSign))) = rounded (k * 2 ^ e) := by
  rw [UnpackedFloat.normalize]
  rcases lt_trichotomy k 0 with hk | rfl | hk
  · rw [compare_lt_iff_lt.mpr hk]
    have hpos : 0 < (-k).toNat := by omega
    have hcast : ((-k).toNat : ℚ) = -k := by
      have hint : ((-k).toNat : ℤ) = -k := Int.toNat_of_nonneg (by omega)
      exact_mod_cast hint
    have hvalue : (k : ℚ) * 2 ^ e = -(((-k).toNat : ℚ) * 2 ^ e) := by
      rw [hcast, neg_mul, neg_neg]
    rw [hvalue]
    exact (hasSize_round .negative hpos e).floatValue_signed (by positivity)
  · rw [Int.cast_zero, zero_mul]
    exact floatValue_pack_zero zeroSign
  · rw [compare_gt_iff_gt.mpr hk]
    have hpos : 0 < k.toNat := by omega
    have hcast : (k.toNat : ℚ) = k := by
      have hint : (k.toNat : ℤ) = k := Int.toNat_of_nonneg hk.le
      exact_mod_cast hint
    rw [← hcast]
    exact (hasSize_round .positive hpos e).floatValue_signed (by positivity)

/-! ## Results of operations -/

theorem signed_mul_eq (s : UnpackedFloat.Sign) (m : ℕ) (e : ℤ) :
    (Wide.signed (isMinus s) m : ℚ) * 2 ^ e =
      if isMinus s then -((m : ℚ) * 2 ^ e) else m * 2 ^ e := by
  cases s
  · exact value_negative m e
  · exact value_positive m e

theorem floatValue_pack_normalized (s : UnpackedFloat.Sign) (hm : 0 < m) (h : Normalized m e) :
    floatValue (.ofModel (Float.Model.pack (.finite s m e hm))) =
      rounded (Wide.signed (isMinus s) m * 2 ^ e) := by
  have hsize : HasSize (.finite s m e hm) s (roundFloat (m * 2 ^ e)) := by
    rw [h.roundFloat_eq]
    exact .finite s hm h
  rw [signed_mul_eq]
  exact hsize.floatValue_signed (by positivity)

section Operations

variable {x y : Float} {a b : ℚ}

theorem apply_decreaseExponent_mul (s : UnpackedFloat.Sign) {m : ℕ} {e k : ℤ} (h : k ≤ e) :
    ((s.apply (UnpackedFloat.decreaseExponent m e k).1 : ℤ) : ℚ) * 2 ^ k =
      Wide.signed (isMinus s) m * 2 ^ e := by
  have hexponent : (UnpackedFloat.decreaseExponent m e k).2 = k := by
    simp only [UnpackedFloat.decreaseExponent]
    omega
  have hvalue := decreaseExponent_mul m e k
  rw [hexponent] at hvalue
  cases s
  · rw [value_negative, ← hvalue, UnpackedFloat.Sign.apply]
    push_cast
    ring
  · rw [value_positive, ← hvalue, UnpackedFloat.Sign.apply]
    push_cast
    ring

/-- A sum of `Float`s is the `Float` nearest to the exact sum. -/
theorem floatValue_add (hx : floatValue x = .finite a) (hy : floatValue y = .finite b) :
    floatValue (x + y) = rounded (a + b) := by
  have hadd : x + y = .ofModel (Float.Model.pack
      (UnpackedFloat.add Format.binary64 x.toModel.unpack y.toModel.unpack)) := rfl
  rw [hadd]
  rcases unpack_cases hx with ⟨s, hxu, rfl⟩ | ⟨s, m, e, hm, hxu, hnormal, rfl⟩ <;>
    rcases unpack_cases hy with ⟨s', hyu, rfl⟩ | ⟨s', n, f, hn, hyu, hnormal', rfl⟩ <;>
    rw [hxu, hyu]
  · rw [UnpackedFloat.add, add_zero]
    split_ifs
    · exact floatValue_pack_zero s
    · exact floatValue_pack_zero _
  · rw [zero_add]
    exact floatValue_pack_normalized s' hn hnormal'
  · rw [add_zero]
    exact floatValue_pack_normalized s hm hnormal
  · rw [← apply_decreaseExponent_mul s (min_le_left e f),
      ← apply_decreaseExponent_mul s' (min_le_right e f), ← add_mul, ← Int.cast_add]
    exact floatValue_normalize _ _ .positive

theorem floatValue_sub (hx : floatValue x = .finite a) (hy : floatValue y = .finite b) :
    floatValue (x - y) = rounded (a - b) := by
  rw [float_sub_eq_add_neg, sub_eq_add_neg]
  exact floatValue_add hx ((floatValue_neg y).trans (congrArg Value.neg hy))

theorem isMinus_mul (s s' : UnpackedFloat.Sign) :
    isMinus (s * s') = (isMinus s != isMinus s') := by
  cases s <;> cases s' <;> rfl

theorem isMinus_div (s s' : UnpackedFloat.Sign) :
    isMinus (s / s') = (isMinus s != isMinus s') := by
  cases s <;> cases s' <;> rfl

/-- A product of significands is long enough to be rounded. -/
theorem Normalized.add_le_floatPlace (h : Normalized m e) (h' : Normalized n f) (hm : 0 < m)
    (hn : 0 < n) : e + f ≤ floatPlace (((m * n : ℕ) : ℚ) * 2 ^ (e + f)) := by
  have hmn : 0 < m * n := Nat.mul_pos hm hn
  by_cases hlong : Binary64.leadingBit ≤ m ∨ Binary64.leadingBit ≤ n
  · have hproduct : Binary64.leadingBit ≤ m * n := by
      rcases hlong with hlong | hlong
      · exact hlong.trans (Nat.le_mul_of_pos_right m hn)
      · exact hlong.trans (Nat.le_mul_of_pos_left n hm)
    have hproduct' : (2 : ℚ) ^ 52 ≤ (m * n : ℕ) := by
      rw [← Binary64.cast_leadingBit]
      exact_mod_cast hproduct
    refine le_trans (le_place_of_le_abs (by positivity) ?_) (le_max_left _ _)
    have hexponent : e + f + floatBits - 1 = 52 + (e + f) := by
      rw [floatBits]
      ring
    rw [abs_of_pos (by positivity), hexponent, zpow_add₀ (by norm_num)]
    exact mul_le_mul_of_nonneg_right hproduct' (by positivity)
  · obtain ⟨hm', hn'⟩ := not_or.mp hlong
    have he := h.normal.resolve_left hm'
    have hf := h'.normal.resolve_left hn'
    have hmin : e + f ≤ Binary64.minExponent := by
      rw [he, hf]
      decide
    exact hmin.trans (le_max_right _ _)

/-- A product of `Float`s is the `Float` nearest to the exact product. -/
theorem floatValue_mul (hx : floatValue x = .finite a) (hy : floatValue y = .finite b) :
    floatValue (x * y) = rounded (a * b) := by
  have hmul : x * y = .ofModel (Float.Model.pack
      (UnpackedFloat.mul Format.binary64 x.toModel.unpack y.toModel.unpack)) := rfl
  rw [hmul]
  rcases unpack_cases hx with ⟨s, hxu, rfl⟩ | ⟨s, m, e, hm, hxu, hnormal, rfl⟩ <;>
    rcases unpack_cases hy with ⟨s', hyu, rfl⟩ | ⟨s', n, f, hn, hyu, hnormal', rfl⟩ <;>
    rw [hxu, hyu]
  · rw [mul_zero]
    exact floatValue_pack_zero _
  · rw [zero_mul]
    exact floatValue_pack_zero _
  · rw [mul_zero]
    exact floatValue_pack_zero _
  · have hmn : (0 : ℚ) < (m * n : ℕ) := by positivity
    have hsize := hasSize_roundWithAccuracy (s * s') hmn (represents_exact (m * n))
      (fun hzero => absurd hzero (Nat.mul_pos hm hn).ne')
      (hnormal.add_le_floatPlace hnormal' hm hn)
    have hproduct : (Wide.signed (isMinus s) m : ℚ) * 2 ^ e *
        (Wide.signed (isMinus s') n * 2 ^ f) =
          if isMinus (s * s') then -(((m * n : ℕ) : ℚ) * 2 ^ (e + f))
          else ((m * n : ℕ) : ℚ) * 2 ^ (e + f) := by
      rw [zpow_add₀ (by norm_num), isMinus_mul]
      push_cast
      cases s <;> cases s' <;> simp [isMinus, Wide.signed] <;> ring
    rw [hproduct]
    exact hsize.floatValue_signed (by positivity)

/-- A quotient of integers and what is known of its remainder. -/
theorem represents_div (n : ℕ) {d : ℕ} (hd : 0 < d) :
    Represents (.ofMantissaAndAccuracy (n / d) (UnpackedFloat.accuracyOfFraction (n % d) d))
      ((n : ℚ) / d) := by
  have hd' : (0 : ℚ) < d := Nat.cast_pos.mpr hd
  have hsplit : (n : ℚ) = d * (n / d : ℕ) + (n % d : ℕ) := by
    exact_mod_cast (Nat.div_add_mod n d).symm
  have hmod : ((n % d : ℕ) : ℚ) < d := by exact_mod_cast Nat.mod_lt n hd
  have hnonneg : (0 : ℚ) ≤ (n % d : ℕ) := Nat.cast_nonneg _
  rw [UnpackedFloat.accuracyOfFraction]
  split_ifs with hzero
  · rw [hzero, Nat.cast_zero, add_zero] at hsplit
    show (n : ℚ) / d = (n / d : ℕ)
    exact (div_eq_iff hd'.ne').mpr (by linarith)
  · have hpos : (0 : ℚ) < (n % d : ℕ) := by exact_mod_cast Nat.pos_of_ne_zero hzero
    rcases lt_trichotomy (2 * (n % d)) d with hcompare | hcompare | hcompare
    · have hcompare' : 2 * ((n % d : ℕ) : ℚ) < d := by exact_mod_cast hcompare
      rw [compare_lt_iff_lt.mpr hcompare]
      show ((n / d : ℕ) : ℚ) < n / d ∧ (n : ℚ) / d < (n / d : ℕ) + 1 / 2
      exact ⟨(lt_div_iff₀ hd').mpr (by linarith), (div_lt_iff₀ hd').mpr (by linarith)⟩
    · have hcompare' : 2 * ((n % d : ℕ) : ℚ) = d := by exact_mod_cast hcompare
      rw [compare_eq_iff_eq.mpr hcompare]
      show (n : ℚ) / d = (n / d : ℕ) + 1 / 2
      exact (div_eq_iff hd'.ne').mpr (by linarith)
    · have hcompare' : (d : ℚ) < 2 * ((n % d : ℕ) : ℚ) := by exact_mod_cast hcompare
      rw [compare_gt_iff_gt.mpr hcompare]
      show ((n / d : ℕ) : ℚ) + 1 / 2 < n / d ∧ (n : ℚ) / d < (n / d : ℕ) + 1
      exact ⟨(lt_div_iff₀ hd').mpr (by linarith), (div_lt_iff₀ hd').mpr (by linarith)⟩

theorem two_zpow_totalExponent_le (hm : 0 < m) (e : ℤ) :
    (2 : ℚ) ^ (totalExponent m e - 1) ≤ m * 2 ^ e ∧ (m : ℚ) * 2 ^ e < 2 ^ totalExponent m e := by
  obtain ⟨hlow, hhigh⟩ := two_zpow_log2_le hm
  have hpos : (0 : ℚ) < 2 ^ e := by positivity
  have hexponent : totalExponent m e - 1 = m.log2 + e := by
    rw [totalExponent]
    ring
  rw [hexponent, totalExponent, zpow_add₀ (by norm_num), zpow_add₀ (by norm_num) (_ + 1)]
  exact ⟨mul_le_mul_of_nonneg_right hlow hpos.le, mul_lt_mul_of_pos_right hhigh hpos⟩

/-- A quotient is at least the power of two that the lengths promise. -/
theorem two_zpow_le_quotient (hm : 0 < m) (hn : 0 < n) (e f : ℤ) :
    (2 : ℚ) ^ (totalExponent m e - totalExponent n f - 1) ≤ (m : ℚ) * 2 ^ e / (n * 2 ^ f) := by
  rw [le_div_iff₀ (by positivity)]
  calc
    (2 : ℚ) ^ (totalExponent m e - totalExponent n f - 1) * (n * 2 ^ f)
      ≤ 2 ^ (totalExponent m e - totalExponent n f - 1) * 2 ^ totalExponent n f :=
        mul_le_mul_of_nonneg_left (two_zpow_totalExponent_le hn f).2.le (by positivity)
    _ = 2 ^ (totalExponent m e - 1) := by
        rw [← zpow_add₀ (by norm_num)]
        congr 1
        ring
    _ ≤ m * 2 ^ e := (two_zpow_totalExponent_le hm e).1

/-- The dividend is shifted, and the exponent lowered with it. -/
theorem divCore_eq (m n : ℕ) (e f : ℤ) : ∃ (shift : ℕ) (target : ℤ),
    UnpackedFloat.divCore Format.binary64 m e n f =
      (m <<< shift / n, target, UnpackedFloat.accuracyOfFraction (m <<< shift % n) n) ∧
    ((m <<< shift : ℕ) : ℚ) / n * 2 ^ target = (m : ℚ) * 2 ^ e / (n * 2 ^ f) ∧
    target ≤ max (totalExponent m e - totalExponent n f - floatBits) Binary64.minExponent := by
  generalize htarget : min (e - f) (Format.binary64.targetExponent
    (totalExponent m e - totalExponent n f)) = target
  generalize hshift : (e - f - target).toNat = shift
  refine ⟨shift, target, ?_, ?_, htarget ▸ min_le_right _ _⟩
  · rw [UnpackedFloat.divCore]
    simp only [htarget, hshift]
  · have hexponent : (shift : ℤ) + target = e - f := by
      have hle : target ≤ e - f := htarget ▸ min_le_left _ _
      omega
    have hpower : (2 : ℚ) ^ shift * 2 ^ target = 2 ^ e / 2 ^ f := by
      rw [← zpow_natCast, ← zpow_add₀ (by norm_num), hexponent, zpow_sub₀ (by norm_num)]
    rw [Nat.shiftLeft_eq]
    push_cast
    rw [mul_div_mul_comm, ← hpower]
    ring

/-- The quotient of significands is carried far enough to be rounded. -/
theorem hasSize_div (s : UnpackedFloat.Sign) (hm : 0 < m) (hn : 0 < n) (e f : ℤ) :
    HasSize (roundWithAccuracy Format.binary64 s (UnpackedFloat.divCore Format.binary64 m e n f).1
      (UnpackedFloat.divCore Format.binary64 m e n f).2.1
      (UnpackedFloat.divCore Format.binary64 m e n f).2.2) s
      (roundFloat ((m : ℚ) * 2 ^ e / (n * 2 ^ f))) := by
  have hpositive : (0 : ℚ) < (m : ℚ) * 2 ^ e / (n * 2 ^ f) := by positivity
  have hlow := two_zpow_le_quotient hm hn e f
  obtain ⟨shift, target, hcore, hvalue, hbound⟩ := divCore_eq m n e f
  have hle : target ≤ floatPlace ((m : ℚ) * 2 ^ e / (n * 2 ^ f)) := by
    refine hbound.trans (max_le_max_right _ (le_place_of_le_abs hpositive.ne' ?_))
    rw [abs_of_pos hpositive, sub_add_cancel]
    exact hlow
  rw [← hvalue] at hle hpositive hlow
  rw [hcore, ← hvalue]
  refine hasSize_roundWithAccuracy s (pos_of_mul_pos_left hpositive (by positivity))
    (represents_div _ hn) (fun hzero => ?_) hle
  -- An empty quotient lies below the last place there is.
  by_contra hnot
  have hlarge : Binary64.minExponent < target := not_le.mp hnot
  have hsmall : ((m <<< shift : ℕ) : ℚ) / n < 1 := by
    rw [div_lt_one (Nat.cast_pos.mpr hn)]
    exact_mod_cast (Nat.div_eq_zero_iff_lt hn).mp hzero
  have hbelow : ((m <<< shift : ℕ) : ℚ) / n * 2 ^ target < 1 * 2 ^ target :=
    mul_lt_mul_of_pos_right hsmall (by positivity)
  have hpower : (2 : ℚ) ^ target ≤ 2 ^ (totalExponent m e - totalExponent n f - 1) := by
    apply zpow_le_zpow_right₀ (by norm_num)
    rw [floatBits] at hbound
    omega
  linarith

/-- A quotient of `Float`s is the `Float` nearest to the exact quotient. -/
theorem floatValue_div (hx : floatValue x = .finite a) (hy : floatValue y = .finite b)
    (hb : b ≠ 0) : floatValue (x / y) = rounded (a / b) := by
  have hdiv : x / y = .ofModel (Float.Model.pack
      (UnpackedFloat.div Format.binary64 x.toModel.unpack y.toModel.unpack)) := rfl
  rw [hdiv]
  rcases unpack_cases hy with ⟨s', hyu, rfl⟩ | ⟨s', n, f, hn, hyu, hnormal', rfl⟩
  · exact absurd rfl hb
  rcases unpack_cases hx with ⟨s, hxu, rfl⟩ | ⟨s, m, e, hm, hxu, hnormal, rfl⟩ <;> rw [hxu, hyu]
  · rw [zero_div]
    exact floatValue_pack_zero _
  · have hquotient : (Wide.signed (isMinus s) m : ℚ) * 2 ^ e /
        (Wide.signed (isMinus s') n * 2 ^ f) =
          if isMinus (s / s') then -((m : ℚ) * 2 ^ e / (n * 2 ^ f))
          else (m : ℚ) * 2 ^ e / (n * 2 ^ f) := by
      rw [isMinus_div, signed_mul_eq, signed_mul_eq]
      cases s <;> cases s' <;> simp [isMinus, neg_div, div_neg]
    rw [hquotient]
    exact (hasSize_div (s / s') hm hn e f).floatValue_signed (by positivity)

/-- An operation on finite `Float`s gives the value nearest to the exact result. -/
theorem floatValue_onFloat (op : ArithmeticOp) (hx : floatValue x = .finite a)
    (hy : floatValue y = .finite b) (hdiv : op = .div → b ≠ 0) :
    floatValue (op.onFloat x y) = rounded (op.exact a b) := by
  cases op with
  | add => exact floatValue_add hx hy
  | sub => exact floatValue_sub hx hy
  | mul => exact floatValue_mul hx hy
  | div => exact floatValue_div hx hy (hdiv rfl)

end Operations

end Fluxion.Number
