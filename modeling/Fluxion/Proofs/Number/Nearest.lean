import Fluxion.Proofs.Number.Unpacked

/-!
# The nearest `Float`

`rounded` is the value of the `Float` nearest to a rational number: with 53 bits, none of
them below the smallest there is, and infinite beyond the largest.  No other number that a
`Float` can be is nearer (`abs_sub_roundFloat_le`), so rounding passes none of them.

The library's own way from exact numbers to `Float`s is this rounding:
`floatValue_nearest`.
-/

namespace Fluxion.Number

/-! ## Rounding -/

/-- The exponent of the last place of the `Float` that is nearest to a number. -/
def floatPlace (v : ℚ) : ℤ :=
  max (place floatBits v) Binary64.minExponent

/-- The number with 53 bits, none below `2 ^ -1074`, that is nearest to a number; ties go
to the even one. -/
def roundFloat (v : ℚ) : ℚ :=
  roundAt (floatPlace v) v

/-- The value of the `Float` that is nearest to a number. -/
def rounded (v : ℚ) : Value :=
  if |roundFloat v| < 2 ^ (1024 : ℤ) then .finite (roundFloat v)
  else .infinite (decide (v < 0))

variable {m n d : ℕ} {e : ℤ} {v w : ℚ} {x : Float}

theorem roundFloat_neg (v : ℚ) : roundFloat (-v) = -roundFloat v := by
  rw [roundFloat, roundFloat, roundAt_neg, floatPlace, floatPlace, place_neg]

theorem roundFloat_nonneg (hv : 0 ≤ v) : 0 ≤ roundFloat v :=
  roundAt_nonneg _ hv

@[simp]
theorem rounded_zero : rounded 0 = .finite 0 := by
  rw [rounded, roundFloat, roundAt_zero, abs_zero, if_pos (by positivity)]

/-- The last place of a normalized float is where its significand ends. -/
theorem Normalized.floatPlace_eq (h : Normalized m e) (hm : 0 < m) :
    floatPlace ((m : ℚ) * 2 ^ e) = e := by
  have hpos : (0 : ℚ) < 2 ^ e := by positivity
  have hvalue : |(m : ℚ) * 2 ^ e| = m * 2 ^ e := abs_of_pos (by positivity)
  have hhigh : |(m : ℚ) * 2 ^ e| < 2 ^ (e + floatBits) := by
    rw [hvalue, zpow_add₀ (by norm_num), mul_comm ((2 : ℚ) ^ e)]
    exact mul_lt_mul_of_pos_right h.cast_lt hpos
  have hle : place floatBits ((m : ℚ) * 2 ^ e) ≤ e :=
    place_lt_of_abs_lt (by positivity) hhigh
  by_cases hmin : e = Binary64.minExponent
  · rw [floatPlace, ← hmin]
    exact max_eq_right hle
  · have hge : e ≤ place floatBits ((m : ℚ) * 2 ^ e) := by
      apply le_place_of_le_abs (by positivity)
      have hexponent : e + floatBits - 1 = 52 + e := by
        rw [floatBits]
        ring
      rw [hvalue, hexponent, zpow_add₀ (by norm_num)]
      exact mul_le_mul_of_nonneg_right (h.le_cast hmin) hpos.le
    rw [floatPlace, le_antisymm hle hge]
    exact max_eq_left h.minExponent_le

theorem Normalized.roundFloat_eq (h : Normalized m e) :
    roundFloat ((m : ℚ) * 2 ^ e) = m * 2 ^ e := by
  rcases Nat.eq_zero_or_pos m with rfl | hm
  · simp [roundFloat]
  · rw [roundFloat, h.floatPlace_eq hm]
    exact OnGrid.roundAt_eq ⟨m, by push_cast; rfl⟩

/-- Rounding does not pass the power of two above the number. -/
theorem abs_roundFloat_le (v : ℚ) : |roundFloat v| ≤ 2 ^ (floatPlace v + 53) := by
  have hplace : place floatBits v ≤ floatPlace v := le_max_left _ _
  refine abs_roundAt_le (by omega) ((abs_lt_two_zpow floatBits v).le.trans ?_)
  exact zpow_le_zpow_right₀ (by norm_num) (by rw [floatBits] at hplace ⊢; omega)

/-- Nor that below it, unless the number is very small. -/
theorem le_abs_roundFloat (hv : v ≠ 0) (h : floatPlace v ≠ Binary64.minExponent) :
    (2 : ℚ) ^ (floatPlace v + 52) ≤ |roundFloat v| := by
  have hplace : floatPlace v = place floatBits v := by
    rcases max_choice (place floatBits v) Binary64.minExponent with hmax | hmax
    · exact hmax
    · exact absurd hmax h
  have hle := two_zpow_le_abs floatBits hv
  have hexponent : place floatBits v + floatBits - 1 = place floatBits v + 52 := by
    rw [floatBits]
    ring
  rw [hexponent, ← hplace] at hle
  exact le_abs_roundAt (by omega) hle

/-- The significand of the nearest `Float`, which may be the next power of two. -/
theorem roundFloat_eq_significand (hv : 0 < v) (hm : (m : ℤ) = roundEven (v / 2 ^ floatPlace v)) :
    roundFloat v = m * 2 ^ floatPlace v ∧ m ≤ 2 ^ 53 ∧
      (2 ^ 52 ≤ m ∨ floatPlace v = Binary64.minExponent) := by
  have hpos : (0 : ℚ) < 2 ^ floatPlace v := by positivity
  have hsize : roundFloat v = m * 2 ^ floatPlace v := by
    rw [roundFloat, roundAt, ← hm, Int.cast_natCast]
  have habs : |roundFloat v| = m * 2 ^ floatPlace v := by
    rw [hsize, abs_of_nonneg (by positivity)]
  refine ⟨hsize, ?_, or_iff_not_imp_right.mpr fun hmin => ?_⟩
  · have hle := abs_roundFloat_le v
    rw [habs, zpow_add₀ (by norm_num), mul_comm ((2 : ℚ) ^ _)] at hle
    exact_mod_cast le_of_mul_le_mul_right hle hpos
  · have hle := le_abs_roundFloat hv.ne' hmin
    rw [habs, zpow_add₀ (by norm_num), mul_comm ((2 : ℚ) ^ _)] at hle
    exact_mod_cast le_of_mul_le_mul_right hle hpos

/-- Rounding a number with a sign. -/
theorem rounded_signed (negative : Bool) (hv : 0 < v) :
    rounded (if negative then -v else v) =
      if roundFloat v < 2 ^ (1024 : ℤ) then
        .finite (if negative then -roundFloat v else roundFloat v)
      else .infinite negative := by
  have habs : |roundFloat v| = roundFloat v := abs_of_nonneg (roundFloat_nonneg hv.le)
  cases negative with
  | false =>
      rw [if_neg Bool.false_ne_true, if_neg Bool.false_ne_true, rounded, habs,
        decide_eq_false (not_lt.mpr hv.le)]
  | true =>
      rw [if_pos rfl, if_pos rfl, rounded, roundFloat_neg, abs_neg, habs,
        decide_eq_true (neg_neg_of_pos hv)]

/-! ## Numbers that a `Float` can be -/

/-- The number has 53 bits and none below the smallest. -/
def Representable (v : ℚ) : Prop :=
  HasBits floatBits v ∧ OnGrid Binary64.minExponent v

/-- What a `Float` stands for is representable. -/
theorem representable_of_floatValue (h : floatValue x = .finite v) : Representable v := by
  refine ⟨hasBits_floatValue x v h, ?_⟩
  rcases unpack_cases h with ⟨s, -, rfl⟩ | ⟨s, m, e, hm, -, hnormal, rfl⟩
  · exact onGrid_zero _
  · exact OnGrid.mono ⟨_, rfl⟩ hnormal.minExponent_le

/-- No number that a `Float` can be is nearer. -/
theorem abs_sub_roundFloat_le (hw : Representable w) (v : ℚ) :
    |v - roundFloat v| ≤ |v - w| := by
  rcases max_choice (place floatBits v) Binary64.minExponent with hplace | hplace
  · have hround : roundFloat v = roundTo floatBits v := by
      rw [roundFloat, floatPlace, hplace, roundTo]
    rw [hround]
    exact abs_sub_roundTo_le_of_hasBits (by decide) hw.1 v
  · rw [roundFloat, floatPlace, hplace]
    exact hw.2.abs_sub_roundAt_le v

/-- Rounding passes no representable number. -/
theorem le_roundFloat (hw : Representable w) (h : w ≤ v) : w ≤ roundFloat v := by
  have hnear := abs_sub_roundFloat_le hw v
  rw [abs_of_nonneg (sub_nonneg.mpr h)] at hnear
  linarith [le_abs_self (v - roundFloat v)]

/-- A number that a `Float` can be is not rounded. -/
theorem roundFloat_eq (h : Representable v) : roundFloat v = v := by
  have hnear := abs_sub_roundFloat_le h v
  rw [sub_self, abs_zero, abs_nonpos_iff, sub_eq_zero] at hnear
  exact hnear.symm

/-- The value of a `Float` is kept. -/
theorem rounded_of_floatValue (h : floatValue x = .finite v) : rounded v = .finite v := by
  rw [rounded, roundFloat_eq (representable_of_floatValue h), if_pos (abs_lt_of_floatValue h)]

/-- Integers of moderate size are kept. -/
theorem rounded_intCast {n : ℤ} (h : |n| ≤ 2 ^ 53) : rounded n = .finite n := by
  have hgrid : OnGrid 0 (n : ℚ) := ⟨n, by rw [zpow_zero, mul_one]⟩
  have hle : |(n : ℚ)| ≤ 2 ^ 53 := by exact_mod_cast h
  have hrepresentable : Representable n := by
    refine ⟨hgrid.hasBits (by decide) ?_, hgrid.mono (by decide)⟩
    exact_mod_cast hle
  have hlimit : (2 : ℚ) ^ 53 < 2 ^ (1024 : ℤ) := by
    have := zpow_lt_zpow_right₀ (a := (2 : ℚ)) (by norm_num) (show (53 : ℤ) < 1024 by norm_num)
    exact_mod_cast this
  rw [rounded, roundFloat_eq hrepresentable, if_pos (hle.trans_lt hlimit)]

/-- The integer nearest to a `Float` is one. -/
theorem rounded_roundEven (h : floatValue x = .finite v) :
    rounded (roundEven v) = .finite (roundEven v) := by
  by_cases hinteger : roundEven v = v
  · rw [hinteger]
    exact rounded_of_floatValue h
  · obtain ⟨k, hgrid, hlt⟩ := (hasBits_floatValue x v h).exists_onGrid
    have hk : k < 0 := by
      by_contra hk
      obtain ⟨n, hn⟩ := hgrid.mono (not_lt.mp hk)
      rw [zpow_zero, mul_one] at hn
      rw [hn] at hinteger
      exact hinteger (congrArg _ (roundEven_intCast n))
    have hle : |v| ≤ ((2 ^ 53 : ℤ) : ℚ) := by
      refine hlt.le.trans ?_
      have hpower := zpow_le_zpow_right₀ (a := (2 : ℚ)) (by norm_num)
        (show k + (floatBits : ℤ) ≤ 53 by rw [floatBits]; omega)
      exact_mod_cast hpower
    obtain ⟨hlow, hhigh⟩ := abs_le.mp hle
    apply rounded_intCast
    have hleast := roundEven_mono hlow
    have hmost := roundEven_mono hhigh
    rw [← Int.cast_neg, roundEven_intCast] at hleast
    rw [roundEven_intCast] at hmost
    exact abs_le.mpr ⟨hleast, hmost⟩

/-! ## Overflow -/

/-- Rounding reaches a power of two from the midpoint on between it and the largest number with
53 bits below it: the tie goes to the power. -/
theorem two_zpow_le_abs_roundFloat_iff {k : ℤ} (hk : Binary64.minExponent ≤ k) :
    (2 : ℚ) ^ (k + 54) ≤ |roundFloat v| ↔ (2 : ℚ) ^ (k + 54) - 2 ^ k ≤ |v| := by
  have hpos : (0 : ℚ) < 2 ^ k := by positivity
  have hpower : ∀ j : ℕ, (2 : ℚ) ^ (k + j) = 2 ^ j * 2 ^ k := fun j => by
    rw [zpow_add₀ (by norm_num), zpow_natCast, mul_comm]
  have hunit : (2 : ℚ) ^ (k + 1) = 2 * 2 ^ k := hpower 1
  have hhalf : (2 : ℚ) ^ (k + 53) = 2 ^ 53 * 2 ^ k := hpower 53
  have htop : (2 : ℚ) ^ (k + 54) = 2 ^ 54 * 2 ^ k := hpower 54
  rcases lt_or_ge |v| (2 ^ (k + 53)) with hsmall | hlow
  · have hround : |roundFloat v| ≤ 2 ^ (k + 53) := by
      by_cases hv : v = 0
      · rw [hv, roundFloat, roundAt_zero, abs_zero]
        positivity
      · have hplace : floatPlace v ≤ k := max_le (place_lt_of_abs_lt hv hsmall) hk
        exact (abs_roundFloat_le v).trans (zpow_le_zpow_right₀ (by norm_num) (by omega))
    rw [hhalf] at hsmall hround
    rw [htop]
    exact iff_of_false (by linarith) (by linarith)
  rcases lt_or_ge |v| (2 ^ (k + 54)) with hhigh | hlarge
  · have hplace : floatPlace v = k + 1 := by
      have hown : place floatBits v = k + 1 := by
        apply place_eq
        · rwa [show k + 1 + (floatBits : ℤ) - 1 = k + 53 by rw [floatBits]; ring]
        · rwa [show k + 1 + (floatBits : ℤ) = k + 54 by rw [floatBits]; ring]
      rw [floatPlace, hown]
      exact max_eq_left (by omega)
    have htie : roundEven (2 ^ 53 - 1 / 2) = 2 ^ 53 :=
      roundEven_eq (Or.inr ⟨by norm_num, by norm_num⟩)
    have hround : |roundFloat v| = roundEven (|v| / 2 ^ (k + 1)) * 2 ^ (k + 1) := by
      rw [roundFloat, hplace, abs_roundAt, roundAt]
    have hscale : (2 : ℚ) ^ (k + 54) = (2 ^ 53 : ℤ) * 2 ^ (k + 1) := by
      rw [htop, hunit]
      push_cast
      ring
    have hmidpoint : (2 : ℚ) ^ (k + 54) - 2 ^ k = (2 ^ 53 - 1 / 2) * 2 ^ (k + 1) := by
      rw [htop, hunit]
      ring
    have hunit_pos : (0 : ℚ) < 2 ^ (k + 1) := by positivity
    rw [hmidpoint, hround, hscale, mul_le_mul_iff_left₀ hunit_pos, ← le_div_iff₀ hunit_pos,
      Int.cast_le]
    constructor
    · intro h
      have hcast : ((2 ^ 53 : ℤ) : ℚ) ≤ roundEven (|v| / 2 ^ (k + 1)) := by exact_mod_cast h
      have hnear := abs_le.mp (abs_sub_roundEven_le (|v| / 2 ^ (k + 1)))
      push_cast at hcast
      linarith
    · intro h
      rw [← htie]
      exact roundEven_mono h
  · have hv : v ≠ 0 := ne_zero_of_two_zpow_le hlarge
    have hplace : k + 2 ≤ floatPlace v := by
      have hown : k + 2 ≤ place floatBits v := by
        apply le_place_of_le_abs hv
        rwa [show k + 2 + (floatBits : ℤ) - 1 = k + 54 by rw [floatBits]; ring]
      exact hown.trans (le_max_left _ _)
    have hround := le_abs_roundFloat hv (by omega)
    exact iff_of_true (le_trans (zpow_le_zpow_right₀ (by norm_num) (by omega)) hround)
      ((sub_le_self _ hpos.le).trans hlarge)

/-! ## The `Float` nearest to a quotient -/

namespace Binary64

theorem ofFloat_ofCode (negative : Bool) {c : ℕ} (hc : c ≤ infinityCode) :
    ofFloat (ofCode negative c) =
      if c / leadingBit = topField then
        if c % leadingBit = 0 then .infinite negative else .nan
      else if c / leadingBit = 0 then .finite negative (c % leadingBit) minExponent
      else .finite negative (leadingBit + c % leadingBit) (((c / leadingBit : ℕ) : ℤ) - 1075) := by
  have hsmall : c < signBit := Nat.lt_of_le_of_lt hc (by decide)
  have hfield : c / leadingBit ≤ topField := by
    rw [infinityCode] at hc
    exact Nat.div_le_of_le_mul (by rwa [Nat.mul_comm])
  have hexponent : (BitVec.ofNat 11 (c / leadingBit)).toNat = c / leadingBit := by
    rw [BitVec.toNat_ofNat]
    exact Nat.mod_eq_of_lt (Nat.lt_of_le_of_lt hfield (by decide))
  have hfraction : (BitVec.ofNat 52 c).toNat = c % leadingBit := BitVec.toNat_ofNat _ _
  have hnumber : BitVec.ofNat 11 (c / leadingBit) ≠ -1#11 ∨ BitVec.ofNat 52 c = 0#52 := by
    rw [or_iff_not_imp_left, not_not, ← toNat_eq_top_iff, ← toNat_eq_zero_iff, hexponent,
      hfraction]
    rw [infinityCode] at hc
    intro htop
    have hsplit := Nat.div_add_mod c leadingBit
    rw [htop, Nat.mul_comm] at hsplit
    omega
  have hsign : isMinus (if negative then .negative else .positive) = negative := by
    cases negative <;> rfl
  have hbits : (ofCode negative c).toBits = UInt64.ofBitVec
      (fields (if negative then .negative else .positive) (BitVec.ofNat 11 (c / leadingBit))
        (BitVec.ofNat 52 c)) := by
    rw [ofCode, Nat.min_eq_left hc, bits_eq_fields negative hsmall]
    exact toBits_ofBits_fields hnumber
  rw [ofFloat_of_fields hbits, hexponent, hfraction, hsign]

theorem floatValue_ofCode_top (negative : Bool) {c : ℕ} (hc : infinityCode ≤ c) :
    floatValue (ofCode negative c) = .infinite negative := by
  have htop : ofCode negative c = ofCode negative infinityCode := by
    rw [ofCode, ofCode, Nat.min_eq_right hc, Nat.min_self]
  rw [htop, floatValue, ofFloat_ofCode negative (le_refl _), if_pos (by decide),
    if_pos (by decide)]
  rfl

/-- The value at the position of a normalized magnitude. -/
theorem floatValue_ofCode (negative : Bool) (h : Normalized m e) :
    floatValue (ofCode negative (code m e)) =
      if (m : ℚ) * 2 ^ e < 2 ^ (1024 : ℤ) then .finite (Wide.signed negative m * 2 ^ e)
      else .infinite negative := by
  simp only [h.lt_iff]
  obtain ⟨hsignificand, hmin, hnormal⟩ := h
  rw [leadingBit] at hsignificand hnormal
  rw [minExponent] at hmin hnormal
  have hcode : code m e = (e + 1074).toNat * 4503599627370496 + m := by
    rw [code, minExponent, leadingBit, sub_neg_eq_add]
  split_ifs with hlarge
  · rw [maxExponent] at hlarge
    have hle : code m e ≤ infinityCode := by
      rw [hcode, infinityCode, topField, leadingBit]
      omega
    rw [floatValue, ofFloat_ofCode negative hle, hcode, leadingBit, topField]
    by_cases hlong : 4503599627370496 ≤ m
    · have hfield : ((e + 1074).toNat * 4503599627370496 + m) / 4503599627370496 =
          (e + 1075).toNat := by omega
      have hfraction : ((e + 1074).toNat * 4503599627370496 + m) % 4503599627370496 =
          m - 4503599627370496 := by omega
      have hexponent : ((e + 1075).toNat : ℤ) - 1075 = e := by omega
      rw [hfield, hfraction, if_neg (by omega), if_neg (by omega), hexponent,
        Nat.add_sub_cancel' hlong]
      rfl
    · obtain rfl : e = -1074 := hnormal.resolve_left hlong
      have hfield : ((-1074 + 1074 : ℤ).toNat * 4503599627370496 + m) / 4503599627370496 = 0 := by
        omega
      have hfraction : ((-1074 + 1074 : ℤ).toNat * 4503599627370496 + m) % 4503599627370496 =
          m := by omega
      rw [hfield, hfraction, if_neg (by decide), if_pos rfl]
      rfl
  · rw [maxExponent] at hlarge
    apply floatValue_ofCode_top
    rw [hcode, infinityCode, topField, leadingBit]
    omega

/-- A significand that was rounded up to the next power of two needs no care. -/
theorem floatValue_ofCode_significand (negative : Bool) (he : minExponent ≤ e) (hm : m ≤ 2 ^ 53)
    (hnormal : 2 ^ 52 ≤ m ∨ e = minExponent) :
    floatValue (ofCode negative (code m e)) =
      if (m : ℚ) * 2 ^ e < 2 ^ (1024 : ℤ) then
        .finite (if negative then -((m : ℚ) * 2 ^ e) else m * 2 ^ e)
      else .infinite negative := by
  have hsigned : ∀ (k : ℕ) (f : ℤ), (Wide.signed negative k : ℚ) * 2 ^ f =
      if negative then -((k : ℚ) * 2 ^ f) else k * 2 ^ f := fun k f => by
    cases negative <;> simp [Wide.signed]
  rcases hm.lt_or_eq with hlt | rfl
  · rw [floatValue_ofCode negative ⟨hlt, he, hnormal⟩, hsigned]
  · have hcode : code (2 ^ 53) e = code leadingBit (e + 1) := by
      have hstep : (e + 1 - minExponent).toNat = (e - minExponent).toNat + 1 := by omega
      rw [code, code, hstep, leadingBit]
      omega
    have hsize : ((2 ^ 53 : ℕ) : ℚ) * 2 ^ e = (leadingBit : ℕ) * 2 ^ (e + 1) := by
      rw [cast_leadingBit, zpow_add_one₀ (by norm_num)]
      push_cast
      ring
    rw [hcode, hsize, floatValue_ofCode negative ⟨by decide, by omega, Or.inl (le_refl _)⟩, hsigned]

end Binary64

/-- Rounding a quotient gives the nearest `Float`. -/
theorem floatValue_nearest (negative : Bool) (n : ℕ) (hd : 0 < d) :
    floatValue (Binary64.nearest negative n d) =
      rounded ((Wide.signed negative n : ℚ) / d) := by
  rcases Nat.eq_zero_or_pos n with rfl | hn
  · have hzero : Binary64.nearest negative 0 d =
        Binary64.ofCode negative (Binary64.code 0 Binary64.minExponent) := by
      rw [Binary64.nearest, if_pos rfl]
      rfl
    have hnormal : Normalized 0 Binary64.minExponent := ⟨by decide, le_refl _, Or.inr rfl⟩
    rw [hzero, Binary64.floatValue_ofCode negative hnormal, signed_zero, Nat.cast_zero, zero_mul,
      if_pos (by positivity), Int.cast_zero, zero_mul, zero_div, rounded_zero]
  · have hd' : (0 : ℚ) < d := Nat.cast_pos.mpr hd
    have hv : (0 : ℚ) < (n : ℚ) / d := by positivity
    have hplace : Binary64.lastPlace n d = floatPlace ((n : ℚ) / d) := by
      have hquotient := Wide.place_quotient hn hd floatBits 0
      rw [zpow_zero, mul_one] at hquotient
      rw [Binary64.lastPlace, floatPlace, hquotient, floatBits]
      congr 1
      push_cast
      ring
    have hround : (scaledNearest n d (-floatPlace ((n : ℚ) / d)) : ℤ) =
        roundEven ((n : ℚ) / d / 2 ^ floatPlace ((n : ℚ) / d)) := by
      rw [cast_scaledNearest hd, zpow_neg, div_eq_mul_inv _ ((2 : ℚ) ^ _)]
    obtain ⟨hsize, hmost, hleast⟩ := roundFloat_eq_significand hv hround
    have hsigned : (Wide.signed negative n : ℚ) / d =
        if negative then -((n : ℚ) / d) else (n : ℚ) / d := by
      cases negative <;> simp [Wide.signed, neg_div]
    rw [Binary64.nearest_of_pos hn, hplace, hsigned, rounded_signed negative hv, hsize]
    exact Binary64.floatValue_ofCode_significand negative (le_max_right _ _) hmost hleast

/-- The `Float` nearest to a quotient is infinite from the midpoint between the largest finite
one and `2 ^ 1024` on. -/
theorem isInf_nearest_iff (negative : Bool) (n : ℕ) (hd : 0 < d) :
    (Binary64.nearest negative n d).isInf = true ↔
      (2 : ℚ) ^ (1024 : ℤ) - 2 ^ (970 : ℤ) ≤ (n : ℚ) / d := by
  have hsize : |(Wide.signed negative n : ℚ) / d| = n / d := by
    cases negative <;> simp [Wide.signed, abs_div]
  have hreach := two_zpow_le_abs_roundFloat_iff (v := (Wide.signed negative n : ℚ) / d)
    (k := 970) (by decide)
  rw [hsize] at hreach
  rw [isInf_iff_floatValue_eq, floatValue_nearest negative n hd, rounded]
  split_ifs with hsmall
  · refine iff_of_false ?_ fun h => absurd (hreach.mpr h) (not_le.mpr hsmall)
    rintro ⟨_, ⟨⟩⟩
  · exact iff_of_true ⟨_, rfl⟩ (hreach.mp (not_lt.mp hsmall))

/-- Rounding an integer times a power of two gives the nearest `Float`. -/
theorem floatValue_nearestScaled (negative : Bool) (m : ℕ) (e : ℤ) :
    floatValue (Binary64.nearestScaled negative m e) =
      rounded (Wide.signed negative m * 2 ^ e) := by
  have hscaled : (Wide.signed negative (m * (powerOfTwo e).1) : ℚ) / (powerOfTwo e).2 =
      Wide.signed negative m * 2 ^ e := by
    rw [← powerOfTwo_div, ← mul_div_assoc]
    cases negative <;> simp [Wide.signed]
  rw [← hscaled]
  exact floatValue_nearest negative _ (powerOfTwo_pos e).2

/-- A binary number is read as the `Float` nearest to the number with 53 bits. -/
theorem floatValue_toFloat {w : Wide} (h : w.value = .finite v) :
    floatValue w.toFloat = rounded (roundTo floatBits v) := by
  obtain ⟨m, e, rfl, rfl⟩ := Wide.eq_of_value_eq_finite h
  obtain ⟨n, f, hofInt, hvalue⟩ := Wide.eq_of_value_eq_finite (Wide.value_ofInt floatBits m e)
  have hread : Wide.toFloat (.finite m e) =
      Binary64.nearestScaled (decide (n < 0)) n.natAbs f := by
    rw [Wide.toFloat, ← floatBits, hofInt]
  rw [hread, floatValue_nearestScaled, signed_natAbs, hvalue]

end Fluxion.Number
