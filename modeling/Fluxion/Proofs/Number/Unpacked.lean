import Fluxion.Proofs.Number.Value

/-!
# The values of unpacked floats

Arithmetic and comparison of `Float`s are defined on unpacked floats.  Unpacking keeps the
value (`unpackedValue_unpack`), and so does packing, up to overflow
(`floatValue_pack_finite`).  A normalized float is known from its value, and comparing
`Float`s is comparing their values: `le_iff_value_le`, `beq_iff_floatValue_eq`.
-/

open Float.Model

namespace Fluxion.Number

def isMinus : UnpackedFloat.Sign → Bool
  | .negative => true
  | .positive => false

def unpackedValue : UnpackedFloat → Value
  | .notANumber => .nan
  | .infinity s => .infinite (isMinus s)
  | .zero _ => .finite 0
  | .finite s m e _ => .finite (Wide.signed (isMinus s) m * 2 ^ e)

/-- The significand is as long as it may be unless the exponent is the smallest.  There is
no bound on large exponents. -/
structure Normalized (m : ℕ) (e : ℤ) : Prop where
  significand : m < 2 * Binary64.leadingBit
  minExponent_le : Binary64.minExponent ≤ e
  normal : Binary64.leadingBit ≤ m ∨ e = Binary64.minExponent

variable {s : UnpackedFloat.Sign} {m n : ℕ} {e f : ℤ} {x y : Float}

theorem Normalized.cast_lt (h : Normalized m e) : (m : ℚ) < 2 ^ 53 := by
  have hm := h.significand
  rw [Binary64.leadingBit] at hm
  exact_mod_cast hm

theorem Normalized.le_cast (h : Normalized m e) (he : e ≠ Binary64.minExponent) :
    (2 : ℚ) ^ 52 ≤ m := by
  rw [← Binary64.cast_leadingBit]
  exact_mod_cast h.normal.resolve_right he

/-! ## Unpacking -/

theorem ofFloat_of_fields {exponent : BitVec 11} {fraction : BitVec 52}
    (h : x.toBits = UInt64.ofBitVec (fields s exponent fraction)) :
    Binary64.ofFloat x =
      if exponent.toNat = Binary64.topField then
        if fraction.toNat = 0 then .infinite (isMinus s) else .nan
      else if exponent.toNat = 0 then .finite (isMinus s) fraction.toNat Binary64.minExponent
      else .finite (isMinus s) (Binary64.leadingBit + fraction.toNat)
        ((exponent.toNat : ℤ) - 1075) := by
  have hbits : x.toBits.toNat = s.toBitVec.toNat * Binary64.signBit +
      exponent.toNat * Binary64.leadingBit + fraction.toNat := by
    rw [h, UInt64.toNat_ofBitVec, Binary64.toNat_fields]
  have hexponent := exponent.isLt
  have hfraction := fraction.isLt
  have hsign : decide (Binary64.signBit ≤ x.toBits.toNat) = isMinus s := by
    rw [hbits]
    cases s
    · exact decide_eq_true (by simp [UnpackedFloat.Sign.toBitVec]; omega)
    · apply decide_eq_false
      simp only [UnpackedFloat.Sign.toBitVec, Binary64.signBit, Binary64.leadingBit]
      simp
      omega
  have hfield : x.toBits.toNat / Binary64.leadingBit % (Binary64.topField + 1) =
      exponent.toNat := by
    rw [hbits]
    cases s <;> simp [UnpackedFloat.Sign.toBitVec, Binary64.signBit, Binary64.leadingBit,
      Binary64.topField] <;> omega
  have hlow : x.toBits.toNat % Binary64.leadingBit = fraction.toNat := by
    rw [hbits]
    cases s <;> simp [UnpackedFloat.Sign.toBitVec, Binary64.signBit, Binary64.leadingBit] <;> omega
  rw [Binary64.ofFloat, hsign, hfield, hlow]

theorem unpack_of_fields {exponent : BitVec 11} {fraction : BitVec 52}
    (h : x.toBits = UInt64.ofBitVec (fields s exponent fraction)) :
    x.toModel.unpack = UnpackedFloat.unpack Format.binary64 (fields s exponent fraction) :=
  congrArg (fun bits : UInt64 => UnpackedFloat.unpack Format.binary64 bits.toBitVec) h

theorem toNat_eq_top_iff {exponent : BitVec 11} :
    exponent.toNat = Binary64.topField ↔ exponent = -1#11 :=
  ⟨fun h => BitVec.eq_of_toNat_eq h, fun h => congrArg BitVec.toNat h⟩

theorem toNat_eq_zero_iff {w : ℕ} {v : BitVec w} : v.toNat = 0 ↔ v = 0#w := by
  rw [← BitVec.toNat_inj, BitVec.toNat_ofNat, Nat.zero_mod]

/-- Unpacking keeps the value. -/
theorem unpackedValue_unpack (x : Float) : unpackedValue x.toModel.unpack = floatValue x := by
  obtain ⟨s, exponent, fraction, hbits⟩ := exists_fields x.toBits
  rw [unpack_of_fields hbits, floatValue, ofFloat_of_fields hbits, unpack_fields]
  simp only [toNat_eq_top_iff, toNat_eq_zero_iff]
  split_ifs with htop hzero hlow hnone
  · rfl
  · rfl
  · rw [hnone]
    simp [unpackedValue, Binary64.value]
  · rfl
  · rw [unpackedValue, Binary64.value, toNat_leading]

/-- Bits are unpacked to a normalized significand with an exponent in range. -/
theorem normalized_of_unpack {hm : 0 < m} (h : x.toModel.unpack = .finite s m e hm) :
    Normalized m e ∧ e ≤ Binary64.maxExponent := by
  obtain ⟨s', exponent, fraction, hbits⟩ := exists_fields x.toBits
  have hexponent := exponent.isLt
  have hfraction := fraction.isLt
  rw [unpack_of_fields hbits, unpack_fields] at h
  simp only [← toNat_eq_top_iff, ← toNat_eq_zero_iff] at h
  split_ifs at h with htop hzero hlow hnone
  · injection h with _ hfrac hexp
    subst hfrac hexp
    exact ⟨⟨by rw [Binary64.leadingBit]; omega, by decide, Or.inr rfl⟩, by decide⟩
  · injection h with _ hfrac hexp
    subst hfrac hexp
    rw [toNat_leading]
    rw [Binary64.topField] at htop
    exact ⟨⟨by rw [Binary64.leadingBit]; omega, by rw [Binary64.minExponent]; omega,
      Or.inl (by rw [Binary64.leadingBit]; omega)⟩, by rw [Binary64.maxExponent]; omega⟩

/-- A finite `Float` is a zero, or it is normalized. -/
theorem unpack_cases {a : ℚ} (h : floatValue x = .finite a) :
    (∃ s, x.toModel.unpack = .zero s ∧ a = 0) ∨
      ∃ s m e hm, x.toModel.unpack = .finite s m e hm ∧ Normalized m e ∧
        a = Wide.signed (isMinus s) m * 2 ^ e := by
  rw [← unpackedValue_unpack] at h
  cases hunpack : x.toModel.unpack with
  | notANumber | infinity s =>
      rw [hunpack] at h
      cases h
  | zero s =>
      rw [hunpack] at h
      exact Or.inl ⟨s, rfl, (Value.finite.inj h).symm⟩
  | finite s m e hm =>
      rw [hunpack] at h
      exact Or.inr ⟨s, m, e, hm, rfl, (normalized_of_unpack hunpack).1, (Value.finite.inj h).symm⟩

/-! ## Packing -/

/-- A normalized float is found again, unless its exponent is too large. -/
theorem unpack_pack_finite (s : UnpackedFloat.Sign) (hm : 0 < m) (h : Normalized m e) :
    (Float.Model.pack (.finite s m e hm)).unpack =
      if e ≤ Binary64.maxExponent then .finite s m e hm else .infinity s := by
  obtain ⟨hsignificand, hmin, hnormal⟩ := h
  rw [Binary64.leadingBit] at hsignificand hnormal
  rw [Binary64.minExponent] at hmin hnormal
  have hunpack : (Float.Model.pack (.finite s m e hm)).unpack = UnpackedFloat.unpack
      Format.binary64 (UnpackedFloat.pack Format.binary64 (.finite s m e hm)) := rfl
  have hlog : m.log2 = 52 ↔ 2 ^ 52 ≤ m := by
    rw [Nat.log2_eq_iff hm.ne']
    omega
  rw [hunpack, pack_finite, Binary64.maxExponent]
  by_cases hlarge : e ≤ 971
  · rw [if_neg (by omega), if_pos hlarge]
    by_cases hlong : m.log2 = 52
    · rw [if_pos hlong, unpack_fields]
      have hbiased : (BitVec.ofNat 11 (e + 1075).toNat).toNat = (e + 1075).toNat := by
        rw [BitVec.toNat_ofNat]
        omega
      have hfraction : (1#1 ++ BitVec.ofNat 52 m).toNat = m := by
        rw [toNat_leading, BitVec.toNat_ofNat, Binary64.leadingBit]
        have := hlog.mp hlong
        omega
      have hexponent : ((BitVec.ofNat 11 (e + 1075).toNat).toNat : ℤ) - 1075 = e := by
        rw [hbiased]
        omega
      rw [if_neg, if_neg]
      · simp only [hfraction, hexponent]
      · rw [← toNat_eq_zero_iff, hbiased]
        omega
      · rw [← toNat_eq_top_iff, hbiased, Binary64.topField]
        omega
    · have hsmall : m < 2 ^ 52 := by
        have := mt hlog.mpr hlong
        omega
      have hfraction : (BitVec.ofNat 52 m).toNat = m := by
        rw [BitVec.toNat_ofNat]
        omega
      obtain rfl : e = -1074 := by
        rcases hnormal with hge | heq
        · omega
        · exact heq
      rw [if_neg hlong, unpack_fields, if_neg (by decide), if_pos rfl, dif_neg]
      · simp only [hfraction]
      · rw [← toNat_eq_zero_iff, hfraction]
        omega
  · rw [if_pos (by omega), if_neg hlarge]
    exact (unpack_fields _ _ _).trans (by rw [if_pos rfl, if_pos rfl])

/-- The size of a normalized float tells whether its exponent is too large. -/
theorem Normalized.lt_iff (h : Normalized m e) :
    (m : ℚ) * 2 ^ e < 2 ^ (1024 : ℤ) ↔ e ≤ Binary64.maxExponent := by
  have hpos : (0 : ℚ) < 2 ^ e := by positivity
  rw [Binary64.maxExponent]
  constructor
  · intro hlt
    by_contra hlarge
    have hmin := h.minExponent_le
    have hnormal : (2 : ℚ) ^ 52 ≤ m := h.le_cast (by rw [Binary64.minExponent]; omega)
    have hpower : (2 : ℚ) ^ (972 : ℤ) ≤ 2 ^ e := zpow_le_zpow_right₀ (by norm_num) (by omega)
    have hproduct := mul_le_mul hnormal hpower (by positivity) (Nat.cast_nonneg m)
    have hsplit : (2 : ℚ) ^ 52 * 2 ^ (972 : ℤ) = 2 ^ (1024 : ℤ) := by
      rw [← zpow_natCast, ← zpow_add₀ (by norm_num)]
      norm_num only
    rw [hsplit] at hproduct
    exact absurd hlt (not_lt.mpr hproduct)
  · intro hle
    have hpower : (2 : ℚ) ^ e ≤ 2 ^ (971 : ℤ) := zpow_le_zpow_right₀ (by norm_num) hle
    have hsplit : (2 : ℚ) ^ 53 * 2 ^ (971 : ℤ) = 2 ^ (1024 : ℤ) := by
      rw [← zpow_natCast, ← zpow_add₀ (by norm_num)]
      norm_num only
    rw [← hsplit]
    exact mul_lt_mul h.cast_lt hpower hpos (by norm_num only)

theorem floatValue_pack (u : UnpackedFloat) :
    floatValue (.ofModel (Float.Model.pack u)) = unpackedValue (Float.Model.pack u).unpack :=
  (unpackedValue_unpack _).symm

/-- Packing keeps the value of a normalized float that is not too large. -/
theorem floatValue_pack_finite (s : UnpackedFloat.Sign) (hm : 0 < m) (h : Normalized m e) :
    floatValue (.ofModel (Float.Model.pack (.finite s m e hm))) =
      if (m : ℚ) * 2 ^ e < 2 ^ (1024 : ℤ) then .finite (Wide.signed (isMinus s) m * 2 ^ e)
      else .infinite (isMinus s) := by
  rw [floatValue_pack, unpack_pack_finite s hm h]
  simp only [h.lt_iff]
  split_ifs <;> rfl

/-! ## Comparison -/

/-- Of two normalized floats the one with the larger exponent is larger. -/
theorem Normalized.mul_lt_mul (h : Normalized m e) (h' : Normalized n f) (hef : e < f) :
    (m : ℚ) * 2 ^ e < n * 2 ^ f := by
  have hmin := h.minExponent_le
  have hn : (2 : ℚ) ^ 52 ≤ n := h'.le_cast (by omega)
  calc
    (m : ℚ) * 2 ^ e < 2 ^ 53 * 2 ^ e := mul_lt_mul_of_pos_right h.cast_lt (by positivity)
    _ = 2 ^ 52 * 2 ^ (e + 1) := by
        rw [zpow_add_one₀ (by norm_num)]
        ring
    _ ≤ 2 ^ 52 * 2 ^ f := by
        gcongr
        · norm_num
        · omega
    _ ≤ n * 2 ^ f := mul_le_mul_of_nonneg_right hn (by positivity)

theorem Normalized.isLE_compare_iff (h : Normalized m e) (h' : Normalized n f) :
    ((compare e f).then (compare m n)).isLE = true ↔ (m : ℚ) * 2 ^ e ≤ n * 2 ^ f := by
  rcases lt_trichotomy e f with hef | rfl | hef
  · rw [compare_lt_iff_lt.mpr hef]
    exact iff_of_true rfl (h.mul_lt_mul h' hef).le
  · rw [compare_eq_iff_eq.mpr rfl, mul_le_mul_iff_left₀ (by positivity), Nat.cast_le,
      ← Nat.isLE_compare]
    rfl
  · rw [compare_gt_iff_gt.mpr hef]
    exact iff_of_false Bool.false_ne_true (not_le.mpr (h'.mul_lt_mul h hef))

/-- A normalized float is known from its size. -/
theorem Normalized.eq_of_mul_eq (h : Normalized m e) (h' : Normalized n f)
    (heq : (m : ℚ) * 2 ^ e = n * 2 ^ f) : m = n ∧ e = f := by
  rcases lt_trichotomy e f with hef | rfl | hef
  · exact absurd heq (h.mul_lt_mul h' hef).ne
  · exact ⟨by exact_mod_cast mul_right_cancel₀ (by positivity) heq, rfl⟩
  · exact absurd heq (h'.mul_lt_mul h hef).ne'

/-- The order of values.  What is not a number has no place in it. -/
def Value.le : Value → Value → Prop
  | .nan, _ => False
  | _, .nan => False
  | .infinite true, _ => True
  | _, .infinite false => True
  | .finite v, .finite w => v ≤ w
  | _, _ => False

/-- Unpacked floats are normalized, as they come from bits. -/
def FromBits (u : UnpackedFloat) : Prop :=
  ∀ s m e hm, u = .finite s m e hm → Normalized m e

theorem fromBits_unpack (x : Float) : FromBits x.toModel.unpack :=
  fun _ _ _ _ h => (normalized_of_unpack h).1

theorem value_positive (m : ℕ) (e : ℤ) :
    (Wide.signed (isMinus .positive) m : ℚ) * 2 ^ e = m * 2 ^ e := by
  simp [Wide.signed, isMinus]

theorem value_negative (m : ℕ) (e : ℤ) :
    (Wide.signed (isMinus .negative) m : ℚ) * 2 ^ e = -(m * 2 ^ e) := by
  simp [Wide.signed, isMinus]

/-- Comparing finite floats is comparing their signs first, and then their sizes. -/
theorem finite_le_iff (s s' : UnpackedFloat.Sign) (hm : 0 < m) (hn : 0 < n) (h : Normalized m e)
    (h' : Normalized n f) : (UnpackedFloat.finite s m e hm).le (.finite s' n f hn) = true ↔
      (Wide.signed (isMinus s) m : ℚ) * 2 ^ e ≤ Wide.signed (isMinus s') n * 2 ^ f := by
  have hm' : (0 : ℚ) < m * 2 ^ e := by positivity
  have hn' : (0 : ℚ) < n * 2 ^ f := by positivity
  cases s <;> cases s' <;> simp only [value_negative, value_positive]
  · -- Of two negative numbers the one with the larger size is smaller.
    have hswap : ((compare e f).then (compare m n)).swap =
        (compare f e).then (compare n m) := by
      rw [Ordering.swap_then, Std.OrientedOrd.eq_swap (a := f), Std.OrientedOrd.eq_swap (a := n)]
    have hcompare := h'.isLE_compare_iff h
    rw [← hswap] at hcompare
    exact hcompare.trans neg_le_neg_iff.symm
  · exact iff_of_true rfl ((neg_neg_of_pos hm').trans hn').le
  · exact iff_of_false Bool.false_ne_true (not_le.mpr ((neg_neg_of_pos hn').trans hm'))
  · exact h.isLE_compare_iff h'

/-- The order of unpacked floats is the order of their values. -/
theorem unpacked_le_iff {u v : UnpackedFloat} (hu : FromBits u) (hv : FromBits v) :
    u.le v = true ↔ (unpackedValue u).le (unpackedValue v) := by
  have hpos : ∀ (m : ℕ) (e : ℤ), 0 < m → (0 : ℚ) < m * 2 ^ e := fun m e hm => by positivity
  cases u with
  | notANumber => exact iff_of_false Bool.false_ne_true id
  | infinity s => cases v with
    | notANumber => cases s <;> exact iff_of_false Bool.false_ne_true id
    | infinity s' =>
        cases s <;> cases s'
        · exact iff_of_true rfl trivial
        · exact iff_of_true rfl trivial
        · exact iff_of_false Bool.false_ne_true id
        · exact iff_of_true rfl trivial
    | zero s' =>
        cases s
        · exact iff_of_true rfl trivial
        · exact iff_of_false Bool.false_ne_true id
    | finite s' n f hn =>
        cases s
        · exact iff_of_true rfl trivial
        · exact iff_of_false Bool.false_ne_true id
  | zero s => cases v with
    | notANumber => exact iff_of_false Bool.false_ne_true id
    | infinity s' =>
        cases s'
        · exact iff_of_false Bool.false_ne_true id
        · exact iff_of_true rfl trivial
    | zero s' => exact iff_of_true rfl (le_refl (0 : ℚ))
    | finite s' n f hn =>
        have hn' := hpos n f hn
        cases s'
        · refine iff_of_false Bool.false_ne_true ?_
          rw [unpackedValue, unpackedValue, value_negative]
          exact not_le.mpr (neg_neg_of_pos hn')
        · refine iff_of_true rfl ?_
          rw [unpackedValue, unpackedValue, value_positive]
          exact hn'.le
  | finite s m e hm =>
      have hm' := hpos m e hm
      cases v with
      | notANumber => cases s <;> exact iff_of_false Bool.false_ne_true id
      | infinity s' =>
          cases s <;> cases s'
          · exact iff_of_false Bool.false_ne_true id
          · exact iff_of_true rfl trivial
          · exact iff_of_false Bool.false_ne_true id
          · exact iff_of_true rfl trivial
      | zero s' =>
          cases s
          · refine iff_of_true rfl ?_
            rw [unpackedValue, unpackedValue, value_negative]
            exact neg_nonpos.mpr hm'.le
          · refine iff_of_false Bool.false_ne_true ?_
            rw [unpackedValue, unpackedValue, value_positive]
            exact not_le.mpr hm'
      | finite s' n f hn =>
          exact finite_le_iff s s' hm hn (hu _ _ _ _ rfl) (hv _ _ _ _ rfl)

/-- Comparing `Float`s is comparing their values. -/
theorem le_iff_value_le (x y : Float) : x ≤ y ↔ (floatValue x).le (floatValue y) := by
  rw [← unpackedValue_unpack x, ← unpackedValue_unpack y,
    ← unpacked_le_iff (fromBits_unpack x) (fromBits_unpack y)]
  exact decide_eq_true_iff

/-! ## The class of a float -/

theorem isNaN_iff_floatValue_eq : x.isNaN = true ↔ floatValue x = .nan := by
  rw [isNaN_eq, ← unpackedValue_unpack]
  cases x.toModel.unpack with
  | notANumber => exact iff_of_true rfl rfl
  | infinity s | zero s | finite s m e hm => exact iff_of_false Bool.false_ne_true (by rintro ⟨⟩)

theorem isInf_iff_floatValue_eq :
    x.isInf = true ↔ ∃ negative, floatValue x = .infinite negative := by
  rw [Float.isInf, Float.Model.isInf, ← unpackedValue_unpack]
  cases x.toModel.unpack <;> simp [UnpackedFloat.isInf, unpackedValue]

/-- A value without a sign is a number other than the negative zero. -/
theorem Binary64.Unsigned.number {c : Float} (h : Unsigned c) :
    c.isNaN = false ∧ c ≠ -0.0 := by
  rcases h with rfl | ⟨m, e, hread⟩
  · decide
  · constructor
    · rw [← Bool.not_eq_true, isNaN_iff_floatValue_eq, floatValue, hread]
      rintro ⟨⟩
    · rintro rfl
      have hzero : ofFloat (-0.0) = .finite true 0 (-1074) := by decide
      rw [hread] at hzero
      cases hzero

/-- Finite values are below `2 ^ 1024`. -/
theorem abs_lt_of_floatValue {v : ℚ} (h : floatValue x = .finite v) : |v| < 2 ^ (1024 : ℤ) := by
  rcases unpack_cases h with ⟨s, -, rfl⟩ | ⟨s, m, e, hm, hunpack, hnormal, rfl⟩
  · rw [abs_zero]
    positivity
  · have habs : |(Wide.signed (isMinus s) m : ℚ) * 2 ^ e| = m * 2 ^ e := by
      have hpos : (0 : ℚ) ≤ m * 2 ^ e := by positivity
      cases s <;> simp only [value_positive, value_negative, abs_neg, abs_of_nonneg hpos]
    rw [habs]
    exact hnormal.lt_iff.mpr (normalized_of_unpack hunpack).2

/-- A finite value other than zero belongs to one `Float` only. -/
theorem eq_of_floatValue_eq {v : ℚ} (hv : v ≠ 0) (hx : floatValue x = .finite v)
    (hy : floatValue y = .finite v) : x = y := by
  rcases unpack_cases hx with ⟨-, -, hzero⟩ | ⟨s, m, e, hm, hxu, hnormal, hxv⟩
  · exact absurd hzero hv
  rcases unpack_cases hy with ⟨-, -, hzero⟩ | ⟨s', n, f, hn, hyu, hnormal', hyv⟩
  · exact absurd hzero hv
  have hpos : (0 : ℚ) < m * 2 ^ e := by positivity
  have hpos' : (0 : ℚ) < n * 2 ^ f := by positivity
  have hsame : s = s' ∧ (m : ℚ) * 2 ^ e = n * 2 ^ f := by
    rw [hxv] at hyv
    cases s <;> cases s' <;> simp only [value_negative, value_positive] at hyv
    · exact ⟨rfl, by linarith⟩
    · linarith
    · linarith
    · exact ⟨rfl, hyv⟩
  obtain ⟨rfl, hmagnitude⟩ := hsame
  obtain ⟨rfl, rfl⟩ := hnormal.eq_of_mul_eq hnormal' hmagnitude
  exact eq_of_unpack_eq (hxu.trans hyu.symm)

/-! ## Floats of the same value -/

/-- Floats of one value are unpacked to the same, unless both are zeros. -/
theorem unpack_eq_or_zero (h : floatValue x = floatValue y) :
    x.toModel.unpack = y.toModel.unpack ∨
      ∃ s s', x.toModel.unpack = .zero s ∧ y.toModel.unpack = .zero s' := by
  by_cases hfinite : ∃ v, v ≠ 0 ∧ floatValue x = .finite v
  · obtain ⟨v, hv, hx⟩ := hfinite
    rw [eq_of_floatValue_eq hv hx (h ▸ hx)]
    exact Or.inl rfl
  · have hsize : ∀ (s : UnpackedFloat.Sign) (m : ℕ) (e : ℤ), 0 < m →
        (Wide.signed (isMinus s) m : ℚ) * 2 ^ e ≠ 0 := by
      intro s m e hm
      have hpos : (0 : ℚ) < m * 2 ^ e := by positivity
      cases s
      · rw [value_negative]
        exact (neg_neg_of_pos hpos).ne
      · rw [value_positive]
        exact hpos.ne'
    rw [← unpackedValue_unpack x] at h hfinite
    rw [← unpackedValue_unpack y] at h
    cases hx : x.toModel.unpack with
    | finite s m e hm =>
        rw [hx] at hfinite
        exact absurd ⟨_, hsize s m e hm, rfl⟩ hfinite
    | notANumber =>
        cases hy : y.toModel.unpack with
        | notANumber => exact Or.inl rfl
        | infinity s' | zero s' | finite s' n f hn =>
            rw [hx, hy] at h
            cases h
    | infinity s =>
        cases hy : y.toModel.unpack with
        | infinity s' =>
            rw [hx, hy] at h
            have hsign : isMinus s = isMinus s' := Value.infinite.inj h
            cases s <;> cases s' <;> first | exact Or.inl rfl | cases hsign
        | notANumber | zero s' | finite s' n f hn =>
            rw [hx, hy] at h
            cases h
    | zero s =>
        cases hy : y.toModel.unpack with
        | zero s' => exact Or.inr ⟨s, s', rfl, rfl⟩
        | finite s' n f hn =>
            rw [hx, hy] at h
            exact absurd (Value.finite.inj h).symm (hsize s' n f hn)
        | notANumber | infinity s' =>
            rw [hx, hy] at h
            cases h

/-- Numbers are found to be equal exactly if their values are.  The zeros have one value. -/
theorem beq_iff_floatValue_eq (hx : x.isNaN = false) :
    (x == y) = true ↔ floatValue x = floatValue y := by
  rw [beq_eq_compare, beq_iff_eq]
  constructor
  · intro h
    rw [← unpackedValue_unpack x, ← unpackedValue_unpack y]
    rcases eq_or_zero_of_compare h with heq | ⟨s, s', hs, hs'⟩
    · rw [heq]
    · rw [hs, hs']
      rfl
  · intro h
    rcases unpack_eq_or_zero h with heq | ⟨s, s', hs, hs'⟩
    · rw [← heq]
      exact compare_self hx
    · rw [hs, hs']
      rfl

/-- Values that are not larger than one another are the same. -/
theorem Value.eq_of_le_of_ge {v w : Value} (h : v.le w) (h' : w.le v) : v = w := by
  rcases v with _ | (_ | _) | v <;> rcases w with _ | (_ | _) | w <;>
    first
      | rfl
      | exact h.elim
      | exact h'.elim
      | exact congrArg Value.finite (le_antisymm h h')

/-- A `Float` is not below another one that is at most as large. -/
theorem not_float_lt_of_le (h : y ≤ x) : ¬ x < y := by
  intro hlt
  have hcompare : x.toModel.unpack.compare y.toModel.unpack = some .lt :=
    beq_iff_eq.mp (of_decide_eq_true hlt)
  have hle : x.toModel.unpack.le y.toModel.unpack = true := by
    rw [UnpackedFloat.le, hcompare]
    rfl
  have hvalue := Value.eq_of_le_of_ge ((le_iff_value_le x y).mp (decide_eq_true hle))
    ((le_iff_value_le y x).mp h)
  rcases unpack_eq_or_zero hvalue with heq | ⟨s, s', hs, hs'⟩
  · have hnumber : x.toModel.unpack.isNaN = false := by
      cases hx : x.toModel.unpack with
      | notANumber =>
          rw [hx] at hcompare
          cases hcompare
      | infinity | zero | finite => rfl
    rw [← heq, compare_self hnumber] at hcompare
    cases hcompare
  · rw [hs, hs'] at hcompare
    cases hcompare

end Fluxion.Number
