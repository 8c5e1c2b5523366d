import Fluxion.Number.Binary64
import Mathlib

/-!
# The bits of a `Float`

A `Float` is three fields of bits: sign, exponent and fraction.  That packing undoes
unpacking, and which floats are found to be equal, is in the lemmas of Batteries on
`UnpackedFloat`, which come with the whole library only.  Here they are read field by field:
what is not a number has one form, and negation turns the sign over and leaves the other two
fields alone.

Hence a finite `Float` is known from its sign and its code, the position of its magnitude
in the list of non-negative values.  Numbers that are found to be equal are the same, but
for the two zeros.
-/

open Float.Model

namespace Fluxion.Number

abbrev fields (sign : UnpackedFloat.Sign) (exponent : BitVec 11) (fraction : BitVec 52) :
    BitVec 64 :=
  UnpackedFloat.packComponents Format.binary64 sign exponent fraction

theorem toNat_leading (m : BitVec 52) :
    (1#1 ++ m).toNat = Binary64.leadingBit + m.toNat := by
  rw [BitVec.toNat_append, ← Nat.shiftLeft_add_eq_or_of_lt m.isLt]
  rfl

theorem leading_pos (m : BitVec 52) : 0 < (1#1 ++ m).toNat := by
  rw [toNat_leading, Binary64.leadingBit]
  omega

theorem toNat_pos {m : BitVec 52} (h : m ≠ 0#52) : 0 < m.toNat := by
  simpa [BitVec.toNat_pos, BitVec.pos_iff_ne_zero] using h

/-- How the fields tell infinities, subnormal and normal numbers apart. -/
theorem unpack_fields (s : UnpackedFloat.Sign) (e : BitVec 11) (m : BitVec 52) :
    UnpackedFloat.unpack Format.binary64 (fields s e m) =
      if e = -1#11 then if m = 0#52 then .infinity s else .notANumber
      else if e = 0#11 then
        if h : m = 0#52 then .zero s else .finite s m.toNat (-1074) (toNat_pos h)
      else .finite s (1#1 ++ m).toNat ((e.toNat : Int) - 1075) (leading_pos m) := by
  simp only [UnpackedFloat.unpack, UnpackedFloat.unpackSign_packComponents,
    UnpackedFloat.Sign.ofBitVec_toBitVec, UnpackedFloat.unpackMantissa_packComponents,
    UnpackedFloat.unpackExponent_packComponents]
  split
  · rfl
  · split
    · next h => subst h; rfl
    · rfl

theorem neg_unpack (s : UnpackedFloat.Sign) (e : BitVec 11) (m : BitVec 52) :
    (UnpackedFloat.unpack Format.binary64 (fields s e m)).neg =
      UnpackedFloat.unpack Format.binary64 (fields (-s) e m) := by
  rw [unpack_fields, unpack_fields]
  split_ifs <;> rfl

theorem pack_finite (s : UnpackedFloat.Sign) (m : Nat) (e : Int) (hm : 0 < m) :
    UnpackedFloat.pack Format.binary64 (.finite s m e hm) =
      if 2047 ≤ (e + 1075).toNat then fields s (-1#11) 0#52
      else if m.log2 = 52 then fields s (BitVec.ofNat 11 (e + 1075).toNat) (BitVec.ofNat 52 m)
      else fields s 0#11 (BitVec.ofNat 52 m) := by
  have hbias : e + 1023 + 52 = e + 1075 := Int.add_assoc e 1023 52
  have hpack : UnpackedFloat.pack Format.binary64 (.finite s m e hm) =
      if 2048 ≤ (e + 1023 + 52).toNat + 1 then fields s (-1#11) 0#52
      else if m.log2 + 1 = 53 then
        fields s (BitVec.ofNat 11 (e + 1023 + 52).toNat) (BitVec.ofNat 52 m)
      else fields s 0#11 (BitVec.ofNat 52 m) := rfl
  rw [hpack, hbias]
  simp only [Nat.succ_le_succ_iff, Nat.reduceEqDiff]

/-- Packing restores the fields of everything but what is not a number, which has one form only.
-/
theorem pack_unpack (s : UnpackedFloat.Sign) (e : BitVec 11) (m : BitVec 52)
    (h : e ≠ -1#11 ∨ m = 0#52) :
    UnpackedFloat.pack Format.binary64 (UnpackedFloat.unpack Format.binary64 (fields s e m)) =
      fields s e m := by
  have hnumber : @UnpackedFloat.isNaNBits Format.binary64 (fields s e m) = false := by
    rw [UnpackedFloat.isNaNBits, UnpackedFloat.unpackExponent_packComponents,
      UnpackedFloat.unpackMantissa_packComponents, decide_eq_false_iff_not]
    tauto
  rw [UnpackedFloat.pack_unpack, hnumber, if_neg Bool.false_ne_true]

theorem unpack_pack_unpack (s : UnpackedFloat.Sign) (e : BitVec 11) (m : BitVec 52) :
    UnpackedFloat.unpack Format.binary64
        (UnpackedFloat.pack Format.binary64
          (UnpackedFloat.unpack Format.binary64 (fields s e m))) =
      UnpackedFloat.unpack Format.binary64 (fields s e m) := by
  by_cases hnan : e = -1#11 ∧ m ≠ 0#52
  · have hunpack : UnpackedFloat.unpack Format.binary64 (fields s e m) = .notANumber := by
      rw [unpack_fields, if_pos hnan.1, if_neg hnan.2]
    rw [hunpack]
    rfl
  · rw [pack_unpack s e m (by tauto)]

theorem neg_ofBits_fields (s : UnpackedFloat.Sign) (e : BitVec 11) (m : BitVec 52) :
    -Float.ofBits (UInt64.ofBitVec (fields s e m)) =
      Float.ofBits (UInt64.ofBitVec (fields (-s) e m)) := by
  have hneg : -(Float.Model.ofBits (UInt64.ofBitVec (fields s e m))) =
      Float.Model.ofBits (UInt64.ofBitVec (fields (-s) e m)) := by
    calc
      -(Float.Model.ofBits (UInt64.ofBitVec (fields s e m)))
        = Float.Model.pack (UnpackedFloat.unpack Format.binary64
            (UnpackedFloat.pack Format.binary64
              (UnpackedFloat.unpack Format.binary64 (fields s e m)))).neg := rfl
      _ = Float.Model.pack (UnpackedFloat.unpack Format.binary64 (fields (-s) e m)) := by
          rw [unpack_pack_unpack, neg_unpack]
      _ = Float.Model.ofBits (UInt64.ofBitVec (fields (-s) e m)) := rfl
  exact congrArg Float.ofModel hneg

namespace Binary64

theorem toNat_fields (s : UnpackedFloat.Sign) (e : BitVec 11) (m : BitVec 52) :
    (fields s e m).toNat = s.toBitVec.toNat * signBit + e.toNat * leadingBit + m.toNat := by
  have happend : ∀ {w v : Nat} (x : BitVec w) (y : BitVec v),
      (x ++ y).toNat = x.toNat * 2 ^ v + y.toNat := by
    intro w v x y
    rw [BitVec.toNat_append, ← Nat.shiftLeft_add_eq_or_of_lt y.isLt, Nat.shiftLeft_eq]
  have hfields : (fields s e m).toNat = (s.toBitVec ++ e ++ m).toNat := rfl
  rw [hfields, happend, happend, signBit, leadingBit]
  omega

/-- The fields of a magnitude with a sign. -/
theorem bits_eq_fields (negative : Bool) {magnitude : Nat} (h : magnitude < signBit) :
    UInt64.ofNat (magnitude + if negative then signBit else 0) =
      UInt64.ofBitVec (fields (if negative then .negative else .positive)
        (BitVec.ofNat 11 (magnitude / leadingBit)) (BitVec.ofNat 52 magnitude)) := by
  apply UInt64.toNat_inj.mp
  rw [UInt64.toNat_ofNat', UInt64.toNat_ofBitVec, toNat_fields, BitVec.toNat_ofNat,
    BitVec.toNat_ofNat]
  simp only [signBit, leadingBit] at h ⊢
  cases negative <;> simp [UnpackedFloat.Sign.toBitVec] <;> omega

theorem neg_ofCode (code : Nat) : -ofCode true code = ofCode false code := by
  have hsmall : min code infinityCode < signBit :=
    Nat.lt_of_le_of_lt (Nat.min_le_right _ _) (by decide)
  rw [ofCode, ofCode, bits_eq_fields true hsmall, bits_eq_fields false hsmall]
  exact neg_ofBits_fields _ _ _

/-- Rounding does not depend on the sign. -/
theorem neg_nearest (n d : Nat) : -nearest true n d = nearest false n d := by
  rw [nearest, nearest]
  split_ifs with hzero
  · exact neg_ofCode 0
  · exact neg_ofCode _

def maxExponent : Int := 971

/-- The significand and the exponent are those of a finite value: the significand is as
long as it may be unless the exponent is the smallest. -/
structure Canonical (m : Nat) (e : Int) : Prop where
  significand : m < 2 * leadingBit
  minExponent_le : minExponent ≤ e
  le_maxExponent : e ≤ maxExponent
  normal : leadingBit ≤ m ∨ e = minExponent

/-- The position of a magnitude in the list of non-negative values. -/
def code (m : Nat) (e : Int) : Nat :=
  (e - minExponent).toNat * leadingBit + m

theorem ofNat_ne_top {field : Nat} (h : field < topField) : BitVec.ofNat 11 field ≠ -1#11 := by
  intro htop
  have htop' := congrArg BitVec.toNat htop
  have hall : (-1#11).toNat = 2047 := rfl
  rw [topField] at h
  rw [BitVec.toNat_ofNat, hall] at htop'
  omega

theorem bits_eq_parts {bits : Nat} (h : bits < UInt64.size) :
    bits = bits / leadingBit % (topField + 1) * leadingBit + bits % leadingBit +
      if decide (signBit ≤ bits) then signBit else 0 := by
  by_cases hsign : signBit ≤ bits
  · rw [decide_eq_true hsign, if_pos rfl]
    simp only [leadingBit, topField, signBit, UInt64.size] at h hsign ⊢
    omega
  · rw [decide_eq_false hsign, if_neg Bool.false_ne_true]
    simp only [leadingBit, topField, signBit] at hsign ⊢
    omega

/-- What is read off the bits of a finite value. -/
theorem ofFloat_finite_parts {c : Float} {negative : Bool} {m : Nat} {e : Int}
    (h : ofFloat c = .finite negative m e) :
    Canonical m e ∧ code m e < infinityCode ∧
      c.toBits.toNat = code m e + if negative then signBit else 0 := by
  have hlt : c.toBits.toNat < UInt64.size := c.toBits.toNat_lt_size
  simp only [ofFloat] at h
  generalize c.toBits.toNat = bits at h hlt
  have hfield : bits / leadingBit % (topField + 1) < topField + 1 := Nat.mod_lt _ (by decide)
  have hfraction : bits % leadingBit < leadingBit := Nat.mod_lt _ (by decide)
  have hbits := bits_eq_parts hlt
  generalize bits / leadingBit % (topField + 1) = field at h hfield hbits
  generalize bits % leadingBit = fraction at h hfraction hbits
  split_ifs at h with htop hzero hsmall
  · obtain ⟨hnegative, rfl, rfl⟩ : decide (signBit ≤ bits) = negative ∧ fraction = m ∧
        minExponent = e := by simpa using h
    have hcode : code fraction minExponent = fraction := by simp [code]
    rw [hnegative, hsmall, Nat.zero_mul, Nat.zero_add] at hbits
    refine ⟨⟨by omega, Int.le_refl _, by decide, Or.inr rfl⟩, ?_, ?_⟩
    · rw [hcode]
      exact Nat.lt_trans hfraction (by decide)
    · rw [hcode]
      exact hbits
  · obtain ⟨hnegative, rfl, rfl⟩ : decide (signBit ≤ bits) = negative ∧
        leadingBit + fraction = m ∧ (field : Int) - 1075 = e := by simpa using h
    have hcode : code (leadingBit + fraction) ((field : Int) - 1075) =
        field * leadingBit + fraction := by
      have hstep : ((field : Int) - 1075 - minExponent).toNat = field - 1 := by
        rw [minExponent]
        omega
      obtain ⟨field, rfl⟩ := Nat.exists_eq_add_one_of_ne_zero hsmall
      rw [code, hstep, Nat.add_mul, Nat.add_sub_cancel]
      omega
    rw [hnegative] at hbits
    refine ⟨⟨by omega, ?_, ?_, Or.inl (Nat.le_add_right _ _)⟩, ?_, ?_⟩
    · rw [minExponent]
      omega
    · rw [topField] at hfield htop
      rw [maxExponent]
      omega
    · have hmul : (field + 1) * leadingBit ≤ topField * leadingBit :=
        Nat.mul_le_mul_right _ (by omega)
      rw [Nat.add_mul] at hmul
      rw [hcode, infinityCode]
      omega
    · rw [hcode]
      exact hbits

/-- A finite value is found again from its sign and its code. -/
theorem ofFloat_finite {c : Float} {negative : Bool} {m : Nat} {e : Int}
    (h : ofFloat c = .finite negative m e) :
    Canonical m e ∧ ofCode negative (code m e) = c := by
  obtain ⟨hcanonical, hcode, hbits⟩ := ofFloat_finite_parts h
  refine ⟨hcanonical, ?_⟩
  rw [ofCode, Nat.min_eq_left (Nat.le_of_lt hcode), ← hbits, UInt64.ofNat_toNat,
    Float.ofBits_toBits]

/-! ## Values without a sign -/

theorem toBits_ofBits_fields {s : UnpackedFloat.Sign} {e : BitVec 11} {m : BitVec 52}
    (h : e ≠ -1#11 ∨ m = 0#52) :
    (Float.ofBits (UInt64.ofBitVec (fields s e m))).toBits = UInt64.ofBitVec (fields s e m) :=
  congrArg UInt64.ofBitVec (pack_unpack s e m h)

/-- Below infinity the code of a value is its bits. -/
theorem toBits_ofCode {code : Nat} (h : code < infinityCode) :
    (ofCode false code).toBits.toNat = code := by
  have hsmall : code < signBit := Nat.lt_trans h (by decide)
  have hfield : code / leadingBit < topField := by
    rw [infinityCode, Nat.mul_comm] at h
    exact Nat.div_lt_of_lt_mul h
  rw [ofCode, Nat.min_eq_left (Nat.le_of_lt h), bits_eq_fields false hsmall,
    toBits_ofBits_fields (Or.inl (ofNat_ne_top hfield)), ← bits_eq_fields false hsmall]
  exact Nat.mod_eq_of_lt (Nat.lt_trans hsmall (by decide))

/-- A value without a sign is finite and not negative, or it is infinity. -/
def Unsigned (c : Float) : Prop :=
  c = infinity ∨ ∃ m e, ofFloat c = .finite false m e

theorem unsigned_ofCode (code : Nat) : Unsigned (ofCode false code) := by
  by_cases h : code < infinityCode
  · right
    have hpositive : decide (signBit ≤ code) = false :=
      decide_eq_false (Nat.not_le.mpr (Nat.lt_trans h (by decide)))
    have hfield : code / leadingBit % (topField + 1) ≠ topField := by
      simp only [infinityCode, topField, leadingBit] at h ⊢
      omega
    rw [ofFloat, toBits_ofCode h, hpositive]
    simp only [if_neg hfield]
    split_ifs
    · exact ⟨_, _, rfl⟩
    · exact ⟨_, _, rfl⟩
  · left
    rw [ofCode, infinity, ofCode, Nat.min_eq_right (Nat.not_lt.mp h), Nat.min_self]

theorem unsigned_nearest (n d : Nat) : Unsigned (nearest false n d) := by
  rw [nearest]
  split_ifs
  · exact unsigned_ofCode 0
  · exact unsigned_ofCode _

theorem ofFloat_infinity : ofFloat infinity = .infinite false := by
  decide

end Binary64

/-! ## Equality -/

/-- Any 64 bits are three fields. -/
theorem exists_fields (bits : UInt64) : ∃ s e m, bits = UInt64.ofBitVec (fields s e m) :=
  ⟨_, _, _, congrArg UInt64.ofBitVec
    (@UnpackedFloat.packComponents_unpackSign_unpackExponent_unpackMantissa Format.binary64
      bits.toBitVec).symm⟩

theorem isNaN_eq (c : Float) : c.isNaN = c.toModel.unpack.isNaN := rfl

theorem eq_of_unpack_eq {c d : Float} (h : c.toModel.unpack = d.toModel.unpack) : c = d :=
  Float.toBits_inj.mp (UInt64.toBitVec_inj.mp
    ((UnpackedFloat.unpack_inj_of_valid c.toModel.valid d.toModel.valid).mp h))

theorem compare_self {a : UnpackedFloat} (h : a.isNaN = false) : a.compare a = some .eq := by
  have hnumber : a ≠ .notANumber := by
    rintro rfl
    cases h
  exact beq_iff_eq.mp
    ((UnpackedFloat.beq_iff_ne_notANumber_and_eq a a).mpr ⟨hnumber, hnumber, .inl rfl⟩)

/-- Numbers that compare as equal are equal, or both are zeros. -/
theorem eq_or_zero_of_compare {a b : UnpackedFloat} (h : a.compare b = some .eq) :
    a = b ∨ ∃ s s', a = .zero s ∧ b = .zero s' := by
  obtain ⟨-, -, heq | ⟨ha, hb⟩ | ⟨ha, hb⟩⟩ :=
    (UnpackedFloat.beq_iff_ne_notANumber_and_eq a b).mp (beq_iff_eq.mpr h)
  · exact .inl heq
  · exact .inr ⟨_, _, ha, hb⟩
  · exact .inr ⟨_, _, ha, hb⟩

theorem beq_eq_compare (c d : Float) :
    (c == d) = (c.toModel.unpack.compare d.toModel.unpack == some .eq) := rfl

theorem beq_self_of_number {c : Float} (hc : c.isNaN = false) : (c == c) = true := by
  rw [Float.isNaN_eq_decide_eq_nan, decide_eq_false_iff_not] at hc
  exact Float.beq_self_iff.mpr hc

/-- Floats other than the negative zero are equal if they are found to be. -/
theorem float_eq_of_beq {c d : Float} (hc : c ≠ -0.0) (hd : d ≠ -0.0) (h : (c == d) = true) :
    c = d := by
  obtain ⟨-, -, heq | ⟨-, hzero⟩ | ⟨hzero, -⟩⟩ := Float.beq_iff_ne_nan_and_eq.mp h
  · exact heq
  · exact absurd hzero hd
  · exact absurd hzero hc

/-- A value without a sign is not found to be -1. -/
theorem Binary64.Unsigned.beq_minusOne {c : Float} (hc : Unsigned c) : (c == -1.0) = false := by
  have hminusOne : ofFloat (-1.0) = .finite true 4503599627370496 (-52) := by decide
  by_contra hequal
  rw [Bool.not_eq_false] at hequal
  obtain ⟨-, -, rfl | ⟨-, hzero⟩ | ⟨-, hzero⟩⟩ := Float.beq_iff_ne_nan_and_eq.mp hequal
  · rcases hc with hinfinity | ⟨m, e, hsign⟩
    · rw [hinfinity, ofFloat_infinity] at hminusOne
      cases hminusOne
    · rw [hminusOne] at hsign
      cases hsign
  · exact absurd hzero (by decide)
  · exact absurd hzero (by decide)

/-- A zero of either sign is not one. -/
theorem beq_one_of_beq_zero {c : Float} (hc : (c == 0.0) = true) : (c == 1.0) = false := by
  obtain ⟨-, -, rfl | ⟨rfl, -⟩ | ⟨rfl, -⟩⟩ := Float.beq_iff_ne_nan_and_eq.mp hc
  · rfl
  · rfl
  · rfl

end Fluxion.Number
