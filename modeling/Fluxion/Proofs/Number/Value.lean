import Fluxion.Number.Quantity
import Fluxion.Proofs.Number.Precision

/-!
# The values of numbers

A `Float`, a binary number and a quantity stand for a rational number, for an infinity or
for no number.  `Value` is what they have in common.  What is computed from integers is the
nearest value with so many bits: `value_nearest`.
-/

namespace Fluxion.Number

inductive Value where
  | nan
  | infinite (negative : Bool)
  | finite (v : ℚ)

def Value.round (bits : ℕ) : Value → Value
  | .finite v => .finite (roundTo bits v)
  | x => x

def Value.neg : Value → Value
  | .nan => .nan
  | .infinite negative => .infinite !negative
  | .finite v => .finite (-v)

def Value.HasBits (bits : ℕ) (x : Value) : Prop :=
  ∀ v, x = .finite v → Number.HasBits bits v

def Binary64.value : Binary64 → Value
  | .nan => .nan
  | .infinite negative => .infinite negative
  | .finite negative m e => .finite (Wide.signed negative m * 2 ^ e)

def floatValue (x : Float) : Value :=
  (Binary64.ofFloat x).value

def Wide.value : Wide → Value
  | .nan => .nan
  | .infinite negative => .infinite negative
  | .finite m e => .finite (m * 2 ^ e)

def Quantity.value : Quantity → Value
  | .fast x _ => floatValue x
  | .arbitrary w _ _ => w.value

def ArithmeticOp.exact : ArithmeticOp → ℚ → ℚ → ℚ
  | .add, x, y => x + y
  | .sub, x, y => x - y
  | .mul, x, y => x * y
  | .div, x, y => x / y

namespace Value

variable {bits bits' : ℕ} {x : Value}

/-- What has so many bits is not changed by rounding to them. -/
theorem HasBits.round_eq (h : x.HasBits bits) : x.round bits = x := by
  cases x with
  | finite v => exact congrArg Value.finite (h v rfl).roundTo_eq
  | nan | infinite negative => rfl

theorem HasBits.mono (h : x.HasBits bits) (hle : bits ≤ bits') : x.HasBits bits' :=
  fun v hv => (h v hv).mono hle

theorem HasBits.neg (h : x.HasBits bits) : x.neg.HasBits bits := by
  intro v hv
  cases x with
  | finite u =>
      obtain rfl := Value.finite.inj hv
      exact (h u rfl).neg
  | nan | infinite negative => cases hv

theorem hasBits_round (hbits : 0 < bits) (x : Value) : (x.round bits).HasBits bits := by
  intro v hv
  cases x with
  | finite u =>
      obtain rfl := Value.finite.inj hv
      exact hasBits_roundTo hbits u
  | nan | infinite negative => cases hv

end Value

/-! ## The integers that are computed -/

/-- The computed quotient is the nearest integer. -/
theorem cast_scaledNearest {n d : ℕ} (hd : 0 < d) (k : ℤ) :
    (scaledNearest n d k : ℤ) = roundEven ((n : ℚ) / d * 2 ^ k) := by
  have hnonneg : (0 : ℤ) ≤ roundEven ((n : ℚ) / d * 2 ^ k) := by
    rw [← roundEven_intCast 0]
    exact roundEven_mono (by push_cast; positivity)
  obtain ⟨q, hq⟩ := Int.eq_ofNat_of_zero_le hnonneg
  have hnear : IsNearest q ((n : ℚ) / d * 2 ^ k) := by
    have hdistance := abs_sub_roundEven_le ((n : ℚ) / d * 2 ^ k)
    have heven := @roundEven_even ((n : ℚ) / d * 2 ^ k)
    rw [hq] at hdistance heven
    push_cast at hdistance heven
    rcases hdistance.lt_or_eq with hlt | heq
    · exact Or.inl hlt
    · exact Or.inr ⟨heq, by exact_mod_cast heven heq⟩
  rw [scaledNearest_eq hd hnear, hq]

theorem signed_neg (negative : Bool) (n : ℕ) :
    Wide.signed (!negative) n = -Wide.signed negative n := by
  cases negative <;> simp [Wide.signed]

@[simp]
theorem signed_zero (negative : Bool) : Wide.signed negative 0 = 0 := by
  cases negative <;> rfl

@[simp]
theorem signed_natAbs (n : ℤ) : Wide.signed (decide (n < 0)) n.natAbs = n := by
  by_cases hn : n < 0
  · rw [decide_eq_true hn, Wide.signed, if_pos rfl]
    omega
  · rw [decide_eq_false hn, Wide.signed, if_neg Bool.false_ne_true]
    omega

/-- The computed quotient with a sign is the nearest integer. -/
theorem signed_divNearest (negative : Bool) (n : ℕ) {d : ℕ} (hd : 0 < d) :
    Wide.signed negative (divNearest n d) = roundEven ((Wide.signed negative n : ℚ) / d) := by
  have hscaled := cast_scaledNearest (n := n) hd 0
  have hunit : scaledNearest n d 0 = divNearest n d := by simp [scaledNearest, powerOfTwo]
  rw [hunit, zpow_zero, mul_one] at hscaled
  cases negative <;> simp [Wide.signed, hscaled, neg_div, roundEven_neg]

theorem signed_div_signed (a b : Bool) (m n : ℕ) :
    (Wide.signed (a != b) m : ℚ) / n = (Wide.signed a m : ℚ) / Wide.signed b n := by
  cases a <;> cases b <;> simp [Wide.signed, neg_div, div_neg]

namespace Wide

variable {bits : ℕ} {x y : Wide} {a b : ℚ} {n d : ℕ} {e : ℤ}

theorem eq_of_value_eq_finite (h : x.value = .finite a) :
    ∃ m e : ℤ, x = .finite m e ∧ a = m * 2 ^ e := by
  cases x with
  | nan => cases h
  | infinite negative => cases h
  | finite m e => exact ⟨m, e, rfl, (Value.finite.inj h).symm⟩

theorem oddPart_mul (n : ℕ) : (oddPart n).1 * 2 ^ (oddPart n).2 = n := by
  induction n using Nat.strongRecOn with
  | ind n ih =>
      rw [oddPart]
      split_ifs with hzero heven
      · rw [hzero]
        rfl
      · have hhalf := ih (n / 2) (by omega)
        dsimp only
        rw [pow_succ, ← mul_assoc, hhalf]
        omega
      · rw [pow_zero, mul_one]

/-- Bringing a number into its one form keeps its value. -/
theorem value_ofScaled (negative : Bool) (n : ℕ) (e : ℤ) :
    (ofScaled negative n e).value = .finite (signed negative n * 2 ^ e) := by
  rw [ofScaled]
  split_ifs with hzero
  · rw [hzero, signed_zero]
    simp [value]
  · have hodd := oddPart_mul n
    have hsigned : signed negative n = signed negative (oddPart n).1 * 2 ^ (oddPart n).2 := by
      conv_lhs => rw [← hodd]
      cases negative <;> simp [signed]
    dsimp only
    rw [value, hsigned, zpow_add₀ (by norm_num), zpow_natCast]
    push_cast
    congr 1
    ring

/-- The last place of a quotient times a power of two. -/
theorem place_quotient (hn : 0 < n) (hd : 0 < d) (bits : ℕ) (e : ℤ) :
    place bits ((n : ℚ) / d * 2 ^ e) = quotientLog2 n d + 1 - bits + e := by
  obtain ⟨hlow, hhigh⟩ := quotientLog2_spec hn hd
  have hpos : (0 : ℚ) < 2 ^ e := by positivity
  have hvalue : |(n : ℚ) / d * 2 ^ e| = (n : ℚ) / d * 2 ^ e := abs_of_nonneg (by positivity)
  apply place_eq
  · have hexponent : quotientLog2 n d + 1 - bits + e + bits - 1 = quotientLog2 n d + e := by ring
    rw [hvalue, hexponent, zpow_add₀ (by norm_num)]
    exact mul_le_mul_of_nonneg_right hlow hpos.le
  · have hexponent : quotientLog2 n d + 1 - bits + e + bits = quotientLog2 n d + 1 + e := by ring
    rw [hvalue, hexponent, zpow_add₀ (by norm_num)]
    exact mul_lt_mul_of_pos_right hhigh hpos

/-- The quotient that is computed from integers is the exact one, rounded once. -/
theorem value_nearest (bits : ℕ) (negative : Bool) (n : ℕ) (hd : 0 < d) (e : ℤ) :
    (nearest bits negative n d e).value =
      .finite (roundTo bits ((signed negative n : ℚ) / d * 2 ^ e)) := by
  rw [nearest]
  split_ifs with hzero
  · rw [hzero, signed_zero]
    simp [value]
  · have hn : 0 < n := Nat.pos_of_ne_zero hzero
    have hscaled : ((n : ℚ) / d * 2 ^ e) / 2 ^ (quotientLog2 n d + 1 - bits + e) =
        (n : ℚ) / d * 2 ^ (-(quotientLog2 n d + 1 - bits)) := by
      rw [mul_div_assoc, ← zpow_sub₀ (by norm_num)]
      congr 2
      ring
    have hpositive : roundTo bits ((n : ℚ) / d * 2 ^ e) =
        scaledNearest n d (-(quotientLog2 n d + 1 - bits)) *
          2 ^ (quotientLog2 n d + 1 - bits + e) := by
      rw [roundTo, place_quotient hn hd, roundAt, hscaled, ← cast_scaledNearest hd]
      push_cast
      rfl
    dsimp only
    rw [value_ofScaled]
    congr 1
    cases negative with
    | false => exact hpositive.symm
    | true =>
        have hneg : (signed true n : ℚ) / d * 2 ^ e = -((n : ℚ) / d * 2 ^ e) := by
          simp [signed, neg_div]
        rw [hneg, roundTo_neg, hpositive]
        simp [signed]

theorem value_ofInt (bits : ℕ) (n e : ℤ) :
    (ofInt bits n e).value = .finite (roundTo bits (n * 2 ^ e)) := by
  rw [ofInt, value_nearest _ _ _ one_pos, signed_natAbs]
  simp

theorem value_ofInt_of_hasBits {n : ℤ} (h : HasBits bits (n : ℚ)) :
    (ofInt bits n 0).value = .finite n := by
  rw [value_ofInt, zpow_zero, mul_one, h.roundTo_eq]

theorem value_neg (x : Wide) : x.neg.value = x.value.neg := by
  cases x with
  | nan | infinite negative => rfl
  | finite m e => simp [neg, value, Value.neg]

theorem cast_aligned {m e lower : ℤ} (h : lower ≤ e) :
    (aligned m e lower : ℚ) * 2 ^ lower = m * 2 ^ e := by
  have hexponent : ((e - lower).toNat : ℤ) + lower = e := by omega
  have hpower : ((Nat.pow 2 (e - lower).toNat : ℕ) : ℚ) = 2 ^ ((e - lower).toNat : ℤ) := by
    rw [zpow_natCast]
    exact Nat.cast_pow 2 _
  rw [aligned]
  push_cast [hpower]
  rw [mul_assoc, ← zpow_add₀ (by norm_num), hexponent]

end Wide

/-- A `Float` has 53 bits. -/
theorem hasBits_floatValue (x : Float) : (floatValue x).HasBits floatBits := by
  intro v hv
  rw [floatValue] at hv
  cases hread : Binary64.ofFloat x with
  | nan | infinite negative =>
      rw [hread] at hv
      cases hv
  | finite negative m e =>
      rw [hread] at hv
      have hm : m < 2 ^ 53 := (Binary64.ofFloat_finite hread).1.significand
      refine ⟨Wide.signed negative m, e, ?_, (Value.finite.inj hv).symm⟩
      have habs : |Wide.signed negative m| = m := by cases negative <;> simp [Wide.signed]
      rw [habs, floatBits]
      exact_mod_cast hm

end Fluxion.Number
