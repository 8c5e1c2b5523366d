import Fluxion.Proofs.Number.Value
import Fluxion.Proofs.Outcome

/-!
# Arithmetic that rounds correctly

What the program relies on in the arithmetic of the arbitrary tier is `RoundsCorrectly`: an
answer is the exact result, rounded once to the nearest number with so many bits, ties to even.
A binary number is known from its value only if it is `Reduced`: its significand is odd, or it
is zero.  All answers are, so rounding leaves no choice (`Rounds.unique`), and a law of exact
results is a law of the answers.

The standard arithmetic rounds correctly.
-/

namespace Fluxion.Number

/-! ## Exact results -/

namespace Value

def add : Value → Value → Value
  | .nan, _ => .nan
  | _, .nan => .nan
  | .infinite a, .infinite b => if a = b then .infinite a else .nan
  | .infinite a, .finite _ => .infinite a
  | .finite _, .infinite b => .infinite b
  | .finite u, .finite v => .finite (u + v)

def mul : Value → Value → Value
  | .nan, _ => .nan
  | _, .nan => .nan
  | .infinite a, .infinite b => .infinite (a != b)
  | .infinite a, .finite v => if v = 0 then .nan else .infinite (a != decide (v < 0))
  | .finite u, .infinite b => if u = 0 then .nan else .infinite (decide (u < 0) != b)
  | .finite u, .finite v => .finite (u * v)

/-- The quotient of two values.  A number over zero is an infinity with the sign of the number,
and zero over zero is not a number. -/
def div : Value → Value → Value
  | .nan, _ => .nan
  | _, .nan => .nan
  | .infinite _, .infinite _ => .nan
  | .infinite a, .finite v => .infinite (a != decide (v < 0))
  | .finite _, .infinite _ => .finite 0
  | .finite u, .finite v =>
      if v = 0 then
        if u = 0 then .nan else .infinite (decide (u < 0))
      else .finite (u / v)

protected theorem add_comm (x y : Value) : x.add y = y.add x := by
  cases x with
  | nan => cases y <;> rfl
  | infinite a => cases y with
    | infinite b => cases a <;> cases b <;> rfl
    | nan | finite v => rfl
  | finite u => cases y with
    | finite v => exact congrArg Value.finite (Rat.add_comm u v)
    | nan | infinite b => rfl

protected theorem mul_comm (x y : Value) : x.mul y = y.mul x := by
  cases x <;> cases y <;> simp only [mul, bne_comm, Rat.mul_comm]

theorem decide_neg_lt_zero {v : ℚ} (hv : v ≠ 0) : decide (-v < 0) = !decide (v < 0) := by
  rw [← decide_not, decide_eq_decide, neg_lt_zero, not_lt, le_iff_lt_or_eq]
  exact (or_iff_left hv.symm).symm

/-- The sign of a factor is that of the product. -/
protected theorem mul_neg (x y : Value) : x.mul y.neg = (x.mul y).neg := by
  cases x with
  | nan => cases y <;> rfl
  | infinite a => cases y with
    | nan => rfl
    | infinite b => cases a <;> cases b <;> rfl
    | finite v =>
        simp only [neg, mul, neg_eq_zero]
        split_ifs with hv
        · rfl
        · rw [decide_neg_lt_zero hv]
          cases a <;> simp
  | finite u => cases y with
    | nan => rfl
    | infinite b =>
        simp only [neg, mul]
        split_ifs
        · rfl
        · cases b <;> simp
    | finite v => exact congrArg Value.finite (mul_neg u v)

theorem round_neg (bits : ℕ) (x : Value) : x.neg.round bits = (x.round bits).neg := by
  cases x with
  | finite v => exact congrArg Value.finite (roundTo_neg bits v)
  | nan | infinite negative => rfl

end Value

def ArithmeticOp.onValue : ArithmeticOp → Value → Value → Value
  | .add, x, y => x.add y
  | .sub, x, y => x.add y.neg
  | .mul, x, y => x.mul y
  | .div, x, y => x.div y

/-- On finite values the operation is that of the rational numbers. -/
theorem ArithmeticOp.onValue_finite (op : ArithmeticOp) {u v : ℚ} (hdiv : op = .div → v ≠ 0) :
    op.onValue (.finite u) (.finite v) = .finite (op.exact u v) := by
  cases op with
  | add | mul => rfl
  | sub => exact congrArg Value.finite (sub_eq_add_neg u v).symm
  | div => exact if_neg (hdiv rfl)

/-! ## Reduced numbers -/

namespace Wide

variable {x y : Wide}

/-- The number is in its one form: no factor of two is left in the significand. -/
def Reduced : Wide → Prop
  | .finite m e => m % 2 = 1 ∨ m = 0 ∧ e = 0
  | _ => True

theorem reduced_zero : (Wide.finite 0 0).Reduced :=
  Or.inr ⟨rfl, rfl⟩

theorem oddPart_odd {n : ℕ} (hn : n ≠ 0) : (oddPart n).1 % 2 = 1 := by
  induction n using Nat.strongRecOn with
  | ind n ih =>
      rw [oddPart]
      split_ifs with hzero heven
      · exact absurd hzero hn
      · exact ih (n / 2) (by omega) (by omega)
      · exact Nat.mod_two_ne_zero.mp heven

theorem reduced_ofScaled (negative : Bool) (n : ℕ) (e : ℤ) :
    (ofScaled negative n e).Reduced := by
  rw [ofScaled]
  split_ifs with hzero
  · exact reduced_zero
  · have hodd := oddPart_odd hzero
    left
    cases negative
    · rw [signed, if_neg Bool.false_ne_true]
      omega
    · rw [signed, if_pos rfl]
      omega

theorem Reduced.neg (h : x.Reduced) : x.neg.Reduced := by
  cases x with
  | nan | infinite negative => trivial
  | finite m e =>
      rcases h with hm | ⟨rfl, rfl⟩
      · left
        omega
      · exact reduced_zero

/-- An odd integer times a power of two is a multiple of no higher power. -/
theorem le_of_odd_mul_two_zpow {m n e f : ℤ} (hm : m % 2 = 1)
    (h : (m : ℚ) * 2 ^ e = n * 2 ^ f) : f ≤ e := by
  by_contra hlt
  obtain ⟨k, hk⟩ : ∃ k : ℕ, f = e + (k + 1) := ⟨(f - e - 1).toNat, by omega⟩
  have hpos : (0 : ℚ) < 2 ^ e := by positivity
  have hdouble : (m : ℚ) = ((2 * (n * 2 ^ k) : ℤ) : ℚ) := by
    apply mul_right_cancel₀ hpos.ne'
    rw [h, hk, zpow_add₀ (by norm_num), zpow_add_one₀ (by norm_num), zpow_natCast]
    push_cast
    ring
  have hinteger : m = 2 * (n * 2 ^ k) := by exact_mod_cast hdouble
  omega

/-- A reduced number is known from its value. -/
theorem Reduced.eq_of_value_eq (hx : x.Reduced) (hy : y.Reduced) (h : x.value = y.value) :
    x = y := by
  cases x with
  | nan => cases y with
    | nan => rfl
    | infinite negative | finite n f => cases h
  | infinite negative => cases y with
    | infinite negative' => rw [Value.infinite.inj h]
    | nan | finite n f => cases h
  | finite m e => cases y with
    | nan | infinite negative => cases h
    | finite n f =>
        have hvalue : (m : ℚ) * 2 ^ e = n * 2 ^ f := Value.finite.inj h
        have hpower : ∀ k : ℤ, (2 : ℚ) ^ k ≠ 0 := fun k => by positivity
        have hzero : m = 0 ↔ n = 0 := by
          have hproducts : (m : ℚ) * 2 ^ e = 0 ↔ (n : ℚ) * 2 ^ f = 0 := by rw [hvalue]
          rwa [mul_eq_zero_iff_right (hpower e), mul_eq_zero_iff_right (hpower f),
            Int.cast_eq_zero, Int.cast_eq_zero] at hproducts
        rcases hx with hm | ⟨rfl, rfl⟩
        · rcases hy with hn | ⟨rfl, -⟩
          · obtain rfl : e = f := le_antisymm (le_of_odd_mul_two_zpow hn hvalue.symm)
              (le_of_odd_mul_two_zpow hm hvalue)
            rw [Int.cast_injective (mul_right_cancel₀ (hpower e) hvalue)]
          · rw [hzero.mpr rfl] at hm
            cases hm
        · rcases hy with hn | ⟨rfl, rfl⟩
          · rw [hzero.mp rfl] at hn
            cases hn
          · rfl

end Wide

/-! ## Rounding once -/

/-- The number is what a value is rounded to with so many bits, in its one form. -/
structure Rounds (bits : ℕ) (x : Value) (w : Wide) : Prop where
  value_eq : w.value = x.round bits
  reduced : w.Reduced

/-- A number of the arbitrary tier as it is stored with so many bits. -/
structure Stored (bits : ℕ) (w : Wide) : Prop where
  hasBits : w.value.HasBits bits
  reduced : w.Reduced

variable {bits : ℕ} {x y : Value} {v w w' : Wide} {op : ArithmeticOp}

/-- Rounding leaves no choice. -/
theorem Rounds.unique (h : Rounds bits x w) (h' : Rounds bits x w') : w = w' :=
  h.reduced.eq_of_value_eq h'.reduced (h.value_eq.trans h'.value_eq.symm)

theorem Rounds.stored (h : Rounds bits x w) (hbits : 0 < bits) : Stored bits w :=
  ⟨h.value_eq ▸ Value.hasBits_round hbits x, h.reduced⟩

/-- A value that fits is not changed. -/
theorem Rounds.value_eq_of_hasBits (h : Rounds bits x w) (hx : x.HasBits bits) : w.value = x :=
  h.value_eq.trans hx.round_eq

theorem Rounds.neg (h : Rounds bits x w) : Rounds bits x.neg w.neg := by
  refine ⟨?_, h.reduced.neg⟩
  rw [Wide.value_neg, h.value_eq, Value.round_neg]

/-- The opposite of a stored number needs no rounding. -/
theorem Stored.neg (h : Stored bits w) : Rounds bits w.value.neg w.neg := by
  refine ⟨?_, h.reduced.neg⟩
  rw [Wide.value_neg, h.hasBits.neg.round_eq]

/-- Every answer of the arithmetic is the exact one, rounded once.  Nothing is asked of a quotient
whose denominator is zero, and of a text only that the number read from it is rounded to the bits
in question.  Without any bits, numbers that fit are kept. -/
class RoundsCorrectly [Multiprecision] : Prop where
  ofInt : ∀ {bits : ℕ}, 0 < bits → ∀ n : ℤ, Rounds bits (.finite n) (Multiprecision.ofInt bits n)
  ofFloat : ∀ {bits : ℕ}, 0 < bits → ∀ x : Float,
    Rounds bits (floatValue x) (Multiprecision.ofFloat bits x)
  read : ∀ {bits : ℕ} {text : String} {w : Wide}, 0 < bits →
    Multiprecision.read bits text = .ok w → Stored bits w
  round : ∀ {bits : ℕ} {w : Wide}, 0 < bits ∨ w.value.HasBits bits →
    Rounds bits w.value (Multiprecision.round bits w)
  neg : ∀ {bits : ℕ} {w : Wide}, 0 < bits ∨ w.value.HasBits bits →
    Rounds bits w.value.neg (Multiprecision.neg bits w)
  compute : ∀ {bits : ℕ}, 0 < bits → ∀ (op : ArithmeticOp) (v : Wide) {w : Wide},
    (op = .div → w.value ≠ .finite 0) →
      Rounds bits (op.onValue v.value w.value) (Multiprecision.compute op bits v w)

/-! ## The operations of the program -/

theorem mul_two_zpow_eq_zero {n e : ℤ} : (n : ℚ) * 2 ^ e = 0 ↔ n = 0 := by
  rw [mul_eq_zero_iff_right (by positivity), Int.cast_eq_zero]

theorem mul_two_zpow_neg {n e : ℤ} : (n : ℚ) * 2 ^ e < 0 ↔ n < 0 := by
  rw [← not_le, mul_nonneg_iff_of_pos_right (by positivity), Int.cast_nonneg_iff, not_le]

theorem Wide.isZero_iff : w.isZero = true ↔ w.value = .finite 0 := by
  cases w with
  | nan | infinite negative => simp [isZero, value]
  | finite m e => rw [isZero, value, Value.finite.injEq, mul_two_zpow_eq_zero, beq_iff_eq]

theorem Wide.isNaN_iff : w.isNaN = true ↔ w.value = .nan := by
  cases w <;> simp [isNaN, value]

/-- A number over zero has the sign of the number. -/
theorem Wide.value_div_zero (hzero : ¬ w.isZero = true) (hnan : ¬ w.isNaN = true) :
    w.value.div (.finite 0) = .infinite w.isNegative := by
  cases w with
  | nan => exact absurd rfl hnan
  | infinite negative => simp [value, Value.div, isNegative]
  | finite m e =>
      have hvalue : (m : ℚ) * 2 ^ e ≠ 0 := fun h => hzero (isZero_iff.mpr (congrArg Value.finite h))
      simp only [value, Value.div, if_pos, if_neg hvalue, mul_two_zpow_neg, isNegative]

section

variable [Multiprecision] [RoundsCorrectly]

/-- The case of a zero denominator agrees with the rules of exact values. -/
theorem rounds_divide (hbits : 0 < bits) (v w : Wide) :
    Rounds bits (v.value.div w.value) (divide bits v w) := by
  rw [divide]
  split_ifs with hzero hundefined
  · rw [Wide.isZero_iff.mp hzero]
    rcases Bool.or_eq_true_iff.mp hundefined with h | h
    · rw [Wide.isZero_iff.mp h]
      exact ⟨rfl, trivial⟩
    · rw [Wide.isNaN_iff.mp h]
      exact ⟨rfl, trivial⟩
  · obtain ⟨hnonzero, hnumber⟩ := not_or.mp (mt Bool.or_eq_true_iff.mpr hundefined)
    rw [Wide.isZero_iff.mp hzero, Wide.value_div_zero hnonzero hnumber]
    exact ⟨rfl, trivial⟩
  · exact RoundsCorrectly.compute hbits .div v fun _ => mt Wide.isZero_iff.mpr hzero

/-- An operation of the arbitrary tier is the exact one, rounded once. -/
theorem rounds_onWide (hbits : 0 < bits) (op : ArithmeticOp) (v w : Wide) :
    Rounds bits (op.onValue v.value w.value) (op.onWide bits v w) := by
  cases op with
  | add => exact RoundsCorrectly.compute hbits .add v nofun
  | sub => exact RoundsCorrectly.compute hbits .sub v nofun
  | mul => exact RoundsCorrectly.compute hbits .mul v nofun
  | div => exact rounds_divide hbits v w

/-- On finite numbers the result is that of the rational numbers, rounded once. -/
theorem value_onWide (hbits : 0 < bits) (op : ArithmeticOp) {a b : ℚ} (hv : v.value = .finite a)
    (hw : w.value = .finite b) (hdiv : op = .div → b ≠ 0) :
    (op.onWide bits v w).value = .finite (roundTo bits (op.exact a b)) := by
  rw [(rounds_onWide hbits op v w).value_eq, hv, hw, op.onValue_finite hdiv, Value.round]

end

/-! ## The standard arithmetic -/

namespace Wide

theorem rounds_nearest (bits : ℕ) (negative : Bool) (n : ℕ) {d : ℕ} (hd : 0 < d) (e : ℤ) :
    Rounds bits (.finite ((signed negative n : ℚ) / d * 2 ^ e)) (nearest bits negative n d e) := by
  refine ⟨value_nearest bits negative n hd e, ?_⟩
  rw [nearest]
  split_ifs
  · exact reduced_zero
  · exact reduced_ofScaled _ _ _

theorem rounds_ofInt (bits : ℕ) (n e : ℤ) :
    Rounds bits (.finite (n * 2 ^ e)) (ofInt bits n e) := by
  have h := rounds_nearest bits (decide (n < 0)) n.natAbs one_pos e
  rwa [signed_natAbs, Nat.cast_one, div_one] at h

theorem rounds_ofFloat (bits : ℕ) (x : Float) : Rounds bits (floatValue x) (ofFloat bits x) := by
  rw [ofFloat, floatValue]
  cases Binary64.ofFloat x with
  | nan | infinite negative => exact ⟨rfl, trivial⟩
  | finite negative m e =>
      have h := rounds_nearest bits negative m one_pos e
      rwa [Nat.cast_one, div_one] at h

theorem rounds_round (bits : ℕ) (w : Wide) : Rounds bits w.value (w.round bits) := by
  cases w with
  | nan | infinite negative => exact ⟨rfl, trivial⟩
  | finite m e => exact rounds_ofInt bits m e

/-- A sum is formed exactly at the lower of the two exponents and then rounded. -/
theorem rounds_add (bits : ℕ) (v w : Wide) :
    Rounds bits (v.value.add w.value) (add bits v w) := by
  cases v with
  | nan => cases w <;> exact ⟨rfl, trivial⟩
  | infinite s => cases w with
    | infinite t => cases s <;> cases t <;> exact ⟨rfl, trivial⟩
    | nan | finite n f => exact ⟨rfl, trivial⟩
  | finite m e => cases w with
    | nan | infinite t => exact ⟨rfl, trivial⟩
    | finite n f =>
        have h := rounds_ofInt bits (aligned m e (min e f) + aligned n f (min e f)) (min e f)
        rwa [Int.cast_add, add_mul, cast_aligned (min_le_left e f),
          cast_aligned (min_le_right e f)] at h

theorem rounds_mul (bits : ℕ) (v w : Wide) :
    Rounds bits (v.value.mul w.value) (mul bits v w) := by
  cases v with
  | nan => cases w <;> exact ⟨rfl, trivial⟩
  | infinite s => cases w with
    | nan | infinite t => exact ⟨rfl, trivial⟩
    | finite n f =>
        simp only [value, Value.mul, mul, mul_two_zpow_eq_zero, mul_two_zpow_neg]
        split_ifs <;> exact ⟨rfl, trivial⟩
  | finite m e => cases w with
    | nan => exact ⟨rfl, trivial⟩
    | infinite t =>
        simp only [value, Value.mul, mul, mul_two_zpow_eq_zero, mul_two_zpow_neg]
        split_ifs <;> exact ⟨rfl, trivial⟩
    | finite n f =>
        have hproduct : (m : ℚ) * 2 ^ e * (n * 2 ^ f) = (m * n : ℤ) * 2 ^ (e + f) := by
          rw [zpow_add₀ (by norm_num)]
          push_cast
          ring
        rw [value, value, Value.mul, hproduct]
        exact rounds_ofInt bits (m * n) (e + f)

theorem rounds_div (bits : ℕ) (v : Wide) {w : Wide} (hw : w.value ≠ .finite 0) :
    Rounds bits (v.value.div w.value) (div bits v w) := by
  cases v with
  | nan => cases w <;> exact ⟨rfl, trivial⟩
  | infinite s => cases w with
    | nan | infinite t => exact ⟨rfl, trivial⟩
    | finite n f =>
        simp only [value, Value.div, div, mul_two_zpow_neg]
        exact ⟨rfl, trivial⟩
  | finite m e => cases w with
    | nan => exact ⟨rfl, trivial⟩
    | infinite t =>
        refine ⟨?_, reduced_zero⟩
        rw [div, value, value, value, Value.div, Value.round, roundTo_zero, Int.cast_zero, zero_mul]
    | finite n f =>
        have hvalue : (n : ℚ) * 2 ^ f ≠ 0 := fun h => hw (congrArg Value.finite h)
        have hn : n ≠ 0 := fun h => hvalue (mul_two_zpow_eq_zero.mpr h)
        have hquotient : (m : ℚ) * 2 ^ e / (n * 2 ^ f) =
            (signed (decide (m < 0) != decide (n < 0)) m.natAbs : ℚ) / n.natAbs * 2 ^ (e - f) := by
          rw [signed_div_signed, signed_natAbs, signed_natAbs, zpow_sub₀ (by norm_num),
            mul_div_mul_comm]
        rw [value, value, Value.div, if_neg hvalue, hquotient]
        exact rounds_nearest bits _ _ (Int.natAbs_pos.mpr hn) (e - f)

/-! ### Reading -/

theorem named_eq_some {text : String} (h : named? text = some w) :
    w = .nan ∨ ∃ negative, w = .infinite negative := by
  rw [named?] at h
  split_ifs at h
  · exact Or.inr ⟨_, (Option.some.inj h).symm⟩
  · exact Or.inr ⟨_, (Option.some.inj h).symm⟩
  · exact Or.inl (Option.some.inj h).symm

theorem rounds_readQuotient {parts : List (List Char)} (h : readQuotient bits parts = .ok w) :
    ∃ x, Rounds bits x w := by
  unfold readQuotient at h
  split at h
  · obtain ⟨p, _, hrest⟩ := bind_eq_ok.mp h
    obtain ⟨q, _, hq⟩ := bind_eq_ok.mp hrest
    split_ifs at hq with hzero
    obtain rfl := Except.ok.inj hq
    exact ⟨_, rounds_nearest _ _ _ (Int.natAbs_pos.mpr hzero) 0⟩
  · cases h

theorem rounds_readPositional {cs : List Char} (h : readPositional bits cs = .ok w) :
    ∃ x, Rounds bits x w := by
  obtain ⟨⟨mantissa, exponent⟩, _, hrest⟩ := bind_eq_ok.mp h
  obtain ⟨n, _, hnearest⟩ := bind_eq_ok.mp hrest
  dsimp only at hnearest
  split_ifs at hnearest
  · obtain rfl := Except.ok.inj hnearest
    exact ⟨_, rounds_nearest _ _ _ (Nat.pow_pos (by decide)) 0⟩
  · obtain rfl := Except.ok.inj hnearest
    exact ⟨_, rounds_nearest _ _ _ one_pos _⟩

/-- A number that is read is rounded to the bits that were asked for. -/
theorem rounds_read {text : String} (h : read bits text = .ok w) : ∃ x, Rounds bits x w := by
  rw [read] at h
  dsimp only at h
  split at h
  · next named hnamed =>
      obtain rfl := Except.ok.inj h
      rcases named_eq_some hnamed with rfl | ⟨negative, rfl⟩
      · exact ⟨.nan, rfl, trivial⟩
      · exact ⟨.infinite negative, rfl, trivial⟩
  · split_ifs at h
    · exact rounds_readQuotient h
    · exact rounds_readPositional h

end Wide

instance RoundsCorrectly.standard : RoundsCorrectly where
  ofInt {bits} _ n := by
    have h := Wide.rounds_ofInt bits n 0
    rwa [zpow_zero, mul_one] at h
  ofFloat _ x := Wide.rounds_ofFloat _ x
  read hbits hread := by
    obtain ⟨x, hx⟩ := Wide.rounds_read hread
    exact hx.stored hbits
  round _ := Wide.rounds_round _ _
  neg {bits w} _ := by
    have h := Wide.rounds_round bits w.neg
    rwa [Wide.value_neg] at h
  compute {bits} _ op v w hdiv := by
    cases op with
    | add => exact Wide.rounds_add bits v w
    | sub =>
        have h := Wide.rounds_add bits v w.neg
        rwa [Wide.value_neg] at h
    | mul => exact Wide.rounds_mul bits v w
    | div => exact Wide.rounds_div bits v (hdiv rfl)

end Fluxion.Number
