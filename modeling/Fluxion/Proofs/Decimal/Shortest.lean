import Fluxion.Decimal.Digits
import Fluxion.Proofs.Number.Rounding
import Mathlib.Data.Nat.Cast.Order.Field

/-!
# The shortest digits lie in the interval

The digits that are found for a value lie in the interval of the numbers that are rounded
to it.  A hit on one of the first sixteen grids lies there because it was looked up; on
the last grid the nearest digits always do, as seventeen of them are finer than the
interval is wide.
-/

namespace Fluxion.Decimal

open Fluxion.Number

/-! ## Powers of ten -/

theorem powerOfTen_pos (k : Int) : 0 < (powerOfTen k).1 ∧ 0 < (powerOfTen k).2 :=
  ⟨Nat.pow_pos (by decide), Nat.pow_pos (by decide)⟩

theorem powerOfTen_div (k : Int) : ((powerOfTen k).1 : ℚ) / (powerOfTen k).2 = 10 ^ k := by
  have hfactors : ((powerOfTen k).1 : ℚ) / (powerOfTen k).2 = 10 ^ k.toNat / 10 ^ (-k).toNat := by
    simp [powerOfTen]
  rw [hfactors, div_eq_iff (by positivity), ← zpow_natCast, ← zpow_natCast,
    ← zpow_add₀ (by norm_num)]
  congr 1
  omega

/-- A number has as many digits as its order of magnitude says. -/
theorem digitCount_spec {n : Nat} (hn : 0 < n) :
    0 < digitCount n ∧ 10 ^ (digitCount n - 1) ≤ n ∧ n < 10 ^ digitCount n := by
  have hpos : 0 < digitCount n := Nat.length_toDigits_pos
  refine ⟨hpos, ?_, (Nat.length_toDigits_le_iff (by decide) hpos).mp (Nat.le_refl _)⟩
  by_cases hone : digitCount n = 1
  · rw [hone]
    exact hn
  · by_contra hlarge
    have hlength : digitCount n ≤ digitCount n - 1 :=
      (Nat.length_toDigits_le_iff (by decide) (by omega)).mpr (not_le.mp hlarge)
    omega

theorem ten_zpow_neg_le {n d k : Nat} (hd : 0 < d) (h : d ≤ n * 10 ^ k) :
    (10 : ℚ) ^ (-(k : Int)) ≤ (n : ℚ) / d := by
  have hd' : (0 : ℚ) < d := Nat.cast_pos.mpr hd
  have h' : (d : ℚ) ≤ n * 10 ^ k := by exact_mod_cast h
  rw [zpow_neg, zpow_natCast, inv_eq_one_div, div_le_div_iff₀ (by positivity) hd', one_mul]
  exact h'

/-- The order of magnitude is not too large. -/
theorem ten_zpow_quotientLog10_le {n d : Nat} (hn : 0 < n) (hd : 0 < d) :
    (10 : ℚ) ^ quotientLog10 n d ≤ (n : ℚ) / d := by
  simp only [quotientLog10]
  split_ifs with hle htop
  · obtain ⟨hpos, hlow, _⟩ := digitCount_spec (Nat.div_pos hle hd)
    have hexponent : (digitCount (n / d) : Int) - 1 = ((digitCount (n / d) - 1 : Nat) : Int) := by
      omega
    calc
      (10 : ℚ) ^ ((digitCount (n / d) : Int) - 1)
        = ((10 ^ (digitCount (n / d) - 1) : Nat) : ℚ) := by
          rw [hexponent, zpow_natCast]
          norm_cast
      _ ≤ ((n / d : Nat) : ℚ) := by exact_mod_cast hlow
      _ ≤ (n : ℚ) / d := Nat.cast_div_le
  · obtain ⟨hpos, _, _⟩ := digitCount_spec (Nat.div_pos (Nat.le_of_lt (not_le.mp hle)) hn)
    have hexponent : 1 - (digitCount (d / n) : Int) = -((digitCount (d / n) - 1 : Nat) : Int) := by
      omega
    rw [hexponent]
    exact ten_zpow_neg_le hd htop
  · obtain ⟨_, _, hhigh⟩ := digitCount_spec (Nat.div_pos (Nat.le_of_lt (not_le.mp hle)) hn)
    apply ten_zpow_neg_le hd
    calc
      d ≤ n * (d / n + 1) := Nat.le_of_lt (Nat.lt_mul_div_succ d hn)
      _ ≤ n * 10 ^ digitCount (d / n) := Nat.mul_le_mul_left n hhigh

/-! ## The interval -/

/-- The number, in quarters of the last binary place, lies in the interval. -/
def Interval.Contains (i : Interval) (point : ℚ) : Prop :=
  if i.closed then i.low ≤ point ∧ point ≤ i.high else i.low < point ∧ point < i.high

/-- The comparison of integers decides whether a quotient lies in the interval. -/
theorem Interval.holds_iff (i : Interval) {unit : Nat} (hunit : 0 < unit) (point : Nat) :
    i.holds unit point = true ↔ i.Contains ((point : ℚ) / unit) := by
  have hunit' : (0 : ℚ) < unit := Nat.cast_pos.mpr hunit
  rw [Interval.holds, Interval.Contains]
  split_ifs
  · rw [le_div_iff₀ hunit', div_le_iff₀ hunit', Bool.and_eq_true, decide_eq_true_iff,
      decide_eq_true_iff]
    exact_mod_cast Iff.rfl
  · rw [lt_div_iff₀ hunit', div_lt_iff₀ hunit', Bool.and_eq_true, decide_eq_true_iff,
      decide_eq_true_iff]
    exact_mod_cast Iff.rfl

section Around

variable {m : Nat} {e : Int} {v : ℚ}

theorem around_low (hm : 0 < m) :
    ((Interval.around m e).low : ℚ) =
      if m = Binary64.leadingBit ∧ Binary64.minExponent < e then 4 * (m : ℚ) - 1
      else 4 * m - 2 := by
  rw [Interval.around]
  split_ifs
  · rw [Nat.cast_sub (by omega)]
    norm_num
  · rw [Nat.cast_sub (by omega)]
    norm_num

/-- What lies in the interval is rounded to the value. -/
theorem Interval.Contains.isNearest (hm : 0 < m) (h : (Interval.around m e).Contains (4 * v)) :
    IsNearest m v ∧
      (m = Binary64.leadingBit → Binary64.minExponent < e → (m : ℚ) - 1 / 4 ≤ v) := by
  have hlow := @around_low m e hm
  have hhigh : ((Interval.around m e).high : ℚ) = 4 * m + 2 := by
    rw [Interval.around]
    push_cast
    ring
  have hsmall : 4 * (m : ℚ) - 2 ≤ (Interval.around m e).low := by
    rw [hlow]
    split_ifs <;> linarith
  rw [Interval.Contains, hhigh] at h
  have hle : ((Interval.around m e).low : ℚ) ≤ 4 * v := by
    split_ifs at h
    · exact h.1
    · exact h.1.le
  constructor
  · split_ifs at h with hclosed
    · have heven : m % 2 = 0 := beq_iff_eq.mp hclosed
      exact isNearest_of_even heven (by linarith) (by linarith [h.2])
    · exact isNearest_of_lt (by linarith [h.1]) (by linarith [h.2])
  · intro hleading hexponent
    rw [hlow, if_pos ⟨hleading, hexponent⟩] at hle
    linarith

/-- What is nearer to the value than the ends lies in the interval. -/
theorem Interval.contains_of_abs_lt (hm : 0 < m) (hnear : |4 * v - 4 * m| < 2)
    (hleading : m = Binary64.leadingBit → |4 * v - 4 * m| < 1) :
    (Interval.around m e).Contains (4 * v) := by
  obtain ⟨hbelow, habove⟩ := abs_lt.mp hnear
  have hlow : ((Interval.around m e).low : ℚ) < 4 * v := by
    rw [around_low hm]
    split_ifs with hedge
    · linarith [(abs_lt.mp (hleading hedge.1)).1]
    · linarith
  have hhigh : 4 * v < ((Interval.around m e).high : ℚ) := by
    rw [Interval.around]
    push_cast
    linarith
  rw [Interval.Contains]
  split_ifs
  · exact ⟨hlow.le, hhigh.le⟩
  · exact ⟨hlow, hhigh⟩

end Around

/-! ## The search -/

def Digits.value (x : Digits) : ℚ :=
  x.digits * 10 ^ x.exponent

section Search

variable {m q : Nat} {e grid : Int}

/-- A point of a grid, over the scale that it has in common with the interval. -/
theorem gridPoint_eq (q : Nat) (e grid : Int) :
    ((q * ((powerOfTen grid).1 * (powerOfTwo (e - 2)).2) : Nat) : ℚ) /
        (((powerOfTwo (e - 2)).1 * (powerOfTen grid).2 : Nat) : ℚ) =
      4 * (Digits.value ⟨q, grid⟩ / 2 ^ e) := by
  have htwo : (2 : ℚ) ^ (e - 2) = 2 ^ e / 4 := by
    rw [zpow_sub₀ (by norm_num)]
    norm_num
  calc
    ((q * ((powerOfTen grid).1 * (powerOfTwo (e - 2)).2) : Nat) : ℚ) /
        (((powerOfTwo (e - 2)).1 * (powerOfTen grid).2 : Nat) : ℚ)
      = q * ((powerOfTen grid).1 / (powerOfTen grid).2) /
          ((powerOfTwo (e - 2)).1 / (powerOfTwo (e - 2)).2) := by
        push_cast
        field_simp
    _ = q * 10 ^ grid / (2 ^ e / 4) := by rw [powerOfTen_div, powerOfTwo_div, htwo]
    _ = 4 * (Digits.value ⟨q, grid⟩ / 2 ^ e) := by
        rw [Digits.value]
        field_simp

theorem holds_of_onGrid? (h : onGrid? m e grid = some q) :
    (Interval.around m e).holds ((powerOfTwo (e - 2)).1 * (powerOfTen grid).2)
      (q * ((powerOfTen grid).1 * (powerOfTwo (e - 2)).2)) = true := by
  simp only [onGrid?] at h
  split at h
  · exact absurd h (by simp)
  · next hbelow _ =>
    obtain rfl := Option.some.inj h
    exact hbelow
  · next _ habove =>
    obtain rfl := Option.some.inj h
    exact habove
  · next hbelow habove =>
    split_ifs at h
    · obtain rfl := Option.some.inj h
      exact hbelow
    · obtain rfl := Option.some.inj h
      exact habove
    · obtain rfl := Option.some.inj h
      exact hbelow
    · obtain rfl := Option.some.inj h
      exact habove

/-- A hit on a grid lies in the interval of its value. -/
theorem onGrid?_contains (h : onGrid? m e grid = some q) :
    (Interval.around m e).Contains (4 * (Digits.value ⟨q, grid⟩ / 2 ^ e)) := by
  rw [← gridPoint_eq]
  exact (Interval.holds_iff _ (Nat.mul_pos (powerOfTwo_pos _).1 (powerOfTen_pos _).2) _).mp
    (holds_of_onGrid? h)

/-- The quotient of a value is the value. -/
theorem quotient_spec (m : Nat) (e : Int) :
    0 < (Binary64.quotient m e).2 ∧
      ((Binary64.quotient m e).1 : ℚ) / (Binary64.quotient m e).2 = m * 2 ^ e := by
  refine ⟨(powerOfTwo_pos e).2, ?_⟩
  calc
    (((m * (powerOfTwo e).1 : Nat) : ℚ) / ((powerOfTwo e).2 : ℚ))
      = m * ((powerOfTwo e).1 / (powerOfTwo e).2) := by
        push_cast
        rw [mul_div_assoc]
    _ = m * 2 ^ e := by rw [powerOfTwo_div]

/-- The digits on the last grid are off by at most half a step of it. -/
theorem abs_lastGrid_sub_le (m : Nat) (e grid : Int) :
    |(firstOnGrid m e 0 grid).value - m * 2 ^ e| ≤ 10 ^ grid / 2 := by
  obtain ⟨hd, hquotient⟩ := quotient_spec m e
  have hgrid : (0 : ℚ) < 10 ^ grid := by positivity
  have hscaled : (((Binary64.quotient m e).1 * (powerOfTen grid).2 : Nat) : ℚ) /
      (((Binary64.quotient m e).2 * (powerOfTen grid).1 : Nat) : ℚ) = m * 2 ^ e / 10 ^ grid := by
    rw [← hquotient, ← powerOfTen_div]
    push_cast
    field_simp
  have hnear : |(m : ℚ) * 2 ^ e / 10 ^ grid - (firstOnGrid m e 0 grid).digits| ≤ 1 / 2 := by
    rw [← hscaled]
    exact abs_sub_divNearest_le (Nat.mul_pos hd (powerOfTen_pos grid).1)
  have hexponent : (firstOnGrid m e 0 grid).exponent = grid := rfl
  rw [Digits.value, hexponent]
  calc
    |((firstOnGrid m e 0 grid).digits : ℚ) * 10 ^ grid - m * 2 ^ e|
      = |(m : ℚ) * 2 ^ e / 10 ^ grid - (firstOnGrid m e 0 grid).digits| * 10 ^ grid := by
        rw [← abs_of_pos hgrid, ← abs_mul, abs_of_pos hgrid, abs_sub_comm, sub_mul,
          div_mul_cancel₀ _ hgrid.ne']
    _ ≤ 1 / 2 * 10 ^ grid := by gcongr
    _ = 10 ^ grid / 2 := by ring

/-- Seventeen digits are nearer to the value than the ends of its interval. -/
theorem lastGrid_contains (hm : 0 < m) (hbound : m < 2 * Binary64.leadingBit)
    (hgrid : (10 : ℚ) ^ (grid + 16) ≤ m * 2 ^ e) :
    (Interval.around m e).Contains (4 * ((firstOnGrid m e 0 grid).value / 2 ^ e)) := by
  have htwo : (0 : ℚ) < 2 ^ e := by positivity
  have hstep : (10 : ℚ) ^ grid ≤ m * 2 ^ e / 10 ^ 16 := by
    rw [le_div_iff₀ (by positivity), ← zpow_natCast, ← zpow_add₀ (by norm_num)]
    exact hgrid
  have hdistance : |4 * ((firstOnGrid m e 0 grid).value / 2 ^ e) - 4 * m| ≤ 2 * m / 10 ^ 16 := by
    calc
      |4 * ((firstOnGrid m e 0 grid).value / 2 ^ e) - 4 * (m : ℚ)|
        = |4 / 2 ^ e * ((firstOnGrid m e 0 grid).value - m * 2 ^ e)| := by
          congr 1
          field_simp
      _ = 4 / 2 ^ e * |(firstOnGrid m e 0 grid).value - m * 2 ^ e| := by
          rw [abs_mul, abs_of_pos (by positivity)]
      _ ≤ 4 / 2 ^ e * (10 ^ grid / 2) := by
          gcongr
          exact abs_lastGrid_sub_le m e grid
      _ ≤ 4 / 2 ^ e * (m * 2 ^ e / 10 ^ 16 / 2) := by gcongr
      _ = 2 * m / 10 ^ 16 := by
          field_simp
          ring
  apply Interval.contains_of_abs_lt hm
  · have hm' : (m : ℚ) < 2 ^ 53 := by exact_mod_cast hbound
    apply lt_of_le_of_lt hdistance
    rw [div_lt_iff₀ (by norm_num)]
    linarith
  · rintro rfl
    apply lt_of_le_of_lt hdistance
    norm_num [Binary64.leadingBit]

/-- The search ends in the interval, wherever it has a hit. -/
theorem firstOnGrid_contains (hm : 0 < m) (hbound : m < 2 * Binary64.leadingBit) (left : Nat)
    (hgrid : (10 : ℚ) ^ (grid - left + 16) ≤ m * 2 ^ e) :
    (Interval.around m e).Contains (4 * ((firstOnGrid m e left grid).value / 2 ^ e)) := by
  induction left generalizing grid with
  | zero =>
      apply lastGrid_contains hm hbound
      rw [Nat.cast_zero, sub_zero] at hgrid
      exact hgrid
  | succ left ih =>
      rw [firstOnGrid]
      split
      · next h => exact onGrid?_contains h
      · apply ih
        have hindex : grid - 1 - (left : Int) = grid - (left + 1 : Nat) := by omega
        rw [hindex]
        exact hgrid

/-- The shortest digits of a value are rounded to it. -/
theorem shortest_contains (hm : 0 < m) (hbound : m < 2 * Binary64.leadingBit) :
    (Interval.around m e).Contains (4 * ((shortest m e).value / 2 ^ e)) := by
  obtain ⟨hd, hquotient⟩ := quotient_spec m e
  have hn : 0 < (Binary64.quotient m e).1 := Nat.mul_pos hm (powerOfTwo_pos e).1
  have hshortest : shortest m e = firstOnGrid m e 16
      (quotientLog10 (Binary64.quotient m e).1 (Binary64.quotient m e).2) := rfl
  rw [hshortest]
  apply firstOnGrid_contains hm hbound
  rw [Nat.cast_ofNat, Int.sub_add_cancel, ← hquotient]
  exact ten_zpow_quotientLog10_le hn hd

end Search

end Fluxion.Decimal
