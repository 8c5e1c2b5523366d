import Fluxion.Proofs.Number.Bits
import Mathlib.Algebra.Order.Field.Power
import Mathlib.Data.Rat.Cast.Order
import Mathlib.Tactic.Linarith
import Mathlib.Tactic.Positivity
import Mathlib.Tactic.NormNum
import Mathlib.Tactic.Ring
import Mathlib.Tactic.FieldSimp

/-!
# Rounding as exact arithmetic

The rounding of quotients is stated over the rationals.  `IsNearest` names the nearest
integer with its tie rule, which is unique, so a computation that meets it is known.
-/

namespace Fluxion.Number

theorem powerOfTwo_pos (k : Int) : 0 < (powerOfTwo k).1 ∧ 0 < (powerOfTwo k).2 :=
  ⟨Nat.pow_pos (by decide), Nat.pow_pos (by decide)⟩

theorem powerOfTwo_div (k : Int) : ((powerOfTwo k).1 : ℚ) / (powerOfTwo k).2 = 2 ^ k := by
  have hfactors : ((powerOfTwo k).1 : ℚ) / (powerOfTwo k).2 = 2 ^ k.toNat / 2 ^ (-k).toNat := by
    simp [powerOfTwo]
  rw [hfactors, div_eq_iff (by positivity), ← zpow_natCast, ← zpow_natCast,
    ← zpow_add₀ (by norm_num)]
  congr 1
  omega

/-- The integer is nearest to the number; at a tie it is even. -/
def IsNearest (q : Nat) (v : ℚ) : Prop :=
  |v - q| < 1 / 2 ∨ (|v - q| = 1 / 2 ∧ q % 2 = 0)

/-- The rule of `divNearest` without division. -/
theorem divNearest_eq_of_within {n d q : Nat} (hd : 0 < d) (hlow : 2 * (q * d) ≤ 2 * n + d)
    (hhigh : 2 * n ≤ 2 * (q * d) + d)
    (htie : q % 2 = 0 ∨ (2 * (q * d) < 2 * n + d ∧ 2 * n < 2 * (q * d) + d)) :
    divNearest n d = q := by
  have hdiv : n / d * d + n % d = n := Nat.div_add_mod' n d
  have hmod : n % d < d := Nat.mod_lt n hd
  have hcandidates : q = n / d ∨ q = n / d + 1 := by
    rcases Nat.lt_trichotomy q (n / d) with hq | hq | hq
    · have hmul : (q + 1) * d ≤ n / d * d := Nat.mul_le_mul_right d hq
      rw [Nat.add_mul] at hmul
      omega
    · exact Or.inl hq
    · by_cases hnext : q = n / d + 1
      · exact Or.inr hnext
      · have hmul : (n / d + 2) * d ≤ q * d := Nat.mul_le_mul_right d (by omega)
        rw [Nat.add_mul] at hmul
        omega
  rcases hcandidates with hq | hq
  · rw [← hq] at hdiv
    rw [divNearest, ← hq]
    split_ifs <;> omega
  · have hqd : q * d = n / d * d + d := by rw [hq, Nat.add_mul, Nat.one_mul]
    rw [divNearest]
    split_ifs <;> omega

theorem IsNearest.distance_le {q : Nat} {v : ℚ} (h : IsNearest q v) : |v - q| ≤ 1 / 2 := by
  rcases h with h | h
  · exact h.le
  · exact h.1.le

theorem isNearest_of_even {q : Nat} {v : ℚ} (heven : q % 2 = 0) (hlow : (q : ℚ) - 1 / 2 ≤ v)
    (hhigh : v ≤ q + 1 / 2) : IsNearest q v := by
  have hdistance : |v - q| ≤ 1 / 2 := abs_le.mpr ⟨by linarith, by linarith⟩
  rcases hdistance.lt_or_eq with h | h
  · exact Or.inl h
  · exact Or.inr ⟨h, heven⟩

theorem isNearest_of_lt {q : Nat} {v : ℚ} (hlow : (q : ℚ) - 1 / 2 < v)
    (hhigh : v < q + 1 / 2) : IsNearest q v :=
  Or.inl (abs_lt.mpr ⟨by linarith, by linarith⟩)

/-- The rule on natural numbers finds the nearest integer. -/
theorem divNearest_eq {n d q : Nat} (hd : 0 < d) (h : IsNearest q ((n : ℚ) / d)) :
    divNearest n d = q := by
  have hd' : (0 : ℚ) < d := Nat.cast_pos.mpr hd
  have hscale : ((n : ℚ) / d - q) * (2 * d) = 2 * n - 2 * (q * d) := by
    field_simp
  obtain ⟨hlow, hhigh⟩ := abs_le.mp h.distance_le
  have hlow' : (2 * (q * d) : ℚ) ≤ 2 * n + d := by nlinarith
  have hhigh' : (2 * n : ℚ) ≤ 2 * (q * d) + d := by nlinarith
  apply divNearest_eq_of_within hd (by exact_mod_cast hlow') (by exact_mod_cast hhigh')
  rcases h with h | h
  · right
    obtain ⟨hlow, hhigh⟩ := abs_lt.mp h
    have hlow' : (2 * (q * d) : ℚ) < 2 * n + d := by nlinarith
    have hhigh' : (2 * n : ℚ) < 2 * (q * d) + d := by nlinarith
    exact ⟨by exact_mod_cast hlow', by exact_mod_cast hhigh'⟩
  · exact Or.inl h.2

theorem abs_sub_divNearest_le {n d : Nat} (hd : 0 < d) :
    |(n : ℚ) / d - divNearest n d| ≤ 1 / 2 := by
  have hd' : (0 : ℚ) < d := Nat.cast_pos.mpr hd
  obtain ⟨hlow, hhigh⟩ := divNearest_within_half n d hd
  have hlow' : (2 * (divNearest n d * d) : ℚ) ≤ 2 * n + d := by exact_mod_cast hlow
  have hhigh' : (2 * n : ℚ) ≤ 2 * (divNearest n d * d) + d := by exact_mod_cast hhigh
  apply abs_le.mpr
  constructor
  · rw [le_sub_iff_add_le, le_div_iff₀ hd']
    linarith
  · rw [sub_le_iff_le_add, div_le_iff₀ hd']
    linarith

/-- The scaled rule finds the nearest integer as well. -/
theorem scaledNearest_eq {n d q : Nat} {k : Int} (hd : 0 < d)
    (h : IsNearest q ((n : ℚ) / d * 2 ^ k)) : scaledNearest n d k = q := by
  have hpos := powerOfTwo_pos k
  have hquotient : ((n * (powerOfTwo k).1 : Nat) : ℚ) / ((d * (powerOfTwo k).2 : Nat) : ℚ) =
      (n : ℚ) / d * 2 ^ k := by
    rw [← powerOfTwo_div]
    push_cast
    rw [mul_div_mul_comm]
  have hnearest : divNearest (n * (powerOfTwo k).1) (d * (powerOfTwo k).2) = q := by
    apply divNearest_eq (Nat.mul_pos hd hpos.2)
    rw [hquotient]
    exact h
  exact hnearest

/-- A natural number lies between two powers of two. -/
theorem two_zpow_log2_le {n : Nat} (hn : 0 < n) :
    (2 : ℚ) ^ (n.log2 : Int) ≤ n ∧ (n : ℚ) < 2 ^ ((n.log2 : Int) + 1) := by
  have hlow : 2 ^ n.log2 ≤ n := Nat.log2_self_le (Nat.ne_of_gt hn)
  have hhigh : n < 2 ^ (n.log2 + 1) := Nat.lt_log2_self
  constructor
  · rw [zpow_natCast]
    exact_mod_cast hlow
  · have hcast : (2 : ℚ) ^ ((n.log2 : Int) + 1) = ((2 ^ (n.log2 + 1) : Nat) : ℚ) := by
      rw [← Nat.cast_succ, zpow_natCast]
      norm_cast
    rw [hcast]
    exact_mod_cast hhigh

/-- The test of `quotientLog2` compares with a power of two. -/
theorem powerOfTwo_mul_le_iff {n d : Nat} (hd : 0 < d) (t : Int) :
    d * (powerOfTwo t).1 ≤ n * (powerOfTwo t).2 ↔ (2 : ℚ) ^ t ≤ (n : ℚ) / d := by
  have hd' : (0 : ℚ) < d := Nat.cast_pos.mpr hd
  have hpos : (0 : ℚ) < (powerOfTwo t).2 := Nat.cast_pos.mpr (powerOfTwo_pos t).2
  rw [← powerOfTwo_div, div_le_div_iff₀ hpos hd', mul_comm d]
  exact_mod_cast Iff.rfl

/-- The order of magnitude that is found is the right one. -/
theorem quotientLog2_spec {n d : Nat} (hn : 0 < n) (hd : 0 < d) :
    (2 : ℚ) ^ quotientLog2 n d ≤ (n : ℚ) / d ∧ (n : ℚ) / d < 2 ^ (quotientLog2 n d + 1) := by
  have hd' : (0 : ℚ) < d := Nat.cast_pos.mpr hd
  obtain ⟨hnlow, hnhigh⟩ := two_zpow_log2_le hn
  obtain ⟨hdlow, hdhigh⟩ := two_zpow_log2_le hd
  have hlow : (2 : ℚ) ^ ((n.log2 : Int) - d.log2 - 1) ≤ (n : ℚ) / d := by
    rw [le_div_iff₀ hd']
    calc
      (2 : ℚ) ^ ((n.log2 : Int) - d.log2 - 1) * d
        ≤ 2 ^ ((n.log2 : Int) - d.log2 - 1) * 2 ^ ((d.log2 : Int) + 1) := by gcongr
      _ = 2 ^ (n.log2 : Int) := by
          rw [← zpow_add₀ (by norm_num)]
          congr 1
          omega
      _ ≤ n := hnlow
  have hhigh : (n : ℚ) / d < 2 ^ ((n.log2 : Int) - d.log2 + 1) := by
    rw [div_lt_iff₀ hd']
    calc
      (n : ℚ) < 2 ^ ((n.log2 : Int) + 1) := hnhigh
      _ = 2 ^ ((n.log2 : Int) - d.log2 + 1) * 2 ^ (d.log2 : Int) := by
          rw [← zpow_add₀ (by norm_num)]
          congr 1
          omega
      _ ≤ 2 ^ ((n.log2 : Int) - d.log2 + 1) * d := by gcongr
  have hlog : quotientLog2 n d =
      if d * (powerOfTwo ((n.log2 : Int) - d.log2)).1 ≤
          n * (powerOfTwo ((n.log2 : Int) - d.log2)).2
        then (n.log2 : Int) - d.log2 else (n.log2 : Int) - d.log2 - 1 := rfl
  rw [hlog]
  simp only [powerOfTwo_mul_le_iff hd]
  split_ifs with htop
  · exact ⟨htop, hhigh⟩
  · refine ⟨hlow, ?_⟩
    rw [Int.sub_add_cancel]
    exact not_le.mp htop

namespace Binary64

/-- A quotient between two powers of two has its last place between theirs. -/
theorem quotientLog2_lt {n d : Nat} (hn : 0 < n) (hd : 0 < d) {t : Int}
    (h : (n : ℚ) / d < 2 ^ t) : quotientLog2 n d < t :=
  (zpow_lt_zpow_iff_right₀ (by norm_num)).mp
    (lt_of_le_of_lt (quotientLog2_spec hn hd).1 h)

theorem le_quotientLog2 {n d : Nat} (hn : 0 < n) (hd : 0 < d) {t : Int}
    (h : (2 : ℚ) ^ t ≤ (n : ℚ) / d) : t ≤ quotientLog2 n d := by
  have hlt : t < quotientLog2 n d + 1 :=
    (zpow_lt_zpow_iff_right₀ (by norm_num)).mp
      (lt_of_le_of_lt h (quotientLog2_spec hn hd).2)
  omega

section Nearest

variable {negative : Bool} {n d m : Nat} {e : Int} {v : ℚ}

theorem nearest_of_pos (hn : 0 < n) :
    nearest negative n d = ofCode negative
      ((lastPlace n d - minExponent).toNat * leadingBit + scaledNearest n d (-lastPlace n d)) := by
  rw [nearest, if_neg (Nat.ne_of_gt hn)]

/-- A quotient `v` in units of `2 ^ e` has its last place there if it is as long as a
significand may be, or if there is no smaller place. -/
theorem lastPlace_eq (hn : 0 < n) (hd : 0 < d) (hvalue : (n : ℚ) / d = v * 2 ^ e)
    (he : minExponent ≤ e) (hhigh : v < 2 ^ 53) (hplace : (2 : ℚ) ^ 52 ≤ v ∨ e = minExponent) :
    lastPlace n d = e := by
  have hpower : ∀ k : Int, (2 : ℚ) ^ (k + e) = 2 ^ k * 2 ^ e :=
    fun k => zpow_add₀ (by norm_num) k e
  have hbelow : quotientLog2 n d < 53 + e := by
    apply quotientLog2_lt hn hd
    rw [hvalue, hpower]
    gcongr
    exact hhigh
  rcases hplace with hplace | hplace
  · have habove : 52 + e ≤ quotientLog2 n d := by
      apply le_quotientLog2 hn hd
      rw [hvalue, hpower]
      gcongr
      exact hplace
    rw [lastPlace]
    omega
  · rw [lastPlace]
    omega

/-- In units of the last place the significand is the nearest integer. -/
theorem scaledNearest_unit_eq (hd : 0 < d) (hvalue : (n : ℚ) / d = v * 2 ^ e)
    (hnear : IsNearest m v) : scaledNearest n d (-e) = m := by
  apply scaledNearest_eq hd
  rw [hvalue, mul_assoc, ← zpow_add₀ (by norm_num), Int.add_right_neg, zpow_zero, mul_one]
  exact hnear

theorem cast_leadingBit : (leadingBit : ℚ) = 2 ^ 52 := by
  rw [leadingBit]
  norm_num

/-- Just below a power of two the last place is one further down, and rounding carries
over to the power. -/
theorem nearest_below_eq (hn : 0 < n) (hd : 0 < d) (he : minExponent < e)
    (hvalue : (n : ℚ) / d = v * 2 ^ e) (hlow : (2 : ℚ) ^ 52 - 1 / 4 ≤ v)
    (hhigh : v < 2 ^ 52) :
    nearest negative n d = ofCode negative (code leadingBit e) := by
  have hvalue' : (n : ℚ) / d = v * 2 * 2 ^ (e - 1) := by
    rw [hvalue, mul_assoc, ← zpow_one_add₀ (by norm_num)]
    congr 2
    omega
  have hlast : lastPlace n d = e - 1 :=
    lastPlace_eq hn hd hvalue' (by omega) (by linarith) (Or.inl (by linarith))
  have hnear : IsNearest (2 * leadingBit) (v * 2) := by
    apply isNearest_of_even (by decide)
    · rw [Nat.cast_mul, Nat.cast_ofNat, cast_leadingBit]
      linarith
    · rw [Nat.cast_mul, Nat.cast_ofNat, cast_leadingBit]
      linarith
  have hcode : (e - 1 - minExponent).toNat * leadingBit + 2 * leadingBit = code leadingBit e := by
    have hstep : (e - minExponent).toNat = (e - 1 - minExponent).toNat + 1 := by omega
    rw [code, hstep, Nat.add_mul]
    omega
  rw [nearest_of_pos hn, hlast, scaledNearest_unit_eq hd hvalue' hnear, hcode]

/-- Rounding finds the value whose significand is nearest, given in units of its last
place.  Below a power of two the last place is half as large, so there the quotient has
to be twice as near. -/
theorem nearest_eq (hn : 0 < n) (hd : 0 < d) (hcanonical : Canonical m e)
    (hvalue : (n : ℚ) / d = v * 2 ^ e) (hnear : IsNearest m v)
    (hlow : m = leadingBit → minExponent < e → (m : ℚ) - 1 / 4 ≤ v) :
    nearest negative n d = ofCode negative (code m e) := by
  obtain ⟨hm, he, _, hnormal⟩ := hcanonical
  obtain ⟨hbelow, habove⟩ := abs_le.mp hnear.distance_le
  by_cases hplace : (2 : ℚ) ^ 52 ≤ v ∨ e = minExponent
  · have hm' : (m : ℚ) + 1 ≤ 2 ^ 53 := by exact_mod_cast hm
    have hlast : lastPlace n d = e := lastPlace_eq hn hd hvalue he (by linarith) hplace
    rw [nearest_of_pos hn, hlast, scaledNearest_unit_eq hd hvalue hnear, code]
  · obtain ⟨hsmall, hexponent⟩ := not_or.mp hplace
    have hsmall := not_le.mp hsmall
    have he' : minExponent < e := lt_of_le_of_ne he (Ne.symm hexponent)
    -- `m` is at least the power and less than one above `v`, which is below the power.
    have hleading : m = leadingBit := by
      have hge := hnormal.resolve_right hexponent
      have hlt : (m : ℚ) < (leadingBit + 1 : Nat) := by
        rw [Nat.cast_succ, cast_leadingBit]
        linarith
      exact Nat.le_antisymm (Nat.le_of_lt_succ (Nat.cast_lt.mp hlt)) hge
    have hquarter := hlow hleading he'
    rw [hleading, cast_leadingBit] at hquarter
    rw [hleading]
    exact nearest_below_eq hn hd he' hvalue hquarter hsmall

end Nearest

end Binary64

end Fluxion.Number
