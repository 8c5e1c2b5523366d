import Fluxion.Proofs.Number.Rounding
import Mathlib.Data.Int.Log
import Mathlib.Data.Rat.Floor

/-!
# Rounding to a number of bits

Rounding is a function on the rationals here, without a bound on exponents.  A number is
rounded on a grid, the multiples of a power of two (`roundAt`), and its size and the
number of bits choose the grid (`roundTo`).

* `abs_sub_roundTo_le_of_hasBits`: no number with so many bits is nearer.
* `roundTo_roundTo`: rounding twice does no harm unless the first rounding ends, away from
  the number, in the middle between two neighbours of the second grid.
-/

namespace Fluxion.Number

/-! ## The nearest integer -/

/-- The integer nearest to a number; of two that are equally near, the even one. -/
def roundEven (v : ℚ) : ℤ :=
  if v - ⌊v⌋ < 1 / 2 then ⌊v⌋
  else if 1 / 2 < v - ⌊v⌋ then ⌊v⌋ + 1
  else if ⌊v⌋ % 2 = 0 then ⌊v⌋
  else ⌊v⌋ + 1

variable {v w : ℚ} {n : ℤ}

/-- Rounding moves a number by no more than one half. -/
theorem abs_sub_roundEven_le (v : ℚ) : |v - roundEven v| ≤ 1 / 2 := by
  have hlow : (⌊v⌋ : ℚ) ≤ v := Int.floor_le v
  have hhigh : v < ⌊v⌋ + 1 := Int.lt_floor_add_one v
  rw [roundEven, abs_le]
  split_ifs <;> push_cast <;> constructor <;> linarith

theorem roundEven_even (h : |v - roundEven v| = 1 / 2) : roundEven v % 2 = 0 := by
  have hlow : (⌊v⌋ : ℚ) ≤ v := Int.floor_le v
  have hhigh : v < ⌊v⌋ + 1 := Int.lt_floor_add_one v
  rw [roundEven] at h ⊢
  split_ifs at h ⊢ with hbelow habove heven
  · rw [abs_of_nonneg (by linarith)] at h
    linarith
  · push_cast at h
    rw [abs_of_neg (by linarith)] at h
    linarith
  · exact heven
  · omega

theorem roundEven_eq (h : |v - n| < 1 / 2 ∨ |v - n| = 1 / 2 ∧ n % 2 = 0) : roundEven v = n := by
  have hle : |v - n| ≤ 1 / 2 := h.elim le_of_lt fun h => h.1.le
  have hnear := abs_le.mp (abs_sub_roundEven_le v)
  have hn := abs_le.mp hle
  have hlow : roundEven v ≤ n + 1 := by
    have : (roundEven v : ℚ) ≤ n + 1 := by linarith [hnear.1, hn.2]
    exact_mod_cast this
  have hhigh : n ≤ roundEven v + 1 := by
    have : (n : ℚ) ≤ roundEven v + 1 := by linarith [hnear.2, hn.1]
    exact_mod_cast this
  -- Neighbours that are both near are both at a distance of one half, and both even.
  have hhalf (hne : (roundEven v : ℚ) = n + 1 ∨ (roundEven v : ℚ) = n - 1) :
      |v - n| = 1 / 2 ∧ |v - roundEven v| = 1 / 2 := by
    rcases hne with hne | hne
    · have hv : v = n + 1 / 2 := by linarith [hnear.1, hn.2]
      rw [hne, hv]
      norm_num
    · have hv : v = n - 1 / 2 := by linarith [hnear.2, hn.1]
      rw [hne, hv]
      norm_num
  rcases (by omega : roundEven v = n ∨ roundEven v = n + 1 ∨ roundEven v = n - 1) with
    heq | heq | heq
  · exact heq
  · obtain ⟨hdistance, hdistance'⟩ := hhalf (Or.inl (by rw [heq]; push_cast; rfl))
    have heven := (h.resolve_left (by rw [hdistance]; exact lt_irrefl _)).2
    have heven' := roundEven_even hdistance'
    omega
  · obtain ⟨hdistance, hdistance'⟩ := hhalf (Or.inr (by rw [heq]; push_cast; rfl))
    have heven := (h.resolve_left (by rw [hdistance]; exact lt_irrefl _)).2
    have heven' := roundEven_even hdistance'
    omega

@[simp]
theorem roundEven_intCast (n : ℤ) : roundEven n = n :=
  roundEven_eq (Or.inl (by norm_num))

theorem roundEven_neg (v : ℚ) : roundEven (-v) = -roundEven v := by
  have hdistance : |-v - ((-roundEven v : ℤ) : ℚ)| = |v - roundEven v| := by
    push_cast
    rw [← abs_neg]
    congr 1
    ring
  apply roundEven_eq
  rw [hdistance]
  rcases (abs_sub_roundEven_le v).lt_or_eq with h | h
  · exact Or.inl h
  · have heven := roundEven_even h
    exact Or.inr ⟨h, by omega⟩

theorem roundEven_mono (h : v ≤ w) : roundEven v ≤ roundEven w := by
  by_contra hnot
  have hstep : ((roundEven w + 1 : ℤ) : ℚ) ≤ roundEven v := by exact_mod_cast not_le.mp hnot
  push_cast at hstep
  have hv := abs_le.mp (abs_sub_roundEven_le v)
  have hw := abs_le.mp (abs_sub_roundEven_le w)
  have heq : v = w := by linarith [hv.1, hw.2]
  exact hnot (heq ▸ le_refl _)

/-- No integer is nearer. -/
theorem abs_sub_roundEven_le_abs_sub (v : ℚ) (n : ℤ) : |v - roundEven v| ≤ |v - n| := by
  by_cases hne : roundEven v = n
  · rw [hne]
  · have hnear := abs_sub_roundEven_le v
    have hapart : (1 : ℚ) ≤ |(roundEven v : ℚ) - n| := by
      exact_mod_cast Int.one_le_abs (sub_ne_zero.mpr hne)
    have htriangle : |(roundEven v : ℚ) - n| ≤ |v - roundEven v| + |v - n| := by
      calc
        |(roundEven v : ℚ) - n| = |(v - n) - (v - roundEven v)| := by
          congr 1
          ring
        _ ≤ |v - n| + |v - roundEven v| := abs_sub _ _
        _ = |v - roundEven v| + |v - n| := add_comm _ _
    linarith

/-! ## Grids -/

/-- The number is a multiple of `2 ^ k`. -/
def OnGrid (k : ℤ) (v : ℚ) : Prop :=
  ∃ n : ℤ, v = n * 2 ^ k

namespace OnGrid

variable {k j : ℤ}

theorem neg (h : OnGrid k v) : OnGrid k (-v) := by
  obtain ⟨n, rfl⟩ := h
  exact ⟨-n, by push_cast; ring⟩

theorem add (hv : OnGrid k v) (hw : OnGrid k w) : OnGrid k (v + w) := by
  obtain ⟨n, rfl⟩ := hv
  obtain ⟨m, rfl⟩ := hw
  exact ⟨n + m, by push_cast; ring⟩

theorem sub (hv : OnGrid k v) (hw : OnGrid k w) : OnGrid k (v - w) := by
  rw [sub_eq_add_neg]
  exact hv.add hw.neg

/-- Finer grids have more points. -/
theorem mono (h : OnGrid k v) (hjk : j ≤ k) : OnGrid j v := by
  obtain ⟨n, rfl⟩ := h
  obtain ⟨d, rfl⟩ := Int.le.dest hjk
  refine ⟨n * 2 ^ d, ?_⟩
  rw [zpow_add₀ (by norm_num), zpow_natCast]
  push_cast
  ring

theorem mul (hv : OnGrid k v) (hw : OnGrid j w) : OnGrid (k + j) (v * w) := by
  obtain ⟨n, rfl⟩ := hv
  obtain ⟨m, rfl⟩ := hw
  refine ⟨n * m, ?_⟩
  rw [zpow_add₀ (by norm_num)]
  push_cast
  ring

theorem of_abs (h : OnGrid k |v|) : OnGrid k v := by
  rcases abs_choice v with habs | habs
  · rwa [habs] at h
  · rw [habs] at h
    simpa using h.neg

/-- Only zero is nearer to zero than one step. -/
theorem eq_zero (h : OnGrid k v) (hsmall : |v| < 2 ^ k) : v = 0 := by
  obtain ⟨n, rfl⟩ := h
  have hpos : (0 : ℚ) < 2 ^ k := by positivity
  rw [abs_mul, abs_of_pos hpos] at hsmall
  have hn : |(n : ℚ)| < 1 := by
    by_contra hge
    nlinarith [not_lt.mp hge]
  have hzero : n = 0 := Int.abs_lt_one_iff.mp (by exact_mod_cast hn)
  rw [hzero, Int.cast_zero, zero_mul]

end OnGrid

theorem onGrid_zero (k : ℤ) : OnGrid k 0 :=
  ⟨0, by norm_num⟩

theorem onGrid_two_zpow {j k : ℤ} (h : k ≤ j) : OnGrid k (2 ^ j) :=
  OnGrid.mono ⟨1, by norm_num⟩ h

/-- The multiple of `2 ^ k` that is nearest to a number; of two that are equally near, the
even multiple. -/
def roundAt (k : ℤ) (v : ℚ) : ℚ :=
  roundEven (v / 2 ^ k) * 2 ^ k

section RoundAt

variable {k j : ℤ}

theorem onGrid_roundAt (k : ℤ) (v : ℚ) : OnGrid k (roundAt k v) :=
  ⟨_, rfl⟩

/-- A multiple is not moved. -/
theorem OnGrid.roundAt_eq (h : OnGrid k v) : roundAt k v = v := by
  obtain ⟨n, rfl⟩ := h
  rw [roundAt, mul_div_cancel_right₀ _ (by positivity), roundEven_intCast]

@[simp]
theorem roundAt_zero (k : ℤ) : roundAt k 0 = 0 :=
  (onGrid_zero k).roundAt_eq

theorem roundAt_neg (k : ℤ) (v : ℚ) : roundAt k (-v) = -roundAt k v := by
  rw [roundAt, roundAt, neg_div, roundEven_neg]
  push_cast
  ring

theorem roundAt_mono (k : ℤ) (h : v ≤ w) : roundAt k v ≤ roundAt k w := by
  have hpos : (0 : ℚ) < 2 ^ k := by positivity
  have hround : roundEven (v / 2 ^ k) ≤ roundEven (w / 2 ^ k) :=
    roundEven_mono (div_le_div_of_nonneg_right h hpos.le)
  rw [roundAt, roundAt]
  exact mul_le_mul_of_nonneg_right (by exact_mod_cast hround) hpos.le

/-- Distances on the grid are distances of integers, scaled. -/
theorem abs_sub_mul_eq (k n : ℤ) (v : ℚ) : |v - n * 2 ^ k| = |v / 2 ^ k - n| * 2 ^ k := by
  have hpos : (0 : ℚ) < 2 ^ k := by positivity
  rw [← abs_of_pos hpos, ← abs_mul, abs_of_pos hpos, sub_mul, div_mul_cancel₀ _ hpos.ne']

theorem abs_sub_roundAt_le (k : ℤ) (v : ℚ) : |v - roundAt k v| ≤ 2 ^ (k - 1) := by
  have hpos : (0 : ℚ) < 2 ^ k := by positivity
  have hhalf : (2 : ℚ) ^ (k - 1) = 1 / 2 * 2 ^ k := by
    rw [zpow_sub_one₀ (by norm_num)]
    ring
  rw [roundAt, abs_sub_mul_eq, hhalf]
  exact mul_le_mul_of_nonneg_right (abs_sub_roundEven_le _) hpos.le

/-- No point of the grid is nearer. -/
theorem OnGrid.abs_sub_roundAt_le (h : OnGrid k w) (v : ℚ) : |v - roundAt k v| ≤ |v - w| := by
  obtain ⟨n, rfl⟩ := h
  rw [roundAt, abs_sub_mul_eq, abs_sub_mul_eq]
  exact mul_le_mul_of_nonneg_right (abs_sub_roundEven_le_abs_sub _ n) (by positivity)

theorem roundAt_nonneg (k : ℤ) (hv : 0 ≤ v) : 0 ≤ roundAt k v := by
  rw [← roundAt_zero k]
  exact roundAt_mono k hv

theorem abs_roundAt (k : ℤ) (v : ℚ) : |roundAt k v| = roundAt k |v| := by
  rcases le_total 0 v with hv | hv
  · rw [abs_of_nonneg hv, abs_of_nonneg (roundAt_nonneg k hv)]
  · have hneg := roundAt_nonneg k (neg_nonneg.mpr hv)
    rw [abs_of_nonpos hv, ← abs_neg, ← roundAt_neg, abs_of_nonneg hneg]

/-- A power of two on the grid is not passed. -/
theorem abs_roundAt_le (hkj : k ≤ j) (h : |v| ≤ 2 ^ j) : |roundAt k v| ≤ 2 ^ j := by
  rw [abs_roundAt, ← (onGrid_two_zpow hkj).roundAt_eq]
  exact roundAt_mono k h

theorem le_abs_roundAt (hkj : k ≤ j) (h : (2 : ℚ) ^ j ≤ |v|) : (2 : ℚ) ^ j ≤ |roundAt k v| := by
  rw [abs_roundAt, ← (onGrid_two_zpow hkj).roundAt_eq]
  exact roundAt_mono k h

/-- A point of the grid that is less than half a step away is the nearest one. -/
theorem OnGrid.roundAt_eq_of_near (hw : OnGrid k w) (h : |v - w| < 2 ^ (k - 1)) :
    roundAt k v = w := by
  have hdistance : |roundAt k v - w| < 2 ^ k := by
    have hnear := Number.abs_sub_roundAt_le k v
    have htriangle := abs_sub_le (roundAt k v) v w
    have hhalves : (2 : ℚ) ^ k = 2 ^ (k - 1) + 2 ^ (k - 1) := by
      rw [zpow_sub_one₀ (by norm_num)]
      ring
    rw [abs_sub_comm (roundAt k v) v] at htriangle
    linarith
  exact sub_eq_zero.mp (((onGrid_roundAt k v).sub hw).eq_zero hdistance)

theorem roundAt_div (j k : ℤ) (v : ℚ) : roundAt (j + k) v / 2 ^ k = roundAt j (v / 2 ^ k) := by
  have hpos : (0 : ℚ) < 2 ^ k := by positivity
  rw [roundAt, roundAt, zpow_add₀ (by norm_num), div_div, mul_comm ((2 : ℚ) ^ j), ← mul_assoc,
    mul_comm _ ((2 : ℚ) ^ k), mul_assoc, mul_div_cancel_left₀ _ hpos.ne']

end RoundAt

/-! ## Numbers with so many bits -/

/-- The number is an integer of at most `bits` bits times a power of two. -/
def HasBits (bits : ℕ) (v : ℚ) : Prop :=
  ∃ n k : ℤ, |n| < 2 ^ bits ∧ v = n * 2 ^ k

/-- The exponent of the last of `bits` places of a number. -/
def place (bits : ℕ) (v : ℚ) : ℤ :=
  Int.log 2 |v| + 1 - bits

/-- The number with `bits` bits that is nearest to a number; of two that are equally near,
the one whose last bit is zero. -/
def roundTo (bits : ℕ) (v : ℚ) : ℚ :=
  roundAt (place bits v) v

section RoundTo

variable {bits p b : ℕ} {k : ℤ}

@[simp]
theorem place_neg (bits : ℕ) (v : ℚ) : place bits (-v) = place bits v := by
  rw [place, place, abs_neg]

theorem place_add (bits : ℕ) (v : ℚ) : place bits v + bits = Int.log 2 |v| + 1 := by
  rw [place]
  ring

theorem abs_lt_two_zpow (bits : ℕ) (v : ℚ) : |v| < 2 ^ (place bits v + bits) := by
  rw [place_add]
  exact_mod_cast Int.lt_zpow_succ_log_self (b := 2) (by norm_num) |v|

theorem two_zpow_le_abs (bits : ℕ) (hv : v ≠ 0) : (2 : ℚ) ^ (place bits v + bits - 1) ≤ |v| := by
  rw [place_add, add_sub_cancel_right]
  exact_mod_cast Int.zpow_log_le_self (b := 2) (by norm_num) (abs_pos.mpr hv)

theorem ne_zero_of_two_zpow_le (h : (2 : ℚ) ^ k ≤ |v|) : v ≠ 0 := by
  have hpos : (0 : ℚ) < |v| := lt_of_lt_of_le (by positivity) h
  exact abs_pos.mp hpos

/-- Below a power of two the last place is below its exponent. -/
theorem place_lt_of_abs_lt (hv : v ≠ 0) (h : |v| < 2 ^ (k + bits)) : place bits v ≤ k := by
  have hlog : Int.log 2 |v| < k + bits :=
    (Int.lt_zpow_iff_log_lt (b := 2) (by norm_num) (abs_pos.mpr hv)).mp (by exact_mod_cast h)
  rw [place]
  omega

theorem le_place_of_le_abs (hv : v ≠ 0) (h : (2 : ℚ) ^ (k + bits - 1) ≤ |v|) :
    k ≤ place bits v := by
  have hlog : k + bits - 1 ≤ Int.log 2 |v| :=
    (Int.zpow_le_iff_le_log (b := 2) (by norm_num) (abs_pos.mpr hv)).mp (by exact_mod_cast h)
  rw [place]
  omega

/-- The place of a number is known from the powers of two around it. -/
theorem place_eq (hlow : (2 : ℚ) ^ (k + bits - 1) ≤ |v|) (hhigh : |v| < 2 ^ (k + bits)) :
    place bits v = k := by
  have hv : v ≠ 0 := ne_zero_of_two_zpow_le hlow
  exact le_antisymm (place_lt_of_abs_lt hv hhigh) (le_place_of_le_abs hv hlow)

/-- Numbers with so many bits are short multiples of a power of two. -/
theorem HasBits.exists_onGrid (h : HasBits bits v) : ∃ k, OnGrid k v ∧ |v| < 2 ^ (k + bits) := by
  obtain ⟨n, k, hn, rfl⟩ := h
  have hpos : (0 : ℚ) < 2 ^ k := by positivity
  have hn' : |(n : ℚ)| < 2 ^ bits := by exact_mod_cast hn
  refine ⟨k, ⟨n, rfl⟩, ?_⟩
  rw [abs_mul, abs_of_pos hpos, zpow_add₀ (by norm_num), zpow_natCast, mul_comm ((2 : ℚ) ^ k)]
  exact mul_lt_mul_of_pos_right hn' hpos

theorem HasBits.onGrid (h : HasBits bits v) : OnGrid (place bits v) v := by
  by_cases hv : v = 0
  · rw [hv]
    exact onGrid_zero _
  · obtain ⟨k, hgrid, hsmall⟩ := h.exists_onGrid
    exact hgrid.mono (place_lt_of_abs_lt hv hsmall)

/-- Points of a grid that are not too large have so many bits. -/
theorem OnGrid.hasBits (h : OnGrid k v) (hbits : 0 < bits) (hle : |v| ≤ 2 ^ (k + bits)) :
    HasBits bits v := by
  obtain ⟨n, rfl⟩ := h
  have hpos : (0 : ℚ) < 2 ^ k := by positivity
  rw [abs_mul, abs_of_pos hpos, zpow_add₀ (by norm_num), zpow_natCast, mul_comm ((2 : ℚ) ^ k)]
    at hle
  have hn : |n| ≤ 2 ^ bits := by
    have hn' : |(n : ℚ)| ≤ 2 ^ bits := le_of_mul_le_mul_right hle hpos
    exact_mod_cast hn'
  rcases hn.lt_or_eq with hlt | heq
  · exact ⟨n, k, hlt, rfl⟩
  · -- The power of two itself: one bit, further up.
    have hone : (1 : ℤ) < 2 ^ bits := one_lt_pow₀ (by norm_num) hbits.ne'
    rcases eq_or_eq_neg_of_abs_eq heq with rfl | rfl
    · refine ⟨1, k + bits, by simpa using hone, ?_⟩
      rw [zpow_add₀ (by norm_num), zpow_natCast]
      push_cast
      ring
    · refine ⟨-1, k + bits, by simpa using hone, ?_⟩
      rw [zpow_add₀ (by norm_num), zpow_natCast]
      push_cast
      ring

theorem HasBits.mono (h : HasBits p v) (hpb : p ≤ b) : HasBits b v := by
  obtain ⟨n, k, hn, hvalue⟩ := h
  exact ⟨n, k, lt_of_lt_of_le hn (pow_le_pow_right₀ (by norm_num) hpb), hvalue⟩

theorem HasBits.neg (h : HasBits bits v) : HasBits bits (-v) := by
  obtain ⟨n, k, hn, rfl⟩ := h
  exact ⟨-n, k, by rwa [abs_neg], by push_cast; ring⟩

/-- A product has as many bits as its factors together. -/
theorem HasBits.mul (hv : HasBits p v) (hw : HasBits b w) : HasBits (p + b) (v * w) := by
  obtain ⟨m, e, hm, rfl⟩ := hv
  obtain ⟨n, f, hn, rfl⟩ := hw
  refine ⟨m * n, e + f, ?_, ?_⟩
  · rw [abs_mul, pow_add]
    exact mul_lt_mul'' hm hn (abs_nonneg m) (abs_nonneg n)
  · rw [zpow_add₀ (by norm_num)]
    push_cast
    ring

/-- A number that has so many bits is not changed. -/
theorem HasBits.roundTo_eq (h : HasBits bits v) : roundTo bits v = v :=
  h.onGrid.roundAt_eq

@[simp]
theorem roundTo_zero (bits : ℕ) : roundTo bits 0 = 0 :=
  roundAt_zero _

theorem ne_zero_of_roundTo_ne (h : roundTo bits v ≠ v) : v ≠ 0 := by
  rintro rfl
  exact h (roundTo_zero bits)

theorem roundTo_neg (bits : ℕ) (v : ℚ) : roundTo bits (-v) = -roundTo bits v := by
  rw [roundTo, place_neg, roundAt_neg, roundTo]

theorem onGrid_roundTo (bits : ℕ) (v : ℚ) : OnGrid (place bits v) (roundTo bits v) :=
  onGrid_roundAt _ _

/-- Rounding moves a number by no more than half of its last place. -/
theorem abs_sub_roundTo_le (bits : ℕ) (v : ℚ) :
    |v - roundTo bits v| ≤ 2 ^ (place bits v - 1) :=
  abs_sub_roundAt_le _ _

/-- Rounding does not leave the powers of two around the number. -/
theorem abs_roundTo_le (bits : ℕ) (v : ℚ) : |roundTo bits v| ≤ 2 ^ (place bits v + bits) :=
  abs_roundAt_le (by omega) (abs_lt_two_zpow bits v).le

/-- Rounding does not go below the leading bit of a number. -/
theorem le_abs_roundTo (hbits : 0 < bits) (hv : v ≠ 0) :
    (2 : ℚ) ^ (place bits v + bits - 1) ≤ |roundTo bits v| :=
  le_abs_roundAt (by omega) (two_zpow_le_abs bits hv)

/-- A rounded number has so many bits, also when it is rounded up to a power of two. -/
theorem hasBits_roundTo (hbits : 0 < bits) (v : ℚ) : HasBits bits (roundTo bits v) :=
  (onGrid_roundTo bits v).hasBits hbits (abs_roundTo_le bits v)

/-- No number with so many bits is nearer. -/
theorem abs_sub_roundTo_le_of_hasBits (hbits : 0 < bits) (hw : HasBits bits w) (v : ℚ) :
    |v - roundTo bits v| ≤ |v - w| := by
  by_cases hv : v = 0
  · simp [hv]
  by_cases hplace : w ≠ 0 ∧ place bits v ≤ place bits w
  · exact (hw.onGrid.mono hplace.2).abs_sub_roundAt_le v
  · -- The other number is smaller, and a power of two lies between.
    have hbetween : |w| < 2 ^ (place bits v + bits - 1) := by
      by_cases hzero : w = 0
      · rw [hzero, abs_zero]
        positivity
      · have hlt : place bits w < place bits v := by
          by_contra hnot
          exact hplace ⟨hzero, not_lt.mp hnot⟩
        exact lt_of_lt_of_le (abs_lt_two_zpow bits w)
          (zpow_le_zpow_right₀ (by norm_num) (by omega))
    have hpower : OnGrid (place bits v) (2 ^ (place bits v + bits - 1)) :=
      onGrid_two_zpow (by omega)
    have hle := two_zpow_le_abs bits hv
    obtain ⟨hwlow, hwhigh⟩ := abs_lt.mp hbetween
    rcases le_total 0 v with hsign | hsign
    · rw [abs_of_nonneg hsign] at hle
      have hnear := hpower.abs_sub_roundAt_le v
      rw [abs_of_nonneg (by linarith : 0 ≤ v - 2 ^ (place bits v + bits - 1))] at hnear
      rw [abs_of_pos (by linarith : 0 < v - w)]
      exact hnear.trans (by linarith)
    · rw [abs_of_nonpos hsign] at hle
      have hnear := hpower.neg.abs_sub_roundAt_le v
      rw [abs_of_nonpos (by linarith : v - -2 ^ (place bits v + bits - 1) ≤ 0)] at hnear
      rw [abs_of_neg (by linarith : v - w < 0)]
      exact hnear.trans (by linarith)

end RoundTo

/-! ## Rounding twice -/

/-- Rounding on a finer grid first does not change the nearest integer, unless it ends in
the middle between two integers without having started there. -/
theorem roundEven_roundAt {j : ℤ} (hj : j < 0)
    (hmiddle : ∀ n : ℤ, roundAt j v = n + 1 / 2 → roundAt j v = v) :
    roundEven (roundAt j v) = roundEven v := by
  have hhalf : ∀ n : ℤ, OnGrid j (n + 1 / 2 : ℚ) := fun n =>
    (OnGrid.mono ⟨2 * n + 1, by rw [zpow_neg_one]; push_cast; ring⟩
      (by omega : j ≤ -1))
  obtain ⟨hlow, hhigh⟩ := abs_le.mp (abs_sub_roundEven_le v)
  have hbelow : (roundEven v : ℚ) - 1 / 2 ≤ roundAt j v := by
    have hgrid := hhalf (roundEven v - 1)
    push_cast at hgrid
    have hmono := roundAt_mono j (by linarith : (roundEven v : ℚ) - 1 + 1 / 2 ≤ v)
    rw [hgrid.roundAt_eq] at hmono
    linarith
  have habove : roundAt j v ≤ roundEven v + 1 / 2 := by
    have hmono := roundAt_mono j (by linarith : v ≤ (roundEven v : ℚ) + 1 / 2)
    rwa [(hhalf (roundEven v)).roundAt_eq] at hmono
  rcases hbelow.lt_or_eq with hlt | heq
  · rcases habove.lt_or_eq with hlt' | heq'
    · exact roundEven_eq (Or.inl (abs_lt.mpr ⟨by linarith, by linarith⟩))
    · rw [hmiddle _ heq']
  · rw [hmiddle (roundEven v - 1) (by push_cast; linarith)]

/-- Rounding to more bits first does no harm unless it ends, away from the number, in the
middle between two numbers with fewer bits. -/
theorem roundTo_roundTo {p b : ℕ} (hp : 0 < p) (hpb : p < b)
    (hmiddle : ∀ n : ℤ, roundTo b v = (n + 1 / 2) * 2 ^ place p v → roundTo b v = v) :
    roundTo p (roundTo b v) = roundTo p v := by
  by_cases hv : v = 0
  · simp [hv]
  have hpos : (0 : ℚ) < 2 ^ place p v := by positivity
  have hplaces : place b v = ((p : ℤ) - b) + place p v := by
    rw [place, place]
    ring
  have hscaled : roundTo b v / 2 ^ place p v = roundAt ((p : ℤ) - b) (v / 2 ^ place p v) := by
    rw [roundTo, hplaces, roundAt_div]
  have hgrid : roundAt (place p v) (roundTo b v) = roundTo p v := by
    rw [roundAt, hscaled, roundEven_roundAt (by omega), roundTo, roundAt]
    intro n hn
    rw [← hscaled] at hn ⊢
    rw [hmiddle n ((div_eq_iff hpos.ne').mp hn)]
  have hlog : place b v + b = place p v + p := by rw [place_add, place_add]
  have hlow := le_abs_roundTo (hp.trans hpb) hv
  have hhigh := abs_roundTo_le b v
  rw [hlog] at hlow hhigh
  rcases hhigh.lt_or_eq with hlt | heq
  · rw [roundTo, place_eq hlow hlt, hgrid]
  · -- The first rounding carried over to a power of two.
    have hon : OnGrid (place p v) (roundTo b v) := by
      apply OnGrid.of_abs
      rw [heq]
      exact onGrid_two_zpow (by omega)
    rw [(hon.hasBits hp heq.le).roundTo_eq, ← hgrid, hon.roundAt_eq]

end Fluxion.Number
