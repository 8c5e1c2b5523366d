import Fluxion.Session.Sampling
import Fluxion.Proofs.Decimal.Shortest
import Fluxion.Proofs.Number.Estimates
import Mathlib.Algebra.Order.Floor.Semifield

/-!
# Where the points of a plot lie

The rule for the points is read over the rational numbers, where nothing is lost but by the
rounding of each point to twelve decimal places.  The points then start at one end of the
interval and are one step apart, and the last one is the one nearest to the other end: it lies
at most half a step before or behind it.

So the points stay on the interval if less than half a step of it is left over behind the last
one that does.  If more is left over, another point is taken, which lies behind the end:
`pointsBetween_rational`.

The program takes these points, each as the nearest `Float`, where the numbers on the way need no
rounding: `points_eq_rational`.
-/

namespace Fluxion.Session

open Fluxion.Decimal Fluxion.Number

/-! ## The reading over the rational numbers -/

/-- The number with so many decimal places that is nearest to a number; of two that are equally
near, the one whose last digit is even. -/
def roundPlaces (places : ℕ) (v : ℚ) : ℚ :=
  roundEven (v * 10 ^ places) / 10 ^ places

/-- The rational numbers are computed with exactly. -/
instance : Samplable ℚ where
  zero := 0
  ofCount n := n
  nearestInteger v := .ok (roundEven v)
  toPlaces := roundPlaces

def pointUnit : ℚ :=
  1 / 10 ^ pointPlaces

variable {v w start stop step : ℚ}

/-- A point is rounded by no more than half a unit of its last place. -/
theorem abs_sub_roundPlaces_le (v : ℚ) : |v - roundPlaces pointPlaces v| ≤ pointUnit / 2 := by
  have hpos : (0 : ℚ) < 10 ^ pointPlaces := by positivity
  have hscale : v - roundPlaces pointPlaces v =
      (v * 10 ^ pointPlaces - roundEven (v * 10 ^ pointPlaces)) / 10 ^ pointPlaces := by
    rw [roundPlaces, sub_div, mul_div_cancel_right₀ _ hpos.ne']
  have hunit : pointUnit / 2 = 1 / 2 / 10 ^ pointPlaces := by
    rw [pointUnit, div_div, div_div, mul_comm]
  rw [hscale, hunit, abs_div, abs_of_pos hpos]
  exact div_le_div_of_nonneg_right (abs_sub_roundEven_le _) hpos.le

/-- A number is rounded down or up, as its fraction says, and a tie as the integer below. -/
theorem roundEven_cases (v : ℚ) :
    (Int.fract v < 1 / 2 ∨ Int.fract v = 1 / 2 ∧ ⌊v⌋ % 2 = 0) ∧ roundEven v = ⌊v⌋ ∨
      ¬ (Int.fract v < 1 / 2 ∨ Int.fract v = 1 / 2 ∧ ⌊v⌋ % 2 = 0) ∧ roundEven v = ⌊v⌋ + 1 := by
  rw [roundEven, Int.self_sub_floor]
  split_ifs with hbelow habove heven
  · exact Or.inl ⟨Or.inl hbelow, rfl⟩
  · exact Or.inr ⟨not_or.mpr ⟨hbelow, fun htie => habove.ne' htie.1⟩, rfl⟩
  · exact Or.inl ⟨Or.inr ⟨le_antisymm (not_lt.mp habove) (not_lt.mp hbelow), heven⟩, rfl⟩
  · exact Or.inr ⟨not_or.mpr ⟨hbelow, fun htie => heven htie.2⟩, rfl⟩

/-! ## The points -/

/-- The points of an interval, once the number of steps is known. -/
theorem pointsBetween_of_steps {α : Type} [Add α] [Sub α] [Mul α] [Div α] [LE α] [LT α]
    [DecidableLE α] [DecidableLT α] [Samplable α] {start stop step : α} {steps : ℤ}
    (hpositive : ¬ step ≤ Samplable.zero) (hordered : ¬ stop < start)
    (hsteps : Samplable.nearestInteger ((stop - start) / step) = .ok steps) :
    pointsBetween start stop step = .ok ((List.range (steps + 1).toNat).map fun i =>
      Samplable.toPlaces pointPlaces (start + Samplable.ofCount i * step)) := by
  rw [pointsBetween, if_neg hpositive, if_neg hordered, hsteps]
  rfl

def stepCount (start stop step : ℚ) : ℕ :=
  (roundEven ((stop - start) / step)).toNat

def pointAt (start step : ℚ) (i : ℕ) : ℚ :=
  roundPlaces pointPlaces (start + i * step)

/-- What is left of the interval behind the last whole step on it, as a part of a step. -/
def leftOver (start stop step : ℚ) : ℚ :=
  Int.fract ((stop - start) / step)

/-- The number of steps is rounded down: less than half a step is left over, or half of one and
the number of whole steps is even. -/
def EndsWithin (start stop step : ℚ) : Prop :=
  leftOver start stop step < 1 / 2 ∨
    leftOver start stop step = 1 / 2 ∧ ⌊(stop - start) / step⌋ % 2 = 0

theorem abs_sub_pointAt_le (start step : ℚ) (i : ℕ) :
    |start + i * step - pointAt start step i| ≤ pointUnit / 2 :=
  abs_sub_roundPlaces_le _

theorem abs_pointAt_succ_sub_le (start step : ℚ) (i : ℕ) :
    |pointAt start step (i + 1) - pointAt start step i - step| ≤ pointUnit := by
  have hthis := abs_le.mp (abs_sub_pointAt_le start step i)
  have hnext := abs_le.mp (abs_sub_pointAt_le start step (i + 1))
  push_cast at hnext
  exact abs_le.mpr ⟨by linarith, by linarith⟩

section Interval

variable (hle : start ≤ stop) (hstep : 0 < step)

include hle hstep

theorem cast_stepCount :
    (stepCount start stop step : ℚ) = roundEven ((stop - start) / step) := by
  have hnonneg : 0 ≤ roundEven ((stop - start) / step) := by
    rw [← roundEven_intCast 0]
    exact roundEven_mono (by rw [Int.cast_zero]; exact div_nonneg (sub_nonneg.mpr hle) hstep.le)
  rw [stepCount]
  exact_mod_cast Int.toNat_of_nonneg hnonneg

/-- Where the last point lies before it is rounded: in front of the end by what is left over, or
behind it by what is missing of a step. -/
theorem start_add_stepCount_mul :
    EndsWithin start stop step ∧
        start + stepCount start stop step * step = stop - leftOver start stop step * step ∨
      ¬ EndsWithin start stop step ∧
        start + stepCount start stop step * step =
          stop + (1 - leftOver start stop step) * step := by
  have hstop : (stop - start) / step * step = stop - start := div_mul_cancel₀ _ hstep.ne'
  have hsplit := Int.floor_add_fract ((stop - start) / step)
  rw [← hsplit, add_mul] at hstop
  rw [cast_stepCount hle hstep, EndsWithin, leftOver]
  rcases roundEven_cases ((stop - start) / step) with ⟨hwithin, hround⟩ | ⟨hbeyond, hround⟩
  · refine Or.inl ⟨hwithin, ?_⟩
    rw [hround]
    linarith
  · refine Or.inr ⟨hbeyond, ?_⟩
    rw [hround]
    push_cast
    linarith

theorem toNat_steps_succ :
    (roundEven ((stop - start) / step) + 1).toNat = stepCount start stop step + 1 := by
  have hcast : (stepCount start stop step : ℤ) = roundEven ((stop - start) / step) := by
    exact_mod_cast cast_stepCount hle hstep
  omega

/-- Over the rational numbers the rule gives one point for each step and one more. -/
theorem pointsBetween_eq_ok :
    pointsBetween start stop step =
      .ok ((List.range (stepCount start stop step + 1)).map (pointAt start step)) := by
  have hpositive : ¬ step ≤ Samplable.zero := not_le.mpr hstep
  rw [pointsBetween_of_steps hpositive (not_lt.mpr hle) rfl, toNat_steps_succ hle hstep]
  rfl

/-- The last point lies at most half a step from the end, before it is rounded. -/
theorem abs_last_sub_stop_le : |start + stepCount start stop step * step - stop| ≤ step / 2 := by
  have hnear := abs_sub_roundEven_le ((stop - start) / step)
  have hscale : start + stepCount start stop step * step - stop =
      -(((stop - start) / step - roundEven ((stop - start) / step)) * step) := by
    rw [cast_stepCount hle hstep, sub_mul, div_mul_cancel₀ _ hstep.ne']
    ring
  have hhalf : step / 2 = 1 / 2 * step := by ring
  rw [hscale, abs_neg, abs_mul, abs_of_pos hstep, hhalf]
  exact mul_le_mul_of_nonneg_right hnear hstep.le

end Interval

/-- The points that are no more steps away than the last one lie between it and the start. -/
theorem bounds_of_mem_points {p : ℚ} (hstep : 0 < step) {n : ℕ}
    (hp : p ∈ (List.range (n + 1)).map (pointAt start step)) :
    start - pointUnit / 2 ≤ p ∧ p ≤ start + n * step + pointUnit / 2 := by
  obtain ⟨i, hi, rfl⟩ := List.mem_map.mp hp
  have hin : (i : ℚ) ≤ n := by exact_mod_cast Nat.lt_succ_iff.mp (List.mem_range.mp hi)
  have hnear := abs_le.mp (abs_sub_pointAt_le start step i)
  have hfirst : 0 ≤ i * step := by positivity
  have hlast : i * step ≤ n * step := mul_le_mul_of_nonneg_right hin hstep.le
  exact ⟨by linarith, by linarith⟩

/-- Over the rational numbers the points of an interval start at its start and are one step
apart, up to the rounding of the points.  They lie on the interval, and the last one lies less
than a step before its end, if the number of steps is rounded down.  Otherwise the last point
lies behind the end, by what is missing of a step. -/
theorem pointsBetween_rational (hle : start ≤ stop) (hstep : 1 / 10 ^ 11 ≤ step) :
    ∃ points last, pointsBetween start stop step = .ok points ∧
      points.head? = some (roundPlaces pointPlaces start) ∧ points.getLast? = some last ∧
      points.IsChain (fun p q => p < q ∧ |q - p - step| ≤ pointUnit) ∧
      (∀ p ∈ points, start - pointUnit / 2 ≤ p ∧ p ≤ stop + step / 2 + pointUnit / 2) ∧
      stop - step < last ∧
      (EndsWithin start stop step →
        (∀ p ∈ points, p ≤ stop + pointUnit / 2) ∧
        |last - (stop - leftOver start stop step * step)| ≤ pointUnit / 2) ∧
      (¬ EndsWithin start stop step →
        |last - (stop + (1 - leftOver start stop step) * step)| ≤ pointUnit / 2) := by
  have hunit : 2 * pointUnit < step := lt_of_lt_of_le (by norm_num [pointUnit, pointPlaces]) hstep
  have hpos : 0 < step := lt_of_lt_of_le (by norm_num) hstep
  have hend := abs_le.mp (abs_last_sub_stop_le hle hpos)
  have hlast := abs_sub_pointAt_le start step (stepCount start stop step)
  rw [abs_sub_comm] at hlast
  have hwhere := start_add_stepCount_mul hle hpos
  have hleft : 0 ≤ leftOver start stop step * step :=
    mul_nonneg (Int.fract_nonneg _) hpos.le
  refine ⟨_, pointAt start step (stepCount start stop step), pointsBetween_eq_ok hle hpos,
    ?_, ?_, ?_, fun p hp => ?_, ?_, fun hwithin => ⟨fun p hp => ?_, ?_⟩, fun hbeyond => ?_⟩
  · simp [List.head?_range, pointAt]
  · simp [List.getLast?_range]
  · rw [List.isChain_map, List.isChain_range_succ]
    intro i _
    have hapart := abs_pointAt_succ_sub_le start step i
    exact ⟨by linarith [(abs_le.mp hapart).1], hapart⟩
  · obtain ⟨hlow, hhigh⟩ := bounds_of_mem_points hpos hp
    exact ⟨hlow, by linarith [hend.2]⟩
  · linarith [hend.1, (abs_le.mp hlast).1]
  · have hfinal := (hwhere.resolve_right fun h => h.1 hwithin).2
    linarith [(bounds_of_mem_points hpos hp).2]
  · rwa [← (hwhere.resolve_right fun h => h.1 hwithin).2]
  · rwa [← (hwhere.resolve_left fun h => hbeyond h.1).2]

/-- From 0 to 1 in steps of 3/10 a third of a step is left over. -/
theorem pointsBetween_rational_tenths :
    (0 : ℚ) ≤ 1 ∧ (1 / 10 ^ 11 : ℚ) ≤ 3 / 10 ∧ EndsWithin 0 1 (3 / 10) ∧
      ∃ points, pointsBetween (0 : ℚ) 1 (3 / 10) = .ok points ∧
        ∀ p ∈ points, p ≤ 1 + pointUnit / 2 := by
  have hstep : (1 / 10 ^ 11 : ℚ) ≤ 3 / 10 := by norm_num
  have hwithin : EndsWithin 0 1 (3 / 10) := by
    left
    rw [leftOver, Int.fract]
    norm_num
  obtain ⟨points, last, hpoints, -, -, -, -, -, hinside, -⟩ :=
    pointsBetween_rational zero_le_one hstep
  exact ⟨zero_le_one, hstep, hwithin, points, hpoints, (hinside hwithin).1⟩

/-- From 0 to 1 in steps of 0.6 two thirds of a step are left over, and the last point is 1.2. -/
theorem not_within_of_largeRest :
    Sampling.points ⟨0.0, 1.0, 0.6⟩ = .ok [0.0, 0.6, 1.2] ∧ (1.0 : Float) < 1.2 := by
  constructor
  · decide +kernel
  · decide

/-! ## The reading over `Float` -/

section Program

variable {x : Float}

/-- Cutting off the places of an integer gives the integer. -/
theorem truncate_of_floatValue {n : ℤ} (h : floatValue x = .finite n) : truncate x = n := by
  rw [floatValue] at h
  rw [truncate]
  cases hx : Binary64.ofFloat x with
  | nan | infinite negative =>
      rw [hx] at h
      cases h
  | finite negative m e =>
      rw [hx] at h
      have hvalue := Value.finite.inj h
      obtain ⟨hd, hquotient⟩ := quotient_spec m e
      have hfloor : (Binary64.quotient m e).1 / (Binary64.quotient m e).2 =
          ⌊(m : ℚ) * 2 ^ e⌋₊ := by
        rw [← hquotient, Nat.floor_div_eq_div]
      have hpos : (0 : ℚ) ≤ m * 2 ^ e := by positivity
      simp only [hfloor]
      cases negative with
      | false =>
          have hsize : (m : ℚ) * 2 ^ e = n := hvalue
          rw [hsize] at hpos ⊢
          rw [if_neg Bool.false_ne_true, ← Int.floor_toNat, Int.floor_intCast]
          exact Int.toNat_of_nonneg (by exact_mod_cast hpos)
      | true =>
          have hsize : (m : ℚ) * 2 ^ e = (-n : ℤ) := by
            rw [Int.cast_neg, ← hvalue]
            simp [Wide.signed]
          rw [hsize] at hpos ⊢
          rw [if_pos rfl, ← Int.floor_toNat, Int.floor_intCast,
            Int.toNat_of_nonneg (by exact_mod_cast hpos), neg_neg]

/-- A `Float` is rounded to decimal places as its value is. -/
theorem floatValue_toPlaces (places : ℕ) (h : floatValue x = .finite v) :
    floatValue (toPlaces places x) = rounded (roundPlaces places v) := by
  rw [floatValue] at h
  cases hx : Binary64.ofFloat x with
  | nan | infinite negative =>
      rw [hx] at h
      cases h
  | finite negative m e =>
      rw [hx] at h
      obtain rfl := Value.finite.inj h
      obtain ⟨hd, hquotient⟩ := quotient_spec m e
      have hten : 0 < Nat.pow 10 places := Nat.pow_pos (by norm_num)
      simp only [toPlaces, hx]
      rw [floatValue_nearest _ _ hten]
      have hsize : (Wide.signed negative ((Binary64.quotient m e).1 * Nat.pow 10 places) : ℚ) /
          (Binary64.quotient m e).2 = Wide.signed negative m * 2 ^ e * 10 ^ places := by
        cases negative <;> simp [Wide.signed, neg_div, mul_div_right_comm, hquotient]
      rw [signed_divNearest negative _ hd, hsize, roundPlaces]
      simp

/-- The nearest integer to a `Float` is found. -/
theorem nearestInteger_of_floatValue (h : floatValue x = .finite v) :
    nearestInteger x = .ok (roundEven v) := by
  have hnan : ¬ x.isNaN = true := by
    rw [isNaN_iff_floatValue_eq, h]
    rintro ⟨⟩
  have hinfinite : ¬ x.isInf = true := by
    rw [isInf_iff_floatValue_eq, h]
    rintro ⟨_, ⟨⟩⟩
  have hplaces : roundPlaces 0 v = roundEven v := by
    rw [roundPlaces, pow_zero, mul_one, div_one]
  have hvalue := floatValue_toPlaces 0 h
  rw [hplaces, rounded_roundEven h] at hvalue
  rw [nearestInteger, if_neg hnan, if_neg hinfinite, truncate_of_floatValue hvalue]

/-- Rounding to a `Float` leaves the number alone. -/
def IsFloat (v : ℚ) : Prop :=
  rounded v = .finite v

/-- The numbers that are computed on the way to the points are `Float`s.  The number of steps need
not be one before it is rounded. -/
structure Exact (start stop step : ℚ) : Prop where
  length : IsFloat (stop - start)
  steps : ∃ r, rounded ((stop - start) / step) = .finite r ∧
    roundEven r = roundEven ((stop - start) / step)
  count : ∀ i ≤ stepCount start stop step, IsFloat i
  distance : ∀ i ≤ stepCount start stop step, IsFloat (i * step)
  point : ∀ i ≤ stepCount start stop step, IsFloat (start + i * step)

theorem isFloat_intCast {n : ℤ} (h : |n| ≤ 2 ^ 53) : IsFloat n :=
  rounded_intCast h

/-- Between integers of moderate size nothing is rounded, if the step divides their distance. -/
theorem exact_intCast {a b k : ℤ} (ha : |a| ≤ 2 ^ 52) (hb : |b| ≤ 2 ^ 52) (hle : a ≤ b) (hk : 0 < k)
    (hdvd : k ∣ b - a) : Exact a b k := by
  obtain ⟨n, hn⟩ := hdvd
  obtain ⟨halow, hahigh⟩ := abs_le.mp ha
  obtain ⟨hblow, hbhigh⟩ := abs_le.mp hb
  have hlength : IsFloat ((b : ℚ) - a) := by
    rw [← Int.cast_sub]
    exact isFloat_intCast (abs_le.mpr ⟨by omega, by omega⟩)
  have hratio : ((b : ℚ) - a) / k = n := by
    rw [← Int.cast_sub, hn, Int.cast_mul, mul_div_cancel_left₀ _ (Int.cast_ne_zero.mpr hk.ne')]
  have hnonneg : 0 ≤ n := nonneg_of_mul_nonneg_right (hn ▸ sub_nonneg.mpr hle) hk
  have hnk : n ≤ b - a := hn ▸ le_mul_of_one_le_left hnonneg hk
  have hreach : ∀ i ≤ stepCount (a : ℚ) b k, (i : ℤ) ≤ n ∧ (i : ℤ) * k ≤ b - a := by
    intro i hi
    rw [stepCount, hratio, roundEven_intCast] at hi
    have hin : (i : ℤ) ≤ n := by omega
    rw [hn, mul_comm k]
    exact ⟨hin, mul_le_mul_of_nonneg_right hin hk.le⟩
  have hsize : ∀ i : ℕ, 0 ≤ (i : ℤ) * k := fun i => by positivity
  refine ⟨hlength, ⟨n, ?_, ?_⟩, fun i hi => ?_, fun i hi => ?_, fun i hi => ?_⟩
  · rw [hratio]
    exact isFloat_intCast (abs_le.mpr ⟨by omega, by omega⟩)
  · rw [hratio]
  · have hin := (hreach i hi).1
    exact_mod_cast isFloat_intCast (n := i) (abs_le.mpr ⟨by omega, by omega⟩)
  · have hik := (hreach i hi).2
    have hpos := hsize i
    exact_mod_cast isFloat_intCast (n := i * k) (abs_le.mpr ⟨by omega, by omega⟩)
  · have hik := (hreach i hi).2
    have hpos := hsize i
    exact_mod_cast isFloat_intCast (n := a + i * k) (abs_le.mpr ⟨by omega, by omega⟩)

theorem floatValue_ofCount {i : ℕ} (h : IsFloat i) :
    floatValue (Samplable.ofCount i : Float) = .finite i := by
  have hnearest := floatValue_nearest false i one_pos
  rw [Nat.cast_one, div_one] at hnearest
  exact hnearest.trans h

variable {sampling : Sampling}

/-- Where the numbers on the way are `Float`s, the program takes the points over the rational
numbers, each as the nearest `Float`. -/
theorem points_eq_rational (hstart : floatValue sampling.start = .finite start)
    (hstop : floatValue sampling.stop = .finite stop)
    (hstep : floatValue sampling.step = .finite step) (hle : start ≤ stop) (hpos : 0 < step)
    (hexact : Exact start stop step) :
    ∃ points values, sampling.points = .ok points ∧ pointsBetween start stop step = .ok values ∧
      points.map floatValue = values.map rounded := by
  obtain ⟨r, hr, hround⟩ := hexact.steps
  have hpositive : ¬ sampling.step ≤ (Samplable.zero : Float) := by
    have hzero : floatValue (Samplable.zero : Float) = .finite 0 := floatValue_zero
    rw [le_iff_value_le, hstep, hzero]
    exact not_le.mpr hpos
  have hordered : ¬ sampling.stop < sampling.start := by
    apply not_float_lt_of_le
    rw [le_iff_value_le, hstart, hstop]
    exact hle
  have hlength : floatValue (sampling.stop - sampling.start) = .finite (stop - start) :=
    (floatValue_sub hstop hstart).trans hexact.length
  have hratio : floatValue ((sampling.stop - sampling.start) / sampling.step) = .finite r :=
    (floatValue_div hlength hstep hpos.ne').trans hr
  have hsteps : nearestInteger ((sampling.stop - sampling.start) / sampling.step) =
      .ok (roundEven ((stop - start) / step)) := by
    rw [nearestInteger_of_floatValue hratio, hround]
  have hpoint : ∀ i ∈ List.range (stepCount start stop step + 1),
      floatValue (toPlaces pointPlaces (sampling.start + Samplable.ofCount i * sampling.step)) =
        rounded (pointAt start step i) := by
    intro i hi
    have hlast : i ≤ stepCount start stop step := Nat.lt_succ_iff.mp (List.mem_range.mp hi)
    have hcount := floatValue_ofCount (hexact.count i hlast)
    have hdistance := (floatValue_mul hcount hstep).trans (hexact.distance i hlast)
    exact floatValue_toPlaces _ ((floatValue_add hstart hdistance).trans (hexact.point i hlast))
  refine ⟨_, _, pointsBetween_of_steps hpositive hordered hsteps, pointsBetween_eq_ok hle hpos, ?_⟩
  rw [toNat_steps_succ hle hpos, List.map_map, List.map_map]
  exact List.map_congr_left hpoint

end Program

end Fluxion.Session
