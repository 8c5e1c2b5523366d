import Fluxion.Decimal.Layout
import Fluxion.Proofs.Decimal.Scan
import Fluxion.Proofs.Decimal.Shortest
import Mathlib.Data.List.Basic

/-!
# The texts of numbers are numerals

A natural number reads back from its digits.  The text of `Digits` is a numeral with a
point or an exponent, and the numeral stands for the same number: zeros that are dropped
at the end or put in on either side move the point.
-/

namespace Fluxion.Decimal

open Fluxion.Number Fluxion.Text

/-! ## Digits -/

theorem isAsciiDigit_of_isDigit {c : Char} (h : c.isDigit = true) : isAsciiDigit c = true := by
  simpa [isAsciiDigit, Char.isDigit, Char.le_def] using h

theorem isAsciiDigit_of_mem_digitChars {n : Nat} :
    ∀ c ∈ digitChars n, isAsciiDigit c = true :=
  fun _ hc => isAsciiDigit_of_isDigit (Nat.isDigit_of_mem_toDigits (by decide) (by decide) hc)

theorem digitChars_ne_nil (n : Nat) : digitChars n ≠ [] :=
  Nat.toDigits_ne_nil

namespace Numeral

theorem natOfDigits_eq_ofDigitChars {digits : List Char}
    (h : ∀ c ∈ digits, isAsciiDigit c = true) :
    natOfDigits digits = Nat.ofDigitChars 10 digits 0 := by
  rw [natOfDigits, Nat.ofDigitChars_eq_foldl]
  apply List.foldl_ext
  intro n c hc
  rw [asciiDigitValue, if_pos (h c hc)]
  rfl

theorem natOfDigits_zero_cons (digits : List Char) :
    natOfDigits ('0' :: digits) = natOfDigits digits :=
  rfl

theorem natOfDigits_append (cs ds : List Char) :
    natOfDigits (cs ++ ds) = natOfDigits cs * 10 ^ ds.length + natOfDigits ds := by
  have hfrom : ∀ n, ds.foldl (fun n c => 10 * n + asciiDigitValue c) n =
      n * 10 ^ ds.length + natOfDigits ds := by
    induction ds with
    | nil => simp [natOfDigits]
    | cons d ds ih =>
        intro n
        rw [natOfDigits, List.foldl_cons, List.foldl_cons, ih, ih, List.length_cons, Nat.pow_succ]
        ring
  rw [natOfDigits, List.foldl_append]
  exact hfrom _

theorem natOfDigits_zeros (k : Nat) : natOfDigits (List.replicate k '0') = 0 := by
  induction k with
  | zero => rfl
  | succ k ih => rw [List.replicate_succ, natOfDigits_zero_cons, ih]

/-- The digits of a number denote it. -/
theorem natOfDigits_digitChars (n : Nat) : natOfDigits (digitChars n) = n := by
  rw [natOfDigits_eq_ofDigitChars isAsciiDigit_of_mem_digitChars]
  exact Nat.ofDigitChars_ten_toDigits

end Numeral

/-- Only zero is written with a zero in front. -/
theorem eq_zero_of_digitChars_zero {n : Nat} {rest : List Char}
    (h : digitChars n = '0' :: rest) : n = 0 := by
  rw [digitChars] at h
  induction n using Nat.base_induction 10 (by decide) generalizing rest with
  | single m hm =>
      rw [Nat.toDigits_of_lt_base hm] at h
      have hdigit : m.digitChar.toNat = '0'.toNat := congrArg Char.toNat (List.cons.inj h).1
      have hzero : '0'.toNat = 48 := rfl
      rw [Nat.toNat_digitChar_of_lt_ten hm] at hdigit
      omega
  | digit m k hk hm ih =>
      rw [← Nat.toDigits_append_toDigits (by decide) hm hk] at h
      cases hdigits : Nat.toDigits 10 m with
      | nil => exact absurd hdigits Nat.toDigits_ne_nil
      | cons d ds =>
          rw [hdigits] at h
          obtain rfl : d = '0' := (List.cons.inj h).1
          exact absurd (ih hdigits) (Nat.ne_of_gt hm)

/-! ## Numerals -/

/-- The number that a numeral stands for, before it is rounded. -/
def Numeral.exact (x : Numeral) : ℚ :=
  x.mantissa * 10 ^ x.scale

/-- A text of a `Float`: a numeral that starts with a digit and is no whole number. -/
def IsFloatNumeral (x : Numeral) : Prop :=
  x.WellFormed ∧ x.whole ≠ [] ∧ (x.fraction.isSome ∨ x.exponent.isSome)

/-- The text is such a numeral for the number. -/
def Writes (text : List Char) (v : ℚ) : Prop :=
  ∃ x, IsFloatNumeral x ∧ text = x.text ∧ x.exact = v

theorem writes_point {whole fraction : List Char}
    (hwhole : ∀ c ∈ whole, isAsciiDigit c = true) (hnonempty : whole ≠ [])
    (hfraction : ∀ c ∈ fraction, isAsciiDigit c = true) :
    Writes (whole ++ '.' :: fraction)
      (Numeral.natOfDigits (whole ++ fraction) * 10 ^ (-(fraction.length : Int))) := by
  refine ⟨⟨whole, some fraction, none⟩, ⟨⟨hwhole, ?_, by simp, Or.inl hnonempty⟩, hnonempty,
    Or.inl rfl⟩, ?_, ?_⟩
  · rintro digits hdigits
    obtain rfl : fraction = digits := Option.some.inj hdigits
    exact hfraction
  · simp [Numeral.text, Numeral.fractionChars, Numeral.exponentChars]
  · simp [Numeral.exact, Numeral.mantissa, Numeral.scale]

/-! ## Layout -/

/-- The exponent that `exponentText` writes. -/
def exponentPart (exponent : Int) : ExponentPart where
  letter := 'e'
  sign := some (if exponent < 0 then '-' else '+')
  digits :=
    if (digitChars exponent.natAbs).length < 2 then '0' :: digitChars exponent.natAbs
    else digitChars exponent.natAbs

theorem exponentText_eq (exponent : Int) :
    exponentText exponent = Numeral.exponentChars (some (exponentPart exponent)) := by
  simp [exponentText, Numeral.exponentChars, exponentPart]

theorem exponentPart_wellFormed (exponent : Int) :
    Numeral.ExponentWellFormed (exponentPart exponent) where
  letter := rfl
  sign := by
    intro c hc
    obtain rfl : (if exponent < 0 then '-' else '+') = c := by simpa [exponentPart] using hc
    split_ifs <;> simp
  digits := by
    intro c hc
    simp only [exponentPart] at hc
    split_ifs at hc
    · rcases List.mem_cons.mp hc with rfl | hc
      · decide
      · exact isAsciiDigit_of_mem_digitChars c hc
    · exact isAsciiDigit_of_mem_digitChars c hc
  nonempty := by
    simp only [exponentPart]
    split_ifs
    · exact List.cons_ne_nil _ _
    · exact digitChars_ne_nil _

theorem isAsciiDigit_of_mem_zeros {n : Nat} :
    ∀ c ∈ List.replicate n '0', isAsciiDigit c = true := by
  intro c hc
  obtain rfl : c = '0' := List.eq_of_mem_replicate hc
  decide

theorem isAsciiDigit_of_mem_zero : ∀ c ∈ ['0'], isAsciiDigit c = true :=
  List.forall_mem_singleton.mpr rfl

/-- Digits and more digits are digits. -/
theorem isAsciiDigit_of_mem_append {cs ds : List Char} (hcs : ∀ c ∈ cs, isAsciiDigit c = true)
    (hds : ∀ c ∈ ds, isAsciiDigit c = true) : ∀ c ∈ cs ++ ds, isAsciiDigit c = true := by
  intro c hc
  rcases List.mem_append.mp hc with hc | hc
  · exact hcs c hc
  · exact hds c hc

theorem exponentValue_exponentPart (exponent : Int) :
    Numeral.exponentValue (exponentPart exponent) = exponent := by
  have hdigits : Numeral.natOfDigits (exponentPart exponent).digits = exponent.natAbs := by
    simp only [exponentPart]
    split_ifs
    · rw [Numeral.natOfDigits_zero_cons, Numeral.natOfDigits_digitChars]
    · rw [Numeral.natOfDigits_digitChars]
  rw [Numeral.exponentValue, hdigits]
  by_cases hnegative : exponent < 0
  · rw [if_pos (by simp [exponentPart, hnegative])]
    omega
  · rw [if_neg (by simp [exponentPart, hnegative])]
    omega

/-- The number of digits with one digit in front of the point and an exponent. -/
def scientificValue (digits : List Char) (exponent : Int) : ℚ :=
  Numeral.natOfDigits digits * 10 ^ (exponent + 1 - digits.length)

/-- Zeros in front of the point multiply by powers of ten. -/
theorem writes_whole {digits : List Char} {k : Nat} (hdigits : ∀ c ∈ digits, isAsciiDigit c = true)
    (hnonempty : digits ++ List.replicate k '0' ≠ []) :
    Writes (digits ++ List.replicate k '0' ++ ['.', '0'])
      (Numeral.natOfDigits digits * 10 ^ (k : Int)) := by
  have hwrites := writes_point (isAsciiDigit_of_mem_append hdigits (@isAsciiDigit_of_mem_zeros k))
    hnonempty isAsciiDigit_of_mem_zero
  have hnumber : Numeral.natOfDigits (digits ++ List.replicate k '0' ++ ['0']) =
      Numeral.natOfDigits digits * 10 ^ (k + 1) := by
    rw [Numeral.natOfDigits_append, Numeral.natOfDigits_append, Numeral.natOfDigits_zeros,
      Numeral.natOfDigits_zero_cons, List.length_replicate, Nat.pow_succ, ← Nat.mul_assoc]
    rfl
  have hscale : ((10 ^ (k + 1) : Nat) : ℚ) * 10 ^ (-(['0'].length : Int)) = 10 ^ (k : Int) := by
    rw [Nat.cast_pow, ← zpow_natCast, Nat.cast_ofNat, ← zpow_add₀ (by norm_num)]
    congr 1
    simp
  rw [hnumber, Nat.cast_mul, mul_assoc, hscale] at hwrites
  exact hwrites

/-- Zeros behind the point divide by powers of ten. -/
theorem writes_belowOne {digits : List Char} {k : Nat}
    (hdigits : ∀ c ∈ digits, isAsciiDigit c = true) :
    Writes ('0' :: '.' :: List.replicate k '0' ++ digits)
      (Numeral.natOfDigits digits * 10 ^ (-(k : Int) - digits.length)) := by
  have hwrites := writes_point isAsciiDigit_of_mem_zero (by simp)
    (isAsciiDigit_of_mem_append (@isAsciiDigit_of_mem_zeros k) hdigits)
  have hindex : -((k + digits.length : Nat) : Int) = -(k : Int) - digits.length := by omega
  rw [List.singleton_append, List.singleton_append, Numeral.natOfDigits_zero_cons,
    Numeral.natOfDigits_append, Numeral.natOfDigits_zeros, Nat.zero_mul, Nat.zero_add,
    List.length_append, List.length_replicate, hindex] at hwrites
  exact hwrites

/-- With the point in its place the digits stand for their number. -/
theorem writes_positionalForm {digits : List Char} (exponent : Int)
    (hdigits : ∀ c ∈ digits, isAsciiDigit c = true) :
    Writes (positionalForm digits exponent) (scientificValue digits exponent) := by
  simp only [positionalForm, scientificValue]
  split_ifs with hnegative hlength
  · have hindex : -((-exponent - 1).toNat : Int) - digits.length =
        exponent + 1 - digits.length := by
      omega
    rw [← hindex]
    exact writes_belowOne hdigits
  · have hindex : ((exponent.toNat + 1 - digits.length : Nat) : Int) =
        exponent + 1 - digits.length := by
      omega
    rw [← hindex]
    apply writes_whole hdigits
    intro hnil
    have hlength' := congrArg List.length hnil
    simp only [List.length_append, List.length_replicate, List.length_nil] at hlength'
    omega
  · have hnonempty : digits.take (exponent.toNat + 1) ≠ [] := by
      intro hnil
      have hlength' := congrArg List.length hnil
      simp only [List.length_take, List.length_nil] at hlength'
      omega
    have hfraction : ∀ c ∈ digits.drop (exponent.toNat + 1), isAsciiDigit c = true :=
      fun c hc => hdigits c (List.mem_of_mem_drop hc)
    have hwrites := writes_point (fun c hc => hdigits c (List.mem_of_mem_take hc)) hnonempty
      hfraction
    have hindex : -((digits.length - (exponent.toNat + 1) : Nat) : Int) =
        exponent + 1 - digits.length := by
      omega
    rw [List.take_append_drop, List.length_drop, hindex] at hwrites
    exact hwrites

/-- With an exponent the digits stand for their number. -/
theorem writes_scientificForm {digits : List Char} (exponent : Int)
    (hdigits : ∀ c ∈ digits, isAsciiDigit c = true) (hnonempty : digits ≠ []) :
    Writes (scientificForm digits exponent) (scientificValue digits exponent) := by
  have hexponent : ∀ e ∈ some (exponentPart exponent), Numeral.ExponentWellFormed e := by
    intro e he
    obtain rfl : exponentPart exponent = e := Option.some.inj he
    exact exponentPart_wellFormed exponent
  match digits with
  | [] => exact absurd rfl hnonempty
  | [d] =>
      refine ⟨⟨[d], none, some (exponentPart exponent)⟩, ?_, ?_, ?_⟩
      · exact ⟨⟨hdigits, by simp, hexponent, Or.inl (by simp)⟩, by simp, Or.inr rfl⟩
      · simp [scientificForm, exponentText_eq, Numeral.text, Numeral.fractionChars]
      · simp [Numeral.exact, Numeral.mantissa, Numeral.scale, scientificValue,
          exponentValue_exponentPart]
  | d :: d' :: rest =>
      refine ⟨⟨[d], some (d' :: rest), some (exponentPart exponent)⟩, ?_, ?_, ?_⟩
      · refine ⟨⟨?_, ?_, hexponent, Or.inl (by simp)⟩, by simp, Or.inr rfl⟩
        · intro c hc
          obtain rfl : c = d := List.mem_singleton.mp hc
          exact hdigits c List.mem_cons_self
        · rintro fraction hfraction c hc
          obtain rfl : d' :: rest = fraction := Option.some.inj hfraction
          exact hdigits c (List.mem_cons_of_mem d hc)
      · simp [scientificForm, exponentText_eq, Numeral.text, Numeral.fractionChars]
      · have hindex : exponent - ((d' :: rest).length : Int) =
            exponent + 1 - (d :: d' :: rest).length := by
          simp only [List.length_cons]
          omega
        simp only [Numeral.exact, Numeral.mantissa, Numeral.scale, scientificValue,
          exponentValue_exponentPart, Option.getD_some, hindex, List.singleton_append]

/-- Only zeros are dropped. -/
theorem trimZeros_append (digits : List Char) :
    ∃ k, trimZeros digits ++ List.replicate k '0' = digits := by
  refine ⟨(digits.reverse.takeWhile (· == '0')).length, ?_⟩
  have hzeros : digits.reverse.takeWhile (· == '0') =
      List.replicate (digits.reverse.takeWhile (· == '0')).length '0' := by
    apply List.eq_replicate_of_mem
    intro c hc
    have hzero := List.mem_takeWhile_imp hc
    exact beq_iff_eq.mp hzero
  apply List.reverse_injective
  rw [List.reverse_append, List.reverse_replicate, ← hzeros, trimZeros, List.reverse_reverse]
  exact List.takeWhile_append_dropWhile

/-- The text of a positive number is a numeral for it. -/
theorem Digits.writes_text (x : Digits) (hpos : 0 < x.digits) : Writes x.text x.value := by
  obtain ⟨k, hk⟩ := trimZeros_append (digitChars x.digits)
  have hdigits : ∀ c ∈ trimZeros (digitChars x.digits), isAsciiDigit c = true := by
    intro c hc
    apply isAsciiDigit_of_mem_digitChars c
    rw [← hk]
    exact List.mem_append_left _ hc
  have hnumber : Numeral.natOfDigits (trimZeros (digitChars x.digits)) * 10 ^ k = x.digits := by
    have hall := Numeral.natOfDigits_digitChars x.digits
    rw [← hk, Numeral.natOfDigits_append, Numeral.natOfDigits_zeros, List.length_replicate] at hall
    exact hall
  have hlength : (digitChars x.digits).length = (trimZeros (digitChars x.digits)).length + k := by
    rw [← List.length_replicate (a := '0') (n := k), ← List.length_append, hk]
  have hvalue : scientificValue (trimZeros (digitChars x.digits))
      (x.exponent + (digitChars x.digits).length - 1) = x.value := by
    have hindex : x.exponent + ((digitChars x.digits).length : Int) - 1 + 1 -
        (trimZeros (digitChars x.digits)).length = k + x.exponent := by
      omega
    have hcast : (Numeral.natOfDigits (trimZeros (digitChars x.digits)) : ℚ) * 10 ^ k =
        x.digits := by
      exact_mod_cast hnumber
    rw [scientificValue, hindex, zpow_add₀ (by norm_num), zpow_natCast, ← mul_assoc, hcast,
      Digits.value]
  have hnonempty : trimZeros (digitChars x.digits) ≠ [] := by
    intro hnil
    rw [hnil] at hnumber
    have hzero : Numeral.natOfDigits [] = 0 := rfl
    rw [hzero, Nat.zero_mul] at hnumber
    omega
  rw [← hvalue]
  simp only [Digits.text]
  split_ifs
  · exact writes_positionalForm _ hdigits
  · exact writes_scientificForm _ hdigits hnonempty

end Fluxion.Decimal
