import Fluxion.Decimal.Numeral
import Mathlib.Data.List.TakeWhile
import Mathlib.Tactic.Common

/-!
# Scanning numerals

The scanner is the grammar of numerals: what it reads is well formed, and a well-formed
numeral is read to its end wherever nothing behind it goes on with it.
-/

namespace Fluxion.Decimal

open Fluxion.Text

/-- No character of the class stands at the front. -/
def Stops (p : Char → Bool) : List Char → Prop
  | [] => True
  | c :: _ => p c = false

theorem Stops.mono {p q : Char → Bool} {cs : List Char} (h : Stops q cs)
    (himp : ∀ c, p c = true → q c = true) : Stops p cs := by
  cases cs with
  | nil => trivial
  | cons c cs =>
      have hc : q c = false := h
      by_contra hp
      have hp' : p c = true := by simpa [Stops] using hp
      rw [himp c hp'] at hc
      exact absurd hc (by decide)

theorem Stops.takeWhile_append {p : Char → Bool} {cs rest : List Char}
    (hcs : ∀ c ∈ cs, p c = true) (hrest : Stops p rest) : (cs ++ rest).takeWhile p = cs := by
  rw [List.takeWhile_append_of_pos hcs]
  cases rest with
  | nil => simp
  | cons c rest =>
      have hc : p c = false := hrest
      simp [hc]

theorem Stops.dropWhile_append {p : Char → Bool} {cs rest : List Char}
    (hcs : ∀ c ∈ cs, p c = true) (hrest : Stops p rest) : (cs ++ rest).dropWhile p = rest := by
  rw [List.dropWhile_append_of_pos hcs]
  cases rest with
  | nil => rfl
  | cons c rest =>
      have hc : p c = false := hrest
      simp [hc]

theorem stops_dropWhile (p : Char → Bool) (cs : List Char) : Stops p (cs.dropWhile p) := by
  induction cs with
  | nil => trivial
  | cons c cs ih =>
      by_cases hc : p c = true
      · rw [List.dropWhile_cons_of_pos hc]
        exact ih
      · rw [List.dropWhile_cons_of_neg hc]
        exact Bool.eq_false_iff.mpr hc

namespace Numeral

def isExponentLetter (c : Char) : Bool :=
  c == 'e' || c == 'E'

/-- What could go on with a numeral. -/
def continuesNumeral (c : Char) : Bool :=
  isAsciiDigit c || c == '.' || isExponentLetter c

structure ExponentWellFormed (x : ExponentPart) : Prop where
  letter : isExponentLetter x.letter = true
  sign : ∀ c ∈ x.sign, c = '+' ∨ c = '-'
  digits : ∀ c ∈ x.digits, isAsciiDigit c = true
  nonempty : x.digits ≠ []

/-- A numeral as the grammar has it. -/
structure WellFormed (x : Numeral) : Prop where
  whole : ∀ c ∈ x.whole, isAsciiDigit c = true
  fraction : ∀ digits ∈ x.fraction, ∀ c ∈ digits, isAsciiDigit c = true
  exponent : ∀ e ∈ x.exponent, ExponentWellFormed e
  nonempty : x.whole ≠ [] ∨ ∃ digits ∈ x.fraction, digits ≠ []

theorem spanDigits_eq {digits rest : List Char} (hdigits : ∀ c ∈ digits, isAsciiDigit c = true)
    (hrest : Stops isAsciiDigit rest) : spanDigits (digits ++ rest) = (digits, rest) := by
  rw [spanDigits, hrest.takeWhile_append hdigits, hrest.dropWhile_append hdigits]

theorem isAsciiDigit_of_mem_spanDigits {cs : List Char} :
    ∀ c ∈ (spanDigits cs).1, isAsciiDigit c = true :=
  fun _ hc => List.mem_takeWhile_imp hc

/-! ## What is read is well formed -/

theorem exponentWellFormed_of_scan {cs rest : List Char} {x : ExponentPart}
    (h : scanExponent cs = some (x, rest)) : ExponentWellFormed x := by
  cases cs with
  | nil => simp [scanExponent] at h
  | cons letter cs =>
      simp only [scanExponent] at h
      split_ifs at h with hletter hdigits
      obtain ⟨rfl, _⟩ : _ = x ∧ _ = rest := by simpa using h
      refine ⟨hletter, ?_, isAsciiDigit_of_mem_spanDigits, by simpa using hdigits⟩
      intro c hc
      rw [spanSign.eq_def] at hc
      split at hc
      · exact Or.inl (Option.some.inj hc).symm
      · exact Or.inr (Option.some.inj hc).symm
      · exact absurd hc (by simp)

theorem scanMantissa_wellFormed {cs rest whole : List Char} {fraction : Option (List Char)}
    (h : scanMantissa cs = some ((whole, fraction), rest)) :
    (∀ c ∈ whole, isAsciiDigit c = true) ∧
      (∀ digits ∈ fraction, ∀ c ∈ digits, isAsciiDigit c = true) ∧
      (whole ≠ [] ∨ ∃ digits ∈ fraction, digits ≠ []) := by
  simp only [scanMantissa] at h
  split at h
  · next after hafter =>
      split_ifs at h with hempty
      obtain ⟨⟨rfl, rfl⟩, _⟩ : (_ = whole ∧ _ = fraction) ∧ _ = rest := by simpa using h
      refine ⟨isAsciiDigit_of_mem_spanDigits, ?_, ?_⟩
      · rintro digits hdigits c hc
        obtain rfl : _ = digits := by simpa using hdigits
        exact isAsciiDigit_of_mem_spanDigits c hc
      · by_cases hwhole : (spanDigits cs).1 = []
        · right
          refine ⟨_, rfl, ?_⟩
          intro hfraction
          exact hempty (by simp [hwhole, hfraction])
        · exact Or.inl hwhole
  · split_ifs at h with hempty
    obtain ⟨⟨rfl, rfl⟩, _⟩ : (_ = whole ∧ _ = fraction) ∧ _ = rest := by simpa using h
    exact ⟨isAsciiDigit_of_mem_spanDigits, by simp, Or.inl (by simpa using hempty)⟩

/-- What is scanned is a numeral of the grammar. -/
theorem wellFormed_of_scan {cs rest : List Char} {x : Numeral} (h : scan cs = some (x, rest)) :
    x.WellFormed := by
  rw [scan.eq_def] at h
  split at h
  · exact absurd h (by simp)
  · next whole fraction after hmantissa =>
      obtain ⟨hwhole, hfraction, hnonempty⟩ := scanMantissa_wellFormed hmantissa
      split at h
      · obtain ⟨rfl, _⟩ : _ = x ∧ _ = rest := by simpa using h
        exact ⟨hwhole, hfraction, by simp, hnonempty⟩
      · next e behind hexponent =>
          obtain ⟨rfl, _⟩ : _ = x ∧ _ = rest := by simpa using h
          refine ⟨hwhole, hfraction, ?_, hnonempty⟩
          intro e' he'
          obtain rfl : e = e' := by simpa using he'
          exact exponentWellFormed_of_scan hexponent

/-! ## What is well formed is read -/

theorem scanExponent_append {x : ExponentPart} {rest : List Char} (hx : ExponentWellFormed x)
    (hrest : Stops isAsciiDigit rest) :
    scanExponent (exponentChars (some x) ++ rest) = some (x, rest) := by
  obtain ⟨letter, sign, digits⟩ := x
  obtain ⟨hletter, hsign, hdigits, hnonempty⟩ := hx
  have hspan : spanSign (sign.toList ++ (digits ++ rest)) = (sign, digits ++ rest) := by
    cases sign with
    | some c =>
        rcases hsign c rfl with rfl | rfl <;> rfl
    | none =>
        cases digits with
        | nil => exact absurd rfl hnonempty
        | cons d ds =>
            have hd : isAsciiDigit d = true := hdigits d (by simp)
            rw [spanSign.eq_def]
            split
            · next heq => simp_all [isAsciiDigit]
            · next heq => simp_all [isAsciiDigit]
            · rfl
  have hempty : digits.isEmpty = false := by simpa using hnonempty
  rw [isExponentLetter] at hletter
  simp [exponentChars, scanExponent, hletter, hspan, spanDigits_eq hdigits hrest, hempty]

/-- Digits with a point are read up to what is no digit, a second point included. -/
theorem scanMantissa_point {whole digits rest : List Char}
    (hwhole : ∀ c ∈ whole, isAsciiDigit c = true) (hdigits : ∀ c ∈ digits, isAsciiDigit c = true)
    (hnonempty : whole ≠ [] ∨ digits ≠ []) (hrest : Stops isAsciiDigit rest) :
    scanMantissa (whole ++ '.' :: (digits ++ rest)) = some ((whole, some digits), rest) := by
  have hpoint : Stops isAsciiDigit ('.' :: (digits ++ rest)) := by
    exact (by decide : isAsciiDigit '.' = false)
  have hspan := spanDigits_eq hwhole hpoint
  have hspan' := spanDigits_eq hdigits hrest
  have hempty : (whole.isEmpty && digits.isEmpty) = false := by
    cases whole <;> cases digits <;> simp_all
  simp [scanMantissa, hspan, hspan', hempty]

theorem scanMantissa_whole {whole rest : List Char} (hwhole : ∀ c ∈ whole, isAsciiDigit c = true)
    (hnonempty : whole ≠ []) (hrest : Stops (fun c => isAsciiDigit c || c == '.') rest) :
    scanMantissa (whole ++ rest) = some ((whole, none), rest) := by
  have hspan := spanDigits_eq hwhole (hrest.mono (by simp +contextual))
  have hempty : whole.isEmpty = false := by simpa using hnonempty
  simp only [scanMantissa, hspan, hempty]
  cases rest with
  | nil => rfl
  | cons c rest =>
      have hpoint : c ≠ '.' := by
        rintro rfl
        exact absurd hrest (by simp [Stops])
      split
      · next heq => exact absurd (List.cons.inj heq).1 hpoint
      · rfl

theorem scanMantissa_append {whole rest : List Char} {fraction : Option (List Char)}
    (hwhole : ∀ c ∈ whole, isAsciiDigit c = true)
    (hfraction : ∀ digits ∈ fraction, ∀ c ∈ digits, isAsciiDigit c = true)
    (hnonempty : whole ≠ [] ∨ ∃ digits ∈ fraction, digits ≠ [])
    (hrest : Stops (fun c => isAsciiDigit c || c == '.') rest) :
    scanMantissa (whole ++ fractionChars fraction ++ rest) = some ((whole, fraction), rest) := by
  cases fraction with
  | none =>
      have hwritten : whole ≠ [] := by simpa using hnonempty
      rw [fractionChars, List.append_nil]
      exact scanMantissa_whole hwhole hwritten hrest
  | some digits =>
      have hwritten : whole ≠ [] ∨ digits ≠ [] := by simpa using hnonempty
      rw [fractionChars, List.append_assoc, List.cons_append]
      exact scanMantissa_point hwhole (hfraction digits rfl) hwritten
        (hrest.mono (by simp +contextual))

/-- In front of the letter of an exponent the mantissa ends. -/
theorem stops_exponentChars {x : ExponentPart} (hx : ExponentWellFormed x) (rest : List Char) :
    Stops (fun c => isAsciiDigit c || c == '.') (exponentChars (some x) ++ rest) := by
  rcases (by simpa [isExponentLetter] using hx.letter : x.letter = 'e' ∨ x.letter = 'E') with
    hletter | hletter <;> simp [exponentChars, Stops, hletter] <;> decide

/-- A numeral is scanned as a whole in front of a text that cannot go on with it. -/
theorem scan_append {x : Numeral} {rest : List Char} (hx : x.WellFormed)
    (hrest : Stops continuesNumeral rest) : scan (x.text ++ rest) = some (x, rest) := by
  obtain ⟨whole, fraction, exponent⟩ := x
  obtain ⟨hwhole, hfraction, hexponent, hnonempty⟩ := hx
  have hmantissa : ∀ behind, Stops (fun c => isAsciiDigit c || c == '.') behind →
      scanMantissa (whole ++ (fractionChars fraction ++ behind)) =
        some ((whole, fraction), behind) := by
    intro behind hbehind
    rw [← List.append_assoc]
    exact scanMantissa_append hwhole hfraction hnonempty hbehind
  cases exponent with
  | none =>
      have hnone : scanExponent rest = none := by
        cases rest with
        | nil => rfl
        | cons c rest =>
            have hc : isExponentLetter c = false := by
              have hc : continuesNumeral c = false := hrest
              simp_all [continuesNumeral]
            rw [isExponentLetter] at hc
            simp [scanExponent, hc]
      have hstops := hmantissa rest (hrest.mono (by simp +contextual [continuesNumeral]))
      simp [text, exponentChars, scan, hstops, hnone]
  | some e =>
      have he := hexponent e rfl
      have hstops := hmantissa _ (stops_exponentChars he rest)
      have hscan := scanExponent_append he (hrest.mono (by simp +contextual [continuesNumeral]))
      simp [text, scan, hstops, hscan]

end Numeral

end Fluxion.Decimal
