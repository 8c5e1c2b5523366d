import Fluxion.Decimal.Digits
import Fluxion.Text.Digit

/-!
# Numerals

A numeral is what a number looks like in an expression: digits with an optional
point and an optional exponent, without a sign.

* `Numeral.scan` reads the longest numeral at the start of a text.
* `Numeral.value` is the nearest `Float`.
* `Numeral.text` is the text that was read, so nothing is lost on the way.
-/

namespace Fluxion.Decimal

open Fluxion.Number Fluxion.Text

/-- The exponent of a numeral: the letter, the sign if one is written, the digits. -/
structure ExponentPart where
  letter : Char
  sign : Option Char
  digits : List Char
deriving DecidableEq, Repr

/-- A numeral, part by part: `fraction` is `none` when no point is written. -/
structure Numeral where
  whole : List Char
  fraction : Option (List Char)
  exponent : Option ExponentPart
deriving DecidableEq, Repr

namespace Numeral

def natOfDigits (digits : List Char) : Nat :=
  digits.foldl (fun n c => 10 * n + asciiDigitValue c) 0

/-- The leading ASCII digits of a text and what follows them. -/
def spanDigits (cs : List Char) : List Char × List Char :=
  (cs.takeWhile isAsciiDigit, cs.dropWhile isAsciiDigit)

def spanSign : List Char → Option Char × List Char
  | '+' :: cs => (some '+', cs)
  | '-' :: cs => (some '-', cs)
  | cs => (none, cs)

/-- The exponent at the start of a text; a letter without digits is none. -/
def scanExponent : List Char → Option (ExponentPart × List Char)
  | [] => none
  | letter :: cs =>
      if letter == 'e' || letter == 'E' then
        let (sign, cs) := spanSign cs
        let (digits, cs) := spanDigits cs
        if digits.isEmpty then none else some (⟨letter, sign, digits⟩, cs)
      else none

/-- The mantissa at the start of a text: digits, then perhaps a point and more
digits, or a point that digits follow. -/
def scanMantissa (cs : List Char) : Option ((List Char × Option (List Char)) × List Char) :=
  let (whole, rest) := spanDigits cs
  match rest with
  | '.' :: after =>
      let (fraction, rest) := spanDigits after
      if whole.isEmpty && fraction.isEmpty then none else some ((whole, some fraction), rest)
  | _ => if whole.isEmpty then none else some ((whole, none), rest)

/-- The longest numeral at the start of a text, and what follows it. -/
def scan (cs : List Char) : Option (Numeral × List Char) :=
  match scanMantissa cs with
  | none => none
  | some ((whole, fraction), rest) =>
      match scanExponent rest with
      | none => some (⟨whole, fraction, none⟩, rest)
      | some (exponent, rest) => some (⟨whole, fraction, some exponent⟩, rest)

def fractionChars : Option (List Char) → List Char
  | none => []
  | some digits => '.' :: digits

def exponentChars : Option ExponentPart → List Char
  | none => []
  | some x => x.letter :: x.sign.toList ++ x.digits

def text (x : Numeral) : List Char :=
  x.whole ++ fractionChars x.fraction ++ exponentChars x.exponent

def exponentValue (x : ExponentPart) : Int :=
  if x.sign = some '-' then -(natOfDigits x.digits : Int) else natOfDigits x.digits

def mantissa (x : Numeral) : Nat :=
  natOfDigits (x.whole ++ x.fraction.getD [])

def scale (x : Numeral) : Int :=
  (match x.exponent with | none => 0 | some e => exponentValue e) - (x.fraction.getD []).length

/-- The `Float` nearest to `(-1)^negative * digits * 10 ^ exponent`. A number
beyond `1e310` is infinity and one below `1e-330` is zero, whatever its
digits, so no power of ten is ever formed that could not matter. -/
def nearestDecimal (negative : Bool) (digits : Nat) (exponent : Int) : Float :=
  if digits = 0 then Binary64.ofCode negative 0
  else
    let magnitude := (digitCount digits : Int) + exponent
    if 310 < magnitude then Binary64.ofCode negative Binary64.infinityCode
    else if magnitude < -330 then Binary64.ofCode negative 0
    else
      let (ten, tenBelow) := powerOfTen exponent
      Binary64.nearest negative (digits * ten) tenBelow

def signedValue (negative : Bool) (x : Numeral) : Float :=
  nearestDecimal negative x.mantissa x.scale

def value (x : Numeral) : Float :=
  x.signedValue false

/-- The numeral that is the whole of a text. -/
def ofChars? (cs : List Char) : Option Numeral :=
  match scan cs with
  | some (x, []) => some x
  | _ => none

theorem spanDigits_append (cs : List Char) : (spanDigits cs).1 ++ (spanDigits cs).2 = cs :=
  List.takeWhile_append_dropWhile

theorem spanSign_append (cs : List Char) : (spanSign cs).1.toList ++ (spanSign cs).2 = cs := by
  unfold spanSign
  split <;> simp

theorem scanExponent_text {cs rest : List Char} {x : ExponentPart}
    (h : scanExponent cs = some (x, rest)) : exponentChars (some x) ++ rest = cs := by
  cases cs with
  | nil => simp [scanExponent] at h
  | cons letter cs =>
      unfold scanExponent at h
      dsimp only at h
      split at h
      · split at h
        · simp at h
        · simp only [Option.some.injEq, Prod.mk.injEq] at h
          obtain ⟨rfl, rfl⟩ := h
          simp [exponentChars, spanDigits_append, spanSign_append]
      · simp at h

theorem scanMantissa_text {cs rest whole : List Char} {fraction : Option (List Char)}
    (h : scanMantissa cs = some ((whole, fraction), rest)) :
    whole ++ fractionChars fraction ++ rest = cs ∧
      (whole ≠ [] ∨ fraction.isSome) := by
  have happend := spanDigits_append cs
  unfold scanMantissa at h
  dsimp only at h
  split at h
  · next after hrest =>
      split at h
      · simp at h
      · simp only [Option.some.injEq, Prod.mk.injEq] at h
        obtain ⟨⟨rfl, rfl⟩, rfl⟩ := h
        refine ⟨?_, Or.inr rfl⟩
        rw [hrest] at happend
        simpa [fractionChars, spanDigits_append] using happend
  · split at h
    · simp at h
    · next hwhole =>
        simp only [Option.some.injEq, Prod.mk.injEq] at h
        obtain ⟨⟨rfl, rfl⟩, rfl⟩ := h
        exact ⟨by simpa [fractionChars] using happend, Or.inl (by simpa using hwhole)⟩

/-- Scanning splits the text: the numeral and the rest make it up, and the
numeral is not empty. -/
theorem scan_text {cs rest : List Char} {x : Numeral} (h : scan cs = some (x, rest)) :
    x.text ++ rest = cs ∧ x.text ≠ [] := by
  unfold scan at h
  split at h
  · simp at h
  · next whole fraction after hmantissa =>
      obtain ⟨happend, hne⟩ := scanMantissa_text hmantissa
      have hnonempty : ∀ e, (⟨whole, fraction, e⟩ : Numeral).text ≠ [] := by
        intro e hnil
        simp only [text, List.append_eq_nil_iff] at hnil
        rcases hne with hw | hf
        · exact hw hnil.1.1
        · cases fraction with
          | none => simp at hf
          | some digits => simp [fractionChars] at hnil
      split at h
      · simp only [Option.some.injEq, Prod.mk.injEq] at h
        obtain ⟨rfl, rfl⟩ := h
        exact ⟨by simpa [text, exponentChars] using happend, hnonempty _⟩
      · next e rest' hexponent =>
          simp only [Option.some.injEq, Prod.mk.injEq] at h
          obtain ⟨rfl, rfl⟩ := h
          refine ⟨?_, hnonempty _⟩
          rw [← scanExponent_text hexponent] at happend
          simpa [text] using happend

theorem scan_length {cs rest : List Char} {x : Numeral} (h : scan cs = some (x, rest)) :
    rest.length < cs.length := by
  obtain ⟨happend, hne⟩ := scan_text h
  rw [← happend, List.length_append]
  have := List.length_pos_iff.mpr hne
  omega

end Numeral

end Fluxion.Decimal
