import Fluxion.Proofs.Decimal.Scan

/-!
# The longest numeral

The scanner takes one part of a numeral after the other and never goes back.  That is
enough: what a part leaves over starts with no digit, and neither a digit nor a point is the
letter of an exponent, so a shorter mantissa is not made up for by an exponent behind it.

Hence no numeral at the front of a text is longer than the one that is scanned, and where
none is scanned there is none: `scan_reaches`.
-/

namespace Fluxion.Decimal.Numeral

open Fluxion.Text

/-- The text of a numeral: digits with an optional point, and perhaps an exponent. -/
def IsNumeral (cs : List Char) : Prop :=
  ∃ x : Numeral, x.WellFormed ∧ x.text = cs

/-- Any text is digits, and then a text that no digit starts. -/
theorem exists_digits (cs : List Char) : ∃ digits rest, cs = digits ++ rest ∧
    (∀ c ∈ digits, isAsciiDigit c = true) ∧ Stops isAsciiDigit rest :=
  ⟨cs.takeWhile isAsciiDigit, cs.dropWhile isAsciiDigit, List.takeWhile_append_dropWhile.symm,
    fun _ hc => List.mem_takeWhile_imp hc, stops_dropWhile isAsciiDigit cs⟩

theorem forall_mem_digits_append {digits more : List Char}
    (hdigits : ∀ c ∈ digits, isAsciiDigit c = true) (hmore : ∀ c ∈ more, isAsciiDigit c = true) :
    ∀ c ∈ digits ++ more, isAsciiDigit c = true :=
  List.forall_mem_append.mpr ⟨hdigits, hmore⟩

/-- Behind a mantissa, scanning goes at least as far. -/
theorem scanMantissa_reaches {whole : List Char} {fraction : Option (List Char)}
    (hwhole : ∀ c ∈ whole, isAsciiDigit c = true)
    (hfraction : ∀ digits ∈ fraction, ∀ c ∈ digits, isAsciiDigit c = true)
    (hnonempty : whole ≠ [] ∨ ∃ digits ∈ fraction, digits ≠ []) (rest : List Char) :
    ∃ mantissa after,
      scanMantissa (whole ++ fractionChars fraction ++ rest) = some (mantissa, after) ∧
      after.length ≤ rest.length := by
  obtain ⟨more, behind, rfl, hmore, hbehind⟩ := exists_digits rest
  have hlonger := forall_mem_digits_append hwhole hmore
  cases fraction with
  | some digits =>
      have hdigits := forall_mem_digits_append (hfraction digits rfl) hmore
      have hwritten : whole ≠ [] ∨ digits ++ more ≠ [] := by
        rcases hnonempty with hnonempty | ⟨_, hmem, hnonempty⟩
        · exact .inl hnonempty
        · obtain rfl := Option.some.inj hmem
          exact .inr (List.append_ne_nil_of_left_ne_nil hnonempty more)
      have hscan := scanMantissa_point hwhole hdigits hwritten hbehind
      exact ⟨(whole, some (digits ++ more)), behind, by simpa [fractionChars] using hscan, by simp⟩
  | none =>
      have hwritten : whole ++ more ≠ [] :=
        List.append_ne_nil_of_left_ne_nil (by simpa using hnonempty) more
      rw [fractionChars, List.append_nil, ← List.append_assoc]
      -- A point behind the digits is taken with the digits that follow it.
      by_cases hpoint : ∃ points, behind = '.' :: points
      · obtain ⟨points, rfl⟩ := hpoint
        obtain ⟨digits, final, rfl, hdigits, hfinal⟩ := exists_digits points
        refine ⟨_, final, scanMantissa_point hlonger hdigits (.inl hwritten) hfinal, ?_⟩
        simp only [List.length_append, List.length_cons]
        omega
      · refine ⟨_, behind, scanMantissa_whole hlonger hwritten ?_, by simp⟩
        cases behind with
        | nil => trivial
        | cons c behind =>
            have hc : isAsciiDigit c = false := hbehind
            have hne : c ≠ '.' := fun heq => hpoint ⟨behind, by rw [heq]⟩
            simp [Stops, hc, hne]

/-- Behind an exponent, scanning goes at least as far. -/
theorem scanExponent_reaches {x : ExponentPart} (hx : ExponentWellFormed x) (rest : List Char) :
    ∃ y after, scanExponent (exponentChars (some x) ++ rest) = some (y, after) ∧
      after.length ≤ rest.length := by
  obtain ⟨more, behind, rfl, hmore, hbehind⟩ := exists_digits rest
  have hlonger : ExponentWellFormed { x with digits := x.digits ++ more } :=
    ⟨hx.letter, hx.sign, forall_mem_digits_append hx.digits hmore,
      List.append_ne_nil_of_left_ne_nil hx.nonempty more⟩
  have hscan := scanExponent_append hlonger hbehind
  exact ⟨{ x with digits := x.digits ++ more }, behind, by simpa [exponentChars] using hscan,
    by simp⟩

theorem scanExponent_length_le {cs rest : List Char} {x : ExponentPart}
    (h : scanExponent cs = some (x, rest)) : rest.length ≤ cs.length := by
  rw [← scanExponent_text h, List.length_append]
  omega

/-- Behind a numeral, scanning goes at least as far. -/
theorem scan_reaches {x : Numeral} (hx : x.WellFormed) (rest : List Char) :
    ∃ y after, scan (x.text ++ rest) = some (y, after) ∧ after.length ≤ rest.length := by
  obtain ⟨whole, fraction, exponent⟩ := x
  obtain ⟨hwhole, hfraction, hexponent, hnonempty⟩ := hx
  cases exponent with
  | none =>
      obtain ⟨⟨whole', fraction'⟩, behind, hmantissa, hbehind⟩ :=
        scanMantissa_reaches hwhole hfraction hnonempty rest
      rw [text, exponentChars, List.append_nil, scan, hmantissa]
      dsimp only
      cases hscan : scanExponent behind with
      | none => exact ⟨_, behind, rfl, hbehind⟩
      | some p => exact ⟨_, p.2, rfl, Nat.le_trans (scanExponent_length_le hscan) hbehind⟩
  | some e =>
      have he := hexponent e rfl
      have hmantissa := scanMantissa_append hwhole hfraction hnonempty (stops_exponentChars he rest)
      obtain ⟨y, after, hscan, hafter⟩ := scanExponent_reaches he rest
      rw [text, List.append_assoc, scan, hmantissa]
      dsimp only
      rw [hscan]
      exact ⟨_, after, rfl, hafter⟩

/-- No numeral at the front of a text is longer than the one that is scanned. -/
theorem length_le_of_scan {cs rest numeral : List Char} {x : Numeral}
    (h : scan cs = some (x, rest)) (hfront : numeral <+: cs) (hnumeral : IsNumeral numeral) :
    numeral.length ≤ x.text.length := by
  obtain ⟨behind, rfl⟩ := hfront
  obtain ⟨y, hy, rfl⟩ := hnumeral
  obtain ⟨x', rest', hscan, hrest⟩ := scan_reaches hy behind
  obtain ⟨rfl, rfl⟩ := Prod.mk.inj (Option.some.inj (h.symm.trans hscan))
  have hlength := congrArg List.length (scan_text h).1
  rw [List.length_append, List.length_append] at hlength
  omega

/-- The longest numeral at the front of a text is the one that is scanned. -/
theorem scan_eq_some {numeral rest : List Char} (hnumeral : IsNumeral numeral)
    (hlongest : ∀ longer, longer <+: numeral ++ rest → IsNumeral longer →
      longer.length ≤ numeral.length) :
    ∃ x : Numeral, x.text = numeral ∧ scan (numeral ++ rest) = some (x, rest) := by
  obtain ⟨y, hy, rfl⟩ := hnumeral
  obtain ⟨x, after, hscan, hafter⟩ := scan_reaches hy rest
  have htext := (scan_text hscan).1
  have hlength := hlongest x.text ⟨after, htext⟩ ⟨x, wellFormed_of_scan hscan, rfl⟩
  have hsame : x.text.length = y.text.length := by
    have htotal := congrArg List.length htext
    rw [List.length_append, List.length_append] at htotal
    omega
  obtain ⟨hx, rfl⟩ := List.append_inj htext hsame
  exact ⟨x, hx, hscan⟩

def numeralChar (c : Char) : Bool :=
  continuesNumeral c || c == '+' || c == '-'

theorem numeralChar_of_mem {cs : List Char} (h : IsNumeral cs) :
    ∀ c ∈ cs, numeralChar c = true := by
  obtain ⟨⟨whole, fraction, exponent⟩, ⟨hwhole, hfraction, hexponent, -⟩, rfl⟩ := h
  have hdigit : ∀ c, isAsciiDigit c = true → numeralChar c = true := by
    intro c hc
    simp [numeralChar, continuesNumeral, hc]
  intro c hc
  simp only [text, List.mem_append] at hc
  rcases hc with (hc | hc) | hc
  · exact hdigit c (hwhole c hc)
  · cases fraction with
    | none => cases hc
    | some digits =>
        rcases List.mem_cons.mp hc with rfl | hc
        · decide
        · exact hdigit c (hfraction digits rfl c hc)
  · cases exponent with
    | none => cases hc
    | some e =>
        have he := hexponent e rfl
        simp only [exponentChars, List.cons_append, List.mem_cons, List.mem_append,
          Option.mem_toList] at hc
        rcases hc with rfl | hc | hc
        · simp [numeralChar, continuesNumeral, he.letter]
        · rcases he.sign c hc with rfl | rfl <;> decide
        · exact hdigit c (he.digits c hc)

/-- A numeral starts with a digit, or with a point that a digit follows. -/
theorem starts_of_isNumeral {cs : List Char} (h : IsNumeral cs) :
    (∃ c behind, cs = c :: behind ∧ isAsciiDigit c = true) ∨
      ∃ c behind, cs = '.' :: c :: behind ∧ isAsciiDigit c = true := by
  obtain ⟨⟨whole, fraction, exponent⟩, ⟨hwhole, hfraction, -, hnonempty⟩, rfl⟩ := h
  cases whole with
  | cons c whole => exact .inl ⟨c, _, rfl, hwhole c List.mem_cons_self⟩
  | nil =>
      obtain ⟨digits, hmem, hdigits⟩ := hnonempty.resolve_left (by simp)
      obtain rfl := Option.mem_def.mp hmem
      obtain ⟨c, digits, rfl⟩ := List.exists_cons_of_ne_nil hdigits
      exact .inr ⟨c, _, rfl, hfraction _ rfl c List.mem_cons_self⟩

end Fluxion.Decimal.Numeral
