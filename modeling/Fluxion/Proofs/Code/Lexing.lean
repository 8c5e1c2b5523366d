import Fluxion.Code.Emit
import Fluxion.Code.Lexeme
import Fluxion.Proofs.Decimal.Text
import Mathlib.Tactic.Common

/-!
# The lexemes of written phrases

`LexesTo` says which lexemes a piece of text becomes wherever it stands in front of a
blank, a line break, a comma or a parenthesis.  Pieces are put together with `append`, `blank` and
`punctuation`; names, whole numbers and the texts of `Float`s are the pieces.
-/

namespace Fluxion.Code

open Fluxion.Decimal Fluxion.Number Fluxion.Text

/-- The end of a text, or a character that no name and no number goes on with. -/
def Separated : List Char → Prop
  | [] => True
  | c :: _ => c = ' ' ∨ c = '\n' ∨ c = ',' ∨ c = '(' ∨ c = ')'

theorem Separated.append {cs rest : List Char} (h : Separated cs) (hrest : Separated rest) :
    Separated (cs ++ rest) := by
  cases cs with
  | nil => exact hrest
  | cons c cs => exact h

/-- A character at which a lexeme starts. -/
def startsLexeme (c : Char) : Bool :=
  !(c == '\n') && !isLineBlank c && !(c == '#')

/-! ## Steps of the lexer -/

theorem lexemesFrom_blank (start : Bool) (indent opened : Nat) (rest : List Char) :
    lexemesFrom start indent opened (' ' :: rest) =
      lexemesFrom start (indent + 1) opened rest := by
  rw [lexemesFrom]
  rfl

/-- Outside parentheses the next line starts. -/
theorem lexemesFrom_newline (indent : Nat) (rest : List Char) :
    lexemesFrom false indent 0 ('\n' :: rest) = lexemesFrom true 0 0 rest := by
  rw [lexemesFrom]
  rfl

theorem lexemesFrom_scan {c : Char} {rest after : List Char} {l : Lexeme} (indent opened : Nat)
    (hc : startsLexeme c = true) (hscan : scanLexeme c rest = some (l, after)) :
    lexemesFrom false indent opened (c :: rest) =
      (lexemesFrom false 0 (openAfter opened l) after).map (l :: ·) := by
  obtain ⟨⟨hbreak, hblank⟩, hcomment⟩ :
      (¬ c = '\n' ∧ isLineBlank c = false) ∧ ¬ c = '#' := by simpa [startsLexeme] using hc
  rw [lexemesFrom]
  simp only [beq_iff_eq, hbreak, hblank, hcomment, if_false, Bool.false_eq_true]
  split
  · next h => exact absurd (h.symm.trans hscan) (by simp)
  · next l' after' h =>
      obtain ⟨rfl, rfl⟩ : l' = l ∧ after' = after := by simpa [h] using hscan
      rfl

/-- Inside a line the indent is of no account. -/
theorem lexemesFrom_indent (indent opened : Nat) (cs : List Char) :
    lexemesFrom false indent opened cs = lexemesFrom false 0 opened cs := by
  induction hlength : cs.length using Nat.strong_induction_on generalizing indent cs with
  | _ length ih =>
      cases cs with
      | nil => rw [lexemesFrom, lexemesFrom]
      | cons c rest =>
          have hrest : rest.length < length := by
            rw [← hlength]
            exact Nat.lt_succ_self _
          rw [lexemesFrom, lexemesFrom]
          split_ifs with hbreak hblank hcomment hstart
          · rfl
          · rw [ih _ hrest (indent + 1) rest rfl, ih _ hrest (0 + 1) rest rfl]
          · have hdrop : (rest.dropWhile (· != '\n')).length < length :=
              Nat.lt_of_le_of_lt (List.dropWhile_suffix _).length_le hrest
            exact ih _ hdrop indent _ rfl
          · exact hstart.elim
          · rfl

/-- A line starts with a mark. -/
theorem lexemesFrom_start {c : Char} (indent opened : Nat) (rest : List Char)
    (hc : startsLexeme c = true) :
    lexemesFrom true indent opened (c :: rest) =
      (lexemesFrom false 0 opened (c :: rest)).map (.line indent :: ·) := by
  obtain ⟨⟨hbreak, hblank⟩, hcomment⟩ :
      (¬ c = '\n' ∧ isLineBlank c = false) ∧ ¬ c = '#' := by simpa [startsLexeme] using hc
  rw [lexemesFrom]
  simp [hbreak, hblank, hcomment]

/-! ## Pieces of text -/

/-- The text becomes the lexemes in front of every separator. -/
def LexesTo (cs : List Char) (ls : List Lexeme) : Prop :=
  ∀ opened rest, Separated rest → ∃ opened',
    lexemesFrom false 0 opened (cs ++ rest) = (lexemesFrom false 0 opened' rest).map (ls ++ ·)

theorem lexesTo_nil : LexesTo [] [] := by
  intro opened rest _
  refine ⟨opened, ?_⟩
  simp

/-- A piece in front of one that starts with a separator. -/
theorem LexesTo.append {cs cs' : List Char} {ls ls' : List Lexeme} (h : LexesTo cs ls)
    (h' : LexesTo cs' ls') (hcs' : Separated cs') : LexesTo (cs ++ cs') (ls ++ ls') := by
  intro opened rest hrest
  obtain ⟨middle, hmiddle⟩ := h opened (cs' ++ rest) (hcs'.append hrest)
  obtain ⟨final, hfinal⟩ := h' middle rest hrest
  refine ⟨final, ?_⟩
  rw [List.append_assoc, hmiddle, hfinal, Option.map_map]
  congr 1
  funext tail
  exact (List.append_assoc ls ls' tail).symm

theorem LexesTo.blank {cs : List Char} {ls : List Lexeme} (h : LexesTo cs ls) :
    LexesTo (' ' :: cs) ls := by
  intro opened rest hrest
  obtain ⟨final, hfinal⟩ := h opened rest hrest
  refine ⟨final, ?_⟩
  rw [List.cons_append, lexemesFrom_blank, lexemesFrom_indent, hfinal]

theorem punctuation_cases {c : Char} (h : isPunctuation c = true) :
    c = '+' ∨ c = '-' ∨ c = '*' ∨ c = '/' ∨ c = '(' ∨ c = ')' ∨ c = ',' ∨ c = ':' ∨ c = '=' := by
  simpa [isPunctuation, or_assoc] using h

theorem startsLexeme_of_isPunctuation {c : Char} (h : isPunctuation c = true) :
    startsLexeme c = true := by
  rcases punctuation_cases h with rfl | rfl | rfl | rfl | rfl | rfl | rfl | rfl | rfl <;> decide

theorem LexesTo.punctuation {c : Char} {cs : List Char} {ls : List Lexeme} (h : LexesTo cs ls)
    (hc : isPunctuation c = true) : LexesTo (c :: cs) (.punctuation c :: ls) := by
  intro opened rest hrest
  obtain ⟨final, hfinal⟩ := h (openAfter opened (.punctuation c)) rest hrest
  have hscan : scanLexeme c (cs ++ rest) = some (.punctuation c, cs ++ rest) := by
    simp [scanLexeme, hc]
  refine ⟨final, ?_⟩
  rw [List.cons_append, lexemesFrom_scan 0 opened (startsLexeme_of_isPunctuation hc) hscan,
    hfinal, Option.map_map]
  rfl

/-! ## Words -/

/-- A word that is scanned as one lexeme in front of every separator. -/
theorem lexesTo_word {c : Char} {word : List Char} {l : Lexeme} (hc : startsLexeme c = true)
    (hscan : ∀ rest, Separated rest → scanLexeme c (word ++ rest) = some (l, rest)) :
    LexesTo (c :: word) [l] := by
  intro opened rest hrest
  exact ⟨_, lexemesFrom_scan 0 opened hc (hscan rest hrest)⟩

theorem Separated.stops {p : Char → Bool} {rest : List Char} (h : Separated rest)
    (hp : [' ', '\n', ',', '(', ')'].any p = false) : Stops p rest := by
  cases rest with
  | nil => trivial
  | cons c rest =>
      have hc : c ∈ [' ', '\n', ',', '(', ')'] := by simpa [Separated] using h
      exact Bool.eq_false_iff.mpr (List.any_eq_false.mp hp c hc)

theorem not_isIdentifierChar_separator :
    [' ', '\n', ',', '(', ')'].any isIdentifierChar = false := by
  refine List.any_eq_false.mpr fun c hc => ?_
  obtain ⟨hascii, hname⟩ : c.toNat < 128 ∧ isNameChar c = false := by
    simp only [List.mem_cons, List.not_mem_nil, or_false] at hc
    rcases hc with rfl | rfl | rfl | rfl | rfl <;> decide
  rw [isIdentifierChar_of_ascii hascii, hname]
  exact Bool.false_ne_true

theorem isPunctuation_of_isIdentifierStart {c : Char} (h : isIdentifierStart c = true) :
    isPunctuation c = false := by
  by_contra hc
  obtain ⟨hascii, hstart⟩ : c.toNat < 128 ∧ (c == '_' || isLetter c) = false := by
    rcases punctuation_cases (by simpa using hc) with
      rfl | rfl | rfl | rfl | rfl | rfl | rfl | rfl | rfl <;> decide
  rw [isIdentifierStart_of_ascii hascii, hstart] at h
  cases h

theorem startsLexeme_of_isIdentifierStart {c : Char} (h : isIdentifierStart c = true) :
    startsLexeme c = true := by
  by_contra hc
  have hcases : c = '\n' ∨ c = ' ' ∨ c = '\t' ∨ c = '\x0c' ∨ c = '\r' ∨ c = '#' := by
    simp only [startsLexeme, isLineBlank] at hc
    grind
  obtain ⟨hascii, hstart⟩ : c.toNat < 128 ∧ (c == '_' || isLetter c) = false := by
    rcases hcases with rfl | rfl | rfl | rfl | rfl | rfl <;> decide
  rw [isIdentifierStart_of_ascii hascii, hstart] at h
  cases h

/-- A name is scanned as it is in front of every separator. -/
theorem scanLexeme_name {symbol : String} (h : isIdentifier symbol = true) :
    ∃ c cs, symbol.toList = c :: cs ∧ startsLexeme c = true ∧
      ∀ rest, Separated rest → scanLexeme c (cs ++ rest) = some (.name symbol, rest) := by
  rw [isIdentifier] at h
  cases hsymbol : symbol.toList with
  | nil => simp [hsymbol] at h
  | cons c cs =>
      obtain ⟨hc, hcs⟩ : isIdentifierStart c = true ∧ ∀ d ∈ cs, isIdentifierChar d = true := by
        simpa [hsymbol] using h
      refine ⟨c, cs, rfl, startsLexeme_of_isIdentifierStart hc, fun rest hrest => ?_⟩
      have hstops : Stops isIdentifierChar rest := hrest.stops not_isIdentifierChar_separator
      have hname : String.ofList (c :: cs) = symbol := by rw [← hsymbol, String.ofList_toList]
      simp [scanLexeme, isPunctuation_of_isIdentifierStart hc, hc, hstops.takeWhile_append hcs,
        hstops.dropWhile_append hcs, hname]

theorem lexesTo_name {symbol : String} (h : isIdentifier symbol = true) :
    LexesTo symbol.toList [.name symbol] := by
  obtain ⟨c, cs, hsymbol, hc, hscan⟩ := scanLexeme_name h
  rw [hsymbol]
  exact lexesTo_word hc hscan

def asciiDigits : List Char :=
  ['0', '1', '2', '3', '4', '5', '6', '7', '8', '9']

theorem mem_digits_of_isAsciiDigit {c : Char} (h : isAsciiDigit c = true) :
    c ∈ asciiDigits := by
  obtain ⟨hlow, hhigh⟩ : 48 ≤ c.toNat ∧ c.toNat ≤ 57 := by
    simpa [isAsciiDigit, Char.le_def, UInt32.le_iff_toNat_le] using h
  rw [← Char.ofNat_toNat c]
  generalize c.toNat = n at hlow hhigh
  have hcases : n = 48 ∨ n = 49 ∨ n = 50 ∨ n = 51 ∨ n = 52 ∨ n = 53 ∨ n = 54 ∨ n = 55 ∨ n = 56 ∨
      n = 57 := by omega
  rcases hcases with rfl | rfl | rfl | rfl | rfl | rfl | rfl | rfl | rfl | rfl <;> decide

/-- No name and no punctuation starts with a digit. -/
theorem startsLexeme_of_isAsciiDigit {c : Char} (h : isAsciiDigit c = true) :
    isPunctuation c = false ∧ isIdentifierStart c = false ∧ startsLexeme c = true := by
  have hall : (asciiDigits.all fun c => c.toNat < 128 && !isPunctuation c &&
      !(c == '_' || isLetter c) && startsLexeme c) = true := by decide
  obtain ⟨⟨⟨hascii, hpunctuation⟩, hstart⟩, hlexeme⟩ : ((c.toNat < 128 ∧ isPunctuation c = false) ∧
      (c == '_' || isLetter c) = false) ∧ startsLexeme c = true := by
    simpa only [Bool.and_eq_true, decide_eq_true_eq, Bool.not_eq_true'] using
      List.all_eq_true.mp hall c (mem_digits_of_isAsciiDigit h)
  exact ⟨hpunctuation, (isIdentifierStart_of_ascii hascii).trans hstart, hlexeme⟩

/-- A numeral that starts with a digit is scanned as its literal. -/
theorem lexesTo_numeral {x : Numeral} {l : Lexeme} (hx : x.WellFormed) (hwhole : x.whole ≠ [])
    (hliteral : literal? x = some l) : LexesTo x.text [l] := by
  obtain ⟨d, ds, hdigits⟩ := List.exists_cons_of_ne_nil hwhole
  obtain ⟨hpunctuation, hidentifier, hstart⟩ :=
    startsLexeme_of_isAsciiDigit (hx.whole d (by simp [hdigits]))
  obtain ⟨word, htext⟩ : ∃ word, x.text = d :: word := by simp [Numeral.text, hdigits]
  rw [htext]
  apply lexesTo_word hstart
  intro rest hrest
  have hscan : Numeral.scan (d :: word ++ rest) = some (x, rest) := by
    rw [← htext]
    exact Numeral.scan_append hx (hrest.stops (by decide))
  have hname : continuesName rest = false := by
    cases rest with
    | nil => rfl
    | cons c rest => exact hrest.stops not_isIdentifierChar_separator
  rw [List.cons_append] at hscan
  simp [scanLexeme, hpunctuation, hidentifier, scanLiteral, hscan, hname, hliteral]

theorem lexesTo_integer (n : Nat) : LexesTo (digitChars n) [.integer n] := by
  have hvalid : validWhole (digitChars n) = true := by
    rw [validWhole.eq_def]
    split
    · next rest hzero =>
        obtain rfl : n = 0 := eq_zero_of_digitChars_zero hzero
        obtain rfl : rest = [] := (List.cons.inj hzero).2.symm
        rfl
    · rfl
  have hliteral : literal? ⟨digitChars n, none, none⟩ = some (.integer n) := by
    simp [literal?, hvalid, Numeral.natOfDigits_digitChars]
  have hnumeral : Numeral.WellFormed ⟨digitChars n, none, none⟩ :=
    ⟨isAsciiDigit_of_mem_digitChars, by simp, by simp, Or.inl (digitChars_ne_nil n)⟩
  simpa [Numeral.text, Numeral.fractionChars, Numeral.exponentChars] using
    lexesTo_numeral hnumeral (digitChars_ne_nil n) hliteral

/-- The text of a `Float` is one lexeme, with the value that the numeral stands for. -/
theorem lexesTo_float {x : Numeral} (h : IsFloatNumeral x) :
    LexesTo x.text [.float x.value] := by
  obtain ⟨hx, hwhole, hpart⟩ := h
  apply lexesTo_numeral hx hwhole
  rw [literal?.eq_def]
  split
  · next hfraction hexponent => simp [hfraction, hexponent] at hpart
  · rfl

/-! ## What words look like -/

theorem starts_of_isIdentifier {symbol : String} (h : isIdentifier symbol = true) :
    ∃ c rest, symbol.toList = c :: rest ∧ startsLexeme c = true := by
  rw [isIdentifier] at h
  cases hsymbol : symbol.toList with
  | nil => simp [hsymbol] at h
  | cons c cs =>
      rw [hsymbol, Bool.and_eq_true] at h
      exact ⟨c, cs, rfl, startsLexeme_of_isIdentifierStart h.1⟩

theorem plain_of_isAsciiDigit {c : Char} (h : isAsciiDigit c = true) : c ≠ '(' ∧ c ≠ ')' := by
  refine ⟨?_, ?_⟩ <;> rintro rfl <;> exact absurd h (by decide)

theorem plain_of_isIdentifier {symbol : String} (h : isIdentifier symbol = true) :
    ∀ c ∈ symbol.toList, c ≠ '(' ∧ c ≠ ')' := by
  rw [isIdentifier] at h
  cases hsymbol : symbol.toList with
  | nil => simp [hsymbol] at h
  | cons c cs =>
      rw [hsymbol, Bool.and_eq_true, List.all_eq_true] at h
      intro d hd
      have hchar : isIdentifierStart d = true ∨ isIdentifierChar d = true := by
        rcases List.mem_cons.mp hd with rfl | hd
        · exact Or.inl h.1
        · exact Or.inr (h.2 d hd)
      have hascii (hd : d.toNat < 128) : (d == '_' || isLetter d) = true ∨ isNameChar d = true := by
        rwa [← isIdentifierStart_of_ascii hd, ← isIdentifierChar_of_ascii hd]
      refine ⟨?_, ?_⟩ <;> rintro rfl <;> exact absurd (hascii (by decide)) (by decide)

theorem plain_of_wellFormed {x : Numeral} (hx : x.WellFormed) :
    ∀ c ∈ x.text, c ≠ '(' ∧ c ≠ ')' := by
  intro c hc
  rw [Numeral.text, List.mem_append, List.mem_append] at hc
  rcases hc with (hc | hc) | hc
  · exact plain_of_isAsciiDigit (hx.whole c hc)
  · cases hfraction : x.fraction with
    | none => simp [hfraction, Numeral.fractionChars] at hc
    | some digits =>
        rw [hfraction, Numeral.fractionChars] at hc
        rcases List.mem_cons.mp hc with rfl | hc
        · decide
        · exact plain_of_isAsciiDigit (hx.fraction digits hfraction c hc)
  · cases hexponent : x.exponent with
    | none => simp [hexponent, Numeral.exponentChars] at hc
    | some e =>
        obtain ⟨hletter, hsign, hdigits, _⟩ := hx.exponent e hexponent
        rw [hexponent, Numeral.exponentChars, List.cons_append, List.mem_cons,
          List.mem_append] at hc
        rcases hc with rfl | hc | hc
        · refine ⟨?_, ?_⟩ <;> intro heq <;> rw [heq] at hletter <;>
            exact absurd hletter (by decide)
        · rcases hsign c (Option.mem_toList.mp hc) with rfl | rfl <;> decide
        · exact plain_of_isAsciiDigit (hdigits c hc)

end Fluxion.Code
