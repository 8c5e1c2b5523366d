import Fluxion.Code.Basic
import Fluxion.Decimal.Numeral

/-!
# Lexemes of code

The text of a module is read as a list of lexemes. Line breaks and the indent
of a line matter only outside parentheses, and each line that holds something
starts with a mark that gives its indent. Comments run to the end of the line.
-/

namespace Fluxion.Code

open Fluxion.Decimal Fluxion.Text

inductive Lexeme where
  /-- The start of a line. -/
  | line (indent : Nat)
  | name (symbol : String)
  | integer (value : Nat)
  | float (value : Float)
  | punctuation (c : Char)
deriving Repr

/-- The characters that are lexemes of their own. -/
def isPunctuation (c : Char) : Bool :=
  c == '+' || c == '-' || c == '*' || c == '/' || c == '(' || c == ')' || c == ',' || c == ':' ||
    c == '='

def isLineBlank (c : Char) : Bool :=
  c == ' ' || c == '\t' || c == '\x0c' || c == '\r'

/-- A whole number may not start with a zero unless it is zero. -/
def validWhole (digits : List Char) : Bool :=
  match digits with
  | '0' :: rest => rest.all (· == '0')
  | _ => true

/-- Whether a name goes on here, so that a number may not end. -/
def continuesName : List Char → Bool
  | c :: _ => isIdentifierChar c
  | [] => false

def literal? (numeral : Numeral) : Option Lexeme :=
  match numeral.fraction, numeral.exponent with
  | none, none =>
      if validWhole numeral.whole then some (.integer (Numeral.natOfDigits numeral.whole)) else none
  | _, _ => some (.float numeral.value)

/-- A number at the start of a text. No name may follow it directly. -/
def scanLiteral (cs : List Char) : Option (Lexeme × List Char) :=
  match Numeral.scan cs with
  | none => none
  | some (numeral, rest) =>
      if continuesName rest then none else (literal? numeral).map fun lexeme => (lexeme, rest)

theorem scanLiteral_length {cs rest : List Char} {lexeme : Lexeme}
    (h : scanLiteral cs = some (lexeme, rest)) : rest.length < cs.length := by
  unfold scanLiteral at h
  split at h
  · simp at h
  · next numeral after hscan =>
      split at h
      · simp at h
      · obtain ⟨_, _, heq⟩ := Option.map_eq_some_iff.mp h
        simp only [Prod.mk.injEq] at heq
        rw [← heq.2]
        exact Numeral.scan_length hscan

def scanLexeme (c : Char) (cs : List Char) : Option (Lexeme × List Char) :=
  if isPunctuation c then some (.punctuation c, cs)
  else if isIdentifierStart c then
    some (.name (String.ofList (c :: cs.takeWhile isIdentifierChar)), cs.dropWhile isIdentifierChar)
  else scanLiteral (c :: cs)

theorem scanLexeme_length {c : Char} {cs rest : List Char} {lexeme : Lexeme}
    (h : scanLexeme c cs = some (lexeme, rest)) : rest.length < cs.length + 1 := by
  unfold scanLexeme at h
  split at h
  · simp only [Option.some.injEq, Prod.mk.injEq] at h
    obtain ⟨_, rfl⟩ := h
    omega
  · split at h
    · simp only [Option.some.injEq, Prod.mk.injEq] at h
      obtain ⟨_, rfl⟩ := h
      have := (List.dropWhile_suffix (l := cs) isIdentifierChar).length_le
      omega
    · simpa using scanLiteral_length h

def openAfter (opened : Nat) : Lexeme → Nat
  | .punctuation '(' => opened + 1
  | .punctuation ')' => opened - 1
  | _ => opened

/-- The lexemes of a text. `start` tells that a line starts here, of which
`indent` blanks are read, and `opened` counts the open parentheses. -/
def lexemesFrom (start : Bool) (indent opened : Nat) (cs : List Char) : Option (List Lexeme) :=
  match cs with
  | [] => some []
  | c :: rest =>
      if c == '\n' then lexemesFrom (start || opened == 0) 0 opened rest
      else if isLineBlank c then lexemesFrom start (indent + 1) opened rest
      else if c == '#' then lexemesFrom start indent opened (rest.dropWhile (· != '\n'))
      else if start then (lexemesFrom false 0 opened (c :: rest)).map (.line indent :: ·)
      else
        match _hscan : scanLexeme c rest with
        | none => none
        | some (lexeme, after) =>
            (lexemesFrom false 0 (openAfter opened lexeme) after).map (lexeme :: ·)
termination_by 2 * cs.length + start.toNat
decreasing_by
  · simp only [List.length_cons]
    have := Bool.toNat_le (start || opened == 0)
    omega
  · simp only [List.length_cons]
    omega
  · have := (List.dropWhile_suffix (l := rest) (· != '\n')).length_le
    simp only [List.length_cons]
    omega
  · simp_all
  · have := scanLexeme_length _hscan
    simp only [List.length_cons, Bool.toNat_false]
    omega

def lexemes (source : String) : Option (List Lexeme) :=
  lexemesFrom true 0 0 source.toList

end Fluxion.Code
