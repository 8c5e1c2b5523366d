import Fluxion.Source.Error
import Fluxion.Decimal.Numeral
import Fluxion.Text.Blank
import Fluxion.Text.Identifier

/-!
# Tokens

The text of an expression is read as a list of tokens, each with the span of
characters it was read from, closed by an end mark.

* `scanToken` reads one token; the text that follows it is strictly shorter.
* `tokenize` reads a whole text. Six blanks may stand between tokens, nothing
  else is skipped.
* Four operators have a second spelling, and a token carries the first.
-/

namespace Fluxion.Source

open Fluxion.Decimal Fluxion.Text

inductive TokenKind where
  | plus | minus | star | slash | caret | lparen | rparen | comma | number | name | eof
deriving DecidableEq, Repr

def TokenKind.label : TokenKind → String
  | .plus => "PLUS"
  | .minus => "MINUS"
  | .star => "STAR"
  | .slash => "SLASH"
  | .caret => "CARET"
  | .lparen => "LPAREN"
  | .rparen => "RPAREN"
  | .comma => "COMMA"
  | .number => "NUMBER"
  | .name => "NAME"
  | .eof => "EOF"

/-- A token: its kind, its canonical text and its span. -/
structure Token where
  kind : TokenKind
  text : String
  start : Nat
  stop : Nat
deriving DecidableEq, Repr

def Token.found (t : Token) : String :=
  if t.kind = .eof then "EOF"
  else if t.text = "" then t.kind.label
  else t.kind.label ++ "(" ++ t.text ++ ")"

def endMark (length : Nat) : Token :=
  ⟨.eof, "", length, length⟩

/-- An operator or a parenthesis at the start of a text: its kind, its canonical
text, and the rest. Two stars are one operator. -/
def scanOperator : List Char → Option (TokenKind × String × List Char)
  | '*' :: '*' :: rest => some (.caret, "^", rest)
  | '+' :: rest => some (.plus, "+", rest)
  | '-' :: rest => some (.minus, "-", rest)
  | '−' :: rest => some (.minus, "-", rest)
  | '*' :: rest => some (.star, "*", rest)
  | '×' :: rest => some (.star, "*", rest)
  | '/' :: rest => some (.slash, "/", rest)
  | '÷' :: rest => some (.slash, "/", rest)
  | '^' :: rest => some (.caret, "^", rest)
  | '(' :: rest => some (.lparen, "(", rest)
  | ')' :: rest => some (.rparen, ")", rest)
  | ',' :: rest => some (.comma, ",", rest)
  | _ => none

/-- Whether a number has to start here: at a digit of any script, or at a point
that one follows. -/
def startsNumber : List Char → Bool
  | '.' :: c :: _ => isDigit c
  | c :: _ => isDigit c
  | [] => false

def errorAt (pos : Nat) (cause : Cause) (expected : List String) (c : Char) : Failure :=
  .rejected ⟨cause, pos, pos + 1, expected, some (String.singleton c)⟩

/-- A number at the start of the text `cs`, whose first character is `c`. The
longest numeral is taken. A letter of an exponent right behind it is an error
and not the start of a name, so `2e` and `2e+` are not read as a product. -/
def scanNumber (pos : Nat) (c : Char) (cs : List Char) : Except Failure (Token × List Char) :=
  match Numeral.scan cs with
  | none => .error (errorAt pos (.badNumeral (String.singleton c)) ["NUMBER"] c)
  | some (numeral, rest) =>
      let text := numeral.text
      let stop := pos + text.length
      match rest with
      | letter :: _ =>
          if letter == 'e' || letter == 'E' then
            .error <| .rejected
              ⟨.badNumeral (String.ofList (text ++ [letter])), pos, stop + 1, ["exponent digits"],
                some (String.singleton letter)⟩
          else .ok (⟨.number, String.ofList text, pos, stop⟩, rest)
      | [] => .ok (⟨.number, String.ofList text, pos, stop⟩, rest)

def scanToken (pos : Nat) (c : Char) (cs : List Char) : Except Failure (Token × List Char) :=
  match scanOperator (c :: cs) with
  | some (kind, text, rest) => .ok (⟨kind, text, pos, pos + (cs.length + 1 - rest.length)⟩, rest)
  | none =>
      if startsNumber (c :: cs) then scanNumber pos c (c :: cs)
      else if isLetter c then
        let tail := cs.takeWhile isNameChar
        .ok (⟨.name, String.ofList (c :: tail), pos, pos + 1 + tail.length⟩,
          cs.dropWhile isNameChar)
      else .error (errorAt pos (.badCharacter c) [] c)

theorem scanOperator_length {c : Char} {cs rest : List Char} {kind : TokenKind} {text : String}
    (h : scanOperator (c :: cs) = some (kind, text, rest)) : rest.length < cs.length + 1 := by
  unfold scanOperator at h
  split at h <;> cases h <;> grind

theorem scanNumber_length {pos : Nat} {c : Char} {cs rest : List Char} {t : Token}
    (h : scanNumber pos c cs = .ok (t, rest)) : rest.length < cs.length := by
  unfold scanNumber at h
  split at h
  · simp at h
  · next numeral after hscan =>
      have hlength := Numeral.scan_length hscan
      dsimp only at h
      split at h
      · split at h
        · simp at h
        · simp only [Except.ok.injEq, Prod.mk.injEq] at h
          obtain ⟨_, rfl⟩ := h
          exact hlength
      · simp only [Except.ok.injEq, Prod.mk.injEq] at h
        obtain ⟨_, rfl⟩ := h
        exact hlength

/-- What follows a token is shorter than the text that starts with it. -/
theorem scanToken_length {pos : Nat} {c : Char} {cs rest : List Char} {t : Token}
    (h : scanToken pos c cs = .ok (t, rest)) : rest.length < cs.length + 1 := by
  unfold scanToken at h
  split at h
  · next hop =>
      simp only [Except.ok.injEq, Prod.mk.injEq] at h
      obtain ⟨_, rfl⟩ := h
      exact scanOperator_length hop
  · split at h
    · simpa using scanNumber_length h
    · split at h
      · simp only [Except.ok.injEq, Prod.mk.injEq] at h
        obtain ⟨_, rfl⟩ := h
        have := (List.dropWhile_suffix (l := cs) isNameChar).length_le
        omega
      · simp at h

def tokenizeFrom (pos : Nat) (cs : List Char) : Except Failure (List Token) :=
  match cs with
  | [] => .ok [endMark pos]
  | c :: rest =>
      if isSpacing c then tokenizeFrom (pos + 1) rest
      else
        match _hscan : scanToken pos c rest with
        | .error e => .error e
        | .ok (t, after) =>
            match tokenizeFrom t.stop after with
            | .error e => .error e
            | .ok ts => .ok (t :: ts)
termination_by cs.length
decreasing_by
  · simp
  · simpa using scanToken_length _hscan

def tokenize (source : String) : Except Failure (List Token) :=
  tokenizeFrom 0 source.toList

end Fluxion.Source
