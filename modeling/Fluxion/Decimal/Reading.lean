import Fluxion.Decimal.Numeral
import Fluxion.Text.Blank
import Fluxion.Text.Digit

/-!
# Numbers in settings and requests

Outside expressions a number may be written more freely: blanks around it, a
sign, single underscores between digits, digits of any script, and the names of
infinity and not-a-number in any case.
-/

namespace Fluxion.Decimal

open Fluxion.Number Fluxion.Text

/-- The text with every positional digit in its ASCII form. -/
def asciiDigits (cs : List Char) : List Char :=
  cs.map fun c =>
    match decimalValue? c with
    | some n => Char.ofNat (48 + n)
    | none => c

/-- The text without its underscores, each of which has to stand between two
digits; `afterDigit` tells whether a digit came just before. -/
def dropUnderscores? (afterDigit : Bool) : List Char → Option (List Char)
  | [] => some []
  | '_' :: cs =>
      match cs with
      | c :: _ => if afterDigit && isAsciiDigit c then dropUnderscores? false cs else none
      | [] => none
  | c :: cs => (dropUnderscores? (isAsciiDigit c) cs).map (c :: ·)

/-- A sign, read as "is negative", and what follows. -/
def splitSign : List Char → Bool × List Char
  | '-' :: cs => (true, cs)
  | '+' :: cs => (false, cs)
  | cs => (false, cs)

def maxIntegerDigits : Nat := 4300

def readIntChars? (cs : List Char) : Option Int :=
  let (negative, digits) := splitSign (asciiDigits (stripChars cs))
  match dropUnderscores? false digits with
  | none => none
  | some digits =>
      if digits.isEmpty || !digits.all isAsciiDigit || maxIntegerDigits < digits.length then none
      else
        let n := Numeral.natOfDigits digits
        some (if negative then -(n : Int) else n)

def readFloatChars? (cs : List Char) : Option Float :=
  let (negative, body) := splitSign (asciiDigits (stripChars cs))
  let word := String.ofList (body.map Char.toLower)
  if word == "inf" || word == "infinity" then some (Binary64.ofCode negative Binary64.infinityCode)
  else if word == "nan" then some notANumber
  else
    match dropUnderscores? false body with
    | none => none
    | some body => (Numeral.ofChars? body).map (·.signedValue negative)

def readInt? (s : String) : Option Int :=
  readIntChars? s.toList

def readFloat? (s : String) : Option Float :=
  readFloatChars? s.toList

end Fluxion.Decimal
