import Fluxion.Decimal.Layout
import Fluxion.Decimal.Reading
import Fluxion.Number.Wide
import Fluxion.Text.Lowercase
import Fluxion.Text.Quoted

/-!
# Reading binary numbers

The text of a number of the arbitrary tier is a decimal, a quotient of two
integers, an integer in another base with a marked base, or the name of a
number that is not finite. It is read exactly and rounded once.

For decimals with an exponent far from zero a library may do with an approximate
power of ten. That is left to the library: no theorem is about which number a
text denotes.
-/

namespace Fluxion.Number.Wide

open Fluxion.Decimal Fluxion.Text

inductive ReadError where
  /-- A part of the text is no integer in the given base. -/
  | notInteger (base : Nat) (part : String)
  /-- There is more than one exponent. -/
  | manyExponents
  /-- There is more than one fraction bar. -/
  | manyBars
  /-- The denominator is zero. -/
  | zeroDenominator
deriving DecidableEq, Repr

def ReadError.message : ReadError → String
  | .notInteger base part =>
      "invalid literal for int() with base " ++ natText base ++ ": " ++ quoted part
  | .manyExponents => "couldn't convert a str to mpf"
  | .manyBars => "too many values to unpack (expected 2)"
  | .zeroDenominator => ""

def named? (text : String) : Option Wide :=
  if text = "inf" ∨ text = "+inf" ∨ text = "oo" ∨ text = "+oo" then some (.infinite false)
  else if text = "-inf" ∨ text = "-oo" then some (.infinite true)
  else if text = "nan" then some .nan
  else none

/-- The text cut at every occurrence of a character. -/
def splitAtChar (c : Char) : List Char → List (List Char)
  | [] => [[]]
  | d :: ds =>
      if d == c then [] :: splitAtChar c ds
      else
        match splitAtChar c ds with
        | part :: parts => (d :: part) :: parts
        | [] => [[d]]

def digitIn? (base : Nat) (c : Char) : Option Nat :=
  let n :=
    match decimalValue? c with
    | some n => n
    | none => if 'a' ≤ c && c ≤ 'f' then c.toNat - 87 else base
  if n < base then some n else none

def natIn? (base : Nat) (cs : List Char) : Option Nat :=
  if cs.isEmpty then none
  else cs.foldlM (fun n c => (digitIn? base c).map (base * n + ·)) 0

/-- The integer that a part denotes. In a base other than ten the mark of the
base comes first. -/
def integerPart (base : Nat) (cs : List Char) : Except ReadError Int :=
  let value :=
    if base = 10 then readIntChars? cs
    else
      let (negative, digits) := splitSign (stripChars cs)
      (natIn? base (digits.drop 2)).map (signed negative)
  match value with
  | some n => .ok n
  | none => .error (.notInteger base (String.ofList cs))

def readQuotient (bits : Nat) (parts : List (List Char)) : Except ReadError Wide :=
  match parts with
  | [p, q] => do
      let p ← integerPart 10 p
      let q ← integerPart 10 q
      if q = 0 then .error .zeroDenominator
      else return nearest bits (decide (p < 0) != decide (q < 0)) p.natAbs q.natAbs 0
  | _ => .error .manyBars

/-- The base that is marked at the start of a text; ten without a mark. -/
def markedBase (cs : List Char) : Nat :=
  match if cs.head? == some '-' then cs.drop 1 else cs with
  | '0' :: 'x' :: _ => 16
  | '0' :: 'b' :: _ => 2
  | '0' :: 'o' :: _ => 8
  | _ => 10

/-- The number of binary places of a digit, for the bases that have one. -/
def placesOfBase (base : Nat) : Nat :=
  if base = 16 then 4 else if base = 8 then 3 else 1

/-- Mantissa digits without the point, and how many of them stood behind it. -/
def splitPoint (cs : List Char) : List Char × Nat :=
  match splitAtChar '.' cs with
  | [whole, fraction] =>
      let fraction := trimZeros fraction
      (whole ++ fraction, fraction.length)
  | _ => (cs, 0)

/-- The mantissa and the exponent of a text, which `mark` separates. -/
def splitExponent (mark : Char) (cs : List Char) : Except ReadError (List Char × Int) :=
  match splitAtChar mark cs with
  | [mantissa] => .ok (mantissa, 0)
  | [mantissa, exponent] => (integerPart 10 exponent).map fun n => (mantissa, n)
  | _ => .error .manyExponents

def readPositional (bits : Nat) (cs : List Char) : Except ReadError Wide := do
  let base := markedBase cs
  let (mantissa, exponent) ← splitExponent (if base = 10 then 'e' else 'p') cs
  let (digits, places) := splitPoint mantissa
  let n ← integerPart base digits
  let negative := decide (n < 0)
  if base = 10 then
    let (ten, tenBelow) := powerOfTen (exponent - places)
    return nearest bits negative (n.natAbs * ten) tenBelow 0
  else return nearest bits negative n.natAbs 1 (exponent - (places * placesOfBase base : Nat))

def read (bits : Nat) (text : String) : Except ReadError Wide :=
  let cs := stripChars (lowerFrom [] text.toList)
  match named? (String.ofList cs) with
  | some x => .ok x
  | none =>
      if cs.contains '/' then readQuotient bits (splitAtChar '/' cs)
      else
        let cs := (cs.reverse.dropWhile (· == 'l')).reverse.filter (· != '_')
        readPositional bits cs

/-- The exact text of a number: an odd integer and a power of two. -/
def text : Wide → String
  | .nan => "nan"
  | .infinite false => "inf"
  | .infinite true => "-inf"
  | .finite m e => if m = 0 then "0" else intText m ++ "p" ++ intText e

end Fluxion.Number.Wide
