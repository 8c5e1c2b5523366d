import Fluxion.Decimal.Digits

/-!
# Texts of double-precision values

Two texts of a value are in use.

* `floatText` is the exact one: the shortest digits that read back. Values from
  `1e-4` up to `1e16` are written with a point, all others with an exponent.
* `scientificText` is the fixed one, with nine digits after the point.

Both write an exponent with a sign and at least two digits.
-/

namespace Fluxion.Decimal

open Fluxion.Number

/-- The first decimal exponent that is written in positional form. -/
def positionalFrom : Int := -4

/-- The first decimal exponent, above those, that is not. -/
def positionalBelow : Int := 16

def exponentText (exponent : Int) : List Char :=
  let size := digitChars exponent.natAbs
  let size := if size.length < 2 then '0' :: size else size
  'e' :: (if exponent < 0 then '-' else '+') :: size

/-- Leading digit, point, the others and the exponent; a lone digit has no point. -/
def scientificForm (digits : List Char) (exponent : Int) : List Char :=
  match digits with
  | [] => []
  | [d] => d :: exponentText exponent
  | d :: rest => d :: '.' :: rest ++ exponentText exponent

/-- The digits with a point, and a zero on either side where no digit is. -/
def positionalForm (digits : List Char) (exponent : Int) : List Char :=
  if exponent < 0 then
    '0' :: '.' :: List.replicate (-exponent - 1).toNat '0' ++ digits
  else
    let whole := exponent.toNat + 1
    if digits.length ≤ whole then
      digits ++ List.replicate (whole - digits.length) '0' ++ ['.', '0']
    else digits.take whole ++ '.' :: digits.drop whole

def trimZeros (digits : List Char) : List Char :=
  (digits.reverse.dropWhile (· == '0')).reverse

def Digits.text (x : Digits) : List Char :=
  let all := digitChars x.digits
  let exponent := x.exponent + all.length - 1
  let digits := trimZeros all
  if positionalFrom ≤ exponent && exponent < positionalBelow then positionalForm digits exponent
  else scientificForm digits exponent

def signText (negative : Bool) : List Char :=
  if negative then ['-'] else []

/-- The exact text of a value, as a list of characters. -/
def floatChars (x : Float) : List Char :=
  match Binary64.ofFloat x with
  | .nan => ['n', 'a', 'n']
  | .infinite negative => signText negative ++ ['i', 'n', 'f']
  | .finite negative 0 _ => signText negative ++ ['0', '.', '0']
  | .finite negative m e => signText negative ++ (shortest m e).text

/-- The exact text of a value: the shortest that reads back. -/
def floatText (x : Float) : String :=
  String.ofList (floatChars x)

/-- The text of a value with nine digits after the point. -/
def scientificText (x : Float) : String :=
  String.ofList <|
    match Binary64.ofFloat x with
    | .nan => ['n', 'a', 'n']
    | .infinite negative => signText negative ++ ['i', 'n', 'f']
    | .finite negative 0 _ => signText negative ++ scientificForm (List.replicate 10 '0') 0
    | .finite negative m e =>
        let (n, d) := Binary64.quotient m e
        let x := significant 10 n d
        signText negative ++ scientificForm (digitChars x.digits) (x.exponent + 9)

def natText (n : Nat) : String :=
  String.ofList (digitChars n)

def intText (n : Int) : String :=
  String.ofList (signText (decide (n < 0)) ++ digitChars n.natAbs)

end Fluxion.Decimal
