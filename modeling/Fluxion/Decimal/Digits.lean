import Fluxion.Number.Binary64

/-!
# Decimal digits of double-precision values

A finite positive value is a quotient of integers; its digits are found in
exact integer arithmetic.

* `shortest` gives the fewest digits that read back as the value, and of those
  the nearest; of two equally near ones the even.
* `significant` gives a fixed number of significant digits, correctly rounded.
* `toPlaces` rounds a value to a fixed number of decimal places.
-/

namespace Fluxion.Decimal

open Fluxion.Number

/-- The positive number `digits * 10 ^ exponent`. -/
structure Digits where
  digits : Nat
  exponent : Int
deriving DecidableEq, Repr

/-- The power of ten, as a pair of factors: `10 ^ k` is the first over the second. -/
def powerOfTen (k : Int) : Nat × Nat :=
  (Nat.pow 10 k.toNat, Nat.pow 10 (-k).toNat)

def digitChars (n : Nat) : List Char :=
  Nat.toDigits 10 n

def digitCount (n : Nat) : Nat :=
  (digitChars n).length

/-- The exponent `t` with `10 ^ t ≤ n / d < 10 ^ (t + 1)`, for positive `n` and `d`. -/
def quotientLog10 (n d : Nat) : Int :=
  if d ≤ n then (digitCount (n / d) : Int) - 1
  else
    let length := digitCount (d / n)
    if d ≤ n * Nat.pow 10 (length - 1) then 1 - (length : Int) else -(length : Int)

/-- The interval of numbers that read back as a value. The value and the two
ends are given in units of a quarter of the last binary place, and the ends
belong to the interval when `closed` holds. -/
structure Interval where
  low : Nat
  value : Nat
  high : Nat
  closed : Bool

/-- The interval around `significand * 2 ^ exponent`. Below a power of two the
neighbour is only half as far away. -/
def Interval.around (significand : Nat) (exponent : Int) : Interval where
  low :=
    if significand = Binary64.leadingBit ∧ Binary64.minExponent < exponent then 4 * significand - 1
    else 4 * significand - 2
  value := 4 * significand
  high := 4 * significand + 2
  closed := significand % 2 == 0

/-- Whether `point` over the common scale `unit` lies in the interval. -/
def Interval.holds (i : Interval) (unit point : Nat) : Bool :=
  if i.closed then i.low * unit ≤ point && point ≤ i.high * unit
  else i.low * unit < point && point < i.high * unit

/-- The best multiple of `10 ^ grid` that lies in the interval around
`significand * 2 ^ exponent`: the nearer of the two neighbours of the value, the
even one of two equally near. -/
def onGrid? (significand : Nat) (exponent grid : Int) : Option Nat :=
  let i := Interval.around significand exponent
  let (two, twoBelow) := powerOfTwo (exponent - 2)
  let (ten, tenBelow) := powerOfTen grid
  let unit := two * tenBelow
  let step := ten * twoBelow
  let value := i.value * unit
  let q := value / step
  let below := q * step
  let above := (q + 1) * step
  match i.holds unit below, i.holds unit above with
  | false, false => none
  | true, false => some q
  | false, true => some (q + 1)
  | true, true =>
      if value - below < above - value then some q
      else if above - value < value - below then some (q + 1)
      else if q % 2 = 0 then some q else some (q + 1)

/-- The first of the grids with at most `left` more digits that has a hit; with
the next coarser grid at `10 ^ grid`. -/
def firstOnGrid (significand : Nat) (exponent : Int) : Nat → Int → Digits
  | 0, grid =>
      let (n, d) := Binary64.quotient significand exponent
      let (ten, tenBelow) := powerOfTen grid
      ⟨divNearest (n * tenBelow) (d * ten), grid⟩
  | left + 1, grid =>
      match onGrid? significand exponent grid with
      | some q => ⟨q, grid⟩
      | none => firstOnGrid significand exponent left (grid - 1)

/-- The shortest digits that read back as the positive value
`significand * 2 ^ exponent`; seventeen always suffice. -/
def shortest (significand : Nat) (exponent : Int) : Digits :=
  let (n, d) := Binary64.quotient significand exponent
  firstOnGrid significand exponent 16 (quotientLog10 n d)

/-- The positive value `n / d` with `count` significant digits, ties to even. -/
def significant (count n d : Nat) : Digits :=
  let grid := quotientLog10 n d - (count - 1)
  let (ten, tenBelow) := powerOfTen grid
  let q := divNearest (n * tenBelow) (d * ten)
  if q = Nat.pow 10 count then ⟨Nat.pow 10 (count - 1), grid + 1⟩ else ⟨q, grid⟩

/-- The value with `places` decimal places, ties to even, as the nearest
`Float`. The sign is kept, also that of a result which is zero. -/
def toPlaces (places : Nat) (x : Float) : Float :=
  match Binary64.ofFloat x with
  | .finite negative m e =>
      let (n, d) := Binary64.quotient m e
      Binary64.nearest negative (divNearest (n * Nat.pow 10 places) d) (Nat.pow 10 places)
  | _ => x

end Fluxion.Decimal
