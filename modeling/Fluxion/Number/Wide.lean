import Fluxion.Number.Binary64

/-!
# Binary numbers of any precision

A finite value is an odd integer times a power of two, or zero, so every value
has one form. There is no negative zero, exponents are unbounded, and nothing
is subnormal.

Every operation forms its exact result as a quotient of integers times a power
of two and rounds it once, to the nearest value with the wanted number of bits,
ties to even.
-/

namespace Fluxion.Number

/-- A binary number: not a number, an infinity, or `significand * 2 ^ exponent`. -/
inductive Wide where
  | nan
  | infinite (negative : Bool)
  | finite (significand : Int) (exponent : Int)
deriving DecidableEq, Repr

namespace Wide

/-- The odd part of a positive number and how often two divides it. -/
def oddPart (n : Nat) : Nat × Nat :=
  if _h : n = 0 then (0, 0)
  else if n % 2 = 0 then
    let (odd, twos) := oddPart (n / 2)
    (odd, twos + 1)
  else (n, 0)
termination_by n
decreasing_by omega

def signed (negative : Bool) (n : Nat) : Int :=
  if negative then -(n : Int) else n

/-- The number `(-1)^negative * n * 2 ^ e` in its one form. -/
def ofScaled (negative : Bool) (n : Nat) (e : Int) : Wide :=
  if n = 0 then .finite 0 0
  else
    let (odd, twos) := oddPart n
    .finite (signed negative odd) (e + twos)

/-- The number with `bits` bits that is nearest to `(-1)^negative * n / d * 2 ^ e`;
`d` is positive. -/
def nearest (bits : Nat) (negative : Bool) (n d : Nat) (e : Int) : Wide :=
  if n = 0 then .finite 0 0
  else
    let last := quotientLog2 n d + 1 - bits
    ofScaled negative (scaledNearest n d (-last)) (last + e)

def ofInt (bits : Nat) (n : Int) (e : Int) : Wide :=
  nearest bits (decide (n < 0)) n.natAbs 1 e

def ofFloat (bits : Nat) (x : Float) : Wide :=
  match Binary64.ofFloat x with
  | .nan => .nan
  | .infinite negative => .infinite negative
  | .finite negative m e => nearest bits negative m 1 e

def round (bits : Nat) : Wide → Wide
  | .finite m e => ofInt bits m e
  | x => x

/-- The nearest `Float` with 53 bits, which is rounded again if it is too small
for them. -/
def toFloat : Wide → Float
  | .nan => notANumber
  | .infinite negative => Binary64.ofCode negative Binary64.infinityCode
  | .finite m e =>
      match ofInt 53 m e with
      | .finite m e => Binary64.nearestScaled (decide (m < 0)) m.natAbs e
      | _ => notANumber

def isNaN : Wide → Bool
  | .nan => true
  | _ => false

def isInfinite : Wide → Bool
  | .infinite _ => true
  | _ => false

def isZero : Wide → Bool
  | .finite m _ => m == 0
  | _ => false

def isNegative : Wide → Bool
  | .nan => false
  | .infinite negative => negative
  | .finite m _ => decide (m < 0)

def neg : Wide → Wide
  | .nan => .nan
  | .infinite negative => .infinite !negative
  | .finite m e => .finite (-m) e

def abs : Wide → Wide
  | .nan => .nan
  | .infinite _ => .infinite false
  | .finite m e => .finite m.natAbs e

/-- The integer `m * 2 ^ (e - lower)`, for `lower` not above `e`. -/
def aligned (m e lower : Int) : Int :=
  m * (Nat.pow 2 (e - lower).toNat : Nat)

def add (bits : Nat) : Wide → Wide → Wide
  | .nan, _ => .nan
  | _, .nan => .nan
  | .infinite a, .infinite b => if a = b then .infinite a else .nan
  | .infinite a, .finite _ _ => .infinite a
  | .finite _ _, .infinite b => .infinite b
  | .finite m e, .finite n f =>
      let lower := min e f
      ofInt bits (aligned m e lower + aligned n f lower) lower

def sub (bits : Nat) (x y : Wide) : Wide :=
  add bits x y.neg

def mul (bits : Nat) : Wide → Wide → Wide
  | .nan, _ => .nan
  | _, .nan => .nan
  | .infinite a, .infinite b => .infinite (a != b)
  | .infinite a, .finite n _ => if n = 0 then .nan else .infinite (a != decide (n < 0))
  | .finite m _, .infinite b => if m = 0 then .nan else .infinite (decide (m < 0) != b)
  | .finite m e, .finite n f => ofInt bits (m * n) (e + f)

/-- A quotient with `bits` bits; the denominator is not zero. -/
def div (bits : Nat) : Wide → Wide → Wide
  | .nan, _ => .nan
  | _, .nan => .nan
  | .infinite _, .infinite _ => .nan
  | .infinite a, .finite n _ => .infinite (a != decide (n < 0))
  | .finite _ _, .infinite _ => .finite 0 0
  | .finite m e, .finite n f =>
      nearest bits (decide (m < 0) != decide (n < 0)) m.natAbs n.natAbs (e - f)

end Wide

end Fluxion.Number
