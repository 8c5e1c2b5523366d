import Fluxion.Number.Rounding

/-!
# Double-precision values as exact numbers

A `Float` is read into its exact value, a significand times a power of two, and
a quotient of integers is written back as the nearest `Float`. Texts, decimal
rounding and the arbitrary tier all work on this exact view and never on the
machine's own printing.

* `Binary64.ofFloat` reads; the significand of a finite value is below `2 ^ 53`.
* `Binary64.nearest` writes, rounding once, ties to even, with gradual
  underflow and overflow to infinity.
-/

namespace Fluxion.Number

/-- The value of a `Float`: `(-1)^negative * significand * 2 ^ exponent` when finite. -/
inductive Binary64 where
  | nan
  | infinite (negative : Bool)
  | finite (negative : Bool) (significand : Nat) (exponent : Int)
deriving DecidableEq, Repr

namespace Binary64

def minExponent : Int := -1074

/-- The leading bit of a significand, which is not stored: bit 52. -/
def leadingBit : Nat := 0x10000000000000

def signBit : Nat := 0x8000000000000000

/-- The largest exponent field, which marks infinities and not-a-number. -/
def topField : Nat := 2047

/-- The code of infinity: the largest exponent field and no fraction. -/
def infinityCode : Nat := topField * leadingBit

def ofFloat (x : Float) : Binary64 :=
  let bits := x.toBits.toNat
  let negative := decide (signBit ≤ bits)
  let field : Nat := bits / leadingBit % (topField + 1)
  let fraction : Nat := bits % leadingBit
  if field = topField then
    if fraction = 0 then .infinite negative else .nan
  else if field = 0 then .finite negative fraction minExponent
  else .finite negative (leadingBit + fraction) ((field : Int) - 1075)

/-- The `Float` with the given sign and magnitude `code`, the position of the
magnitude in the ascending list of non-negative values. Positions from infinity
on are infinity. -/
def ofCode (negative : Bool) (code : Nat) : Float :=
  let magnitude := min code infinityCode
  Float.ofBits (UInt64.ofNat (magnitude + if negative then signBit else 0))

/-- The exponent of the last place of the `Float` nearest to a quotient of this
size. -/
def lastPlace (n d : Nat) : Int :=
  max (quotientLog2 n d - 52) minExponent

/-- The `Float` nearest to `n / d` with the given sign; `d` is positive. Rounding up
to the next power of two needs no care, since the next position in the list of
values is the right one. -/
def nearest (negative : Bool) (n d : Nat) : Float :=
  if n = 0 then ofCode negative 0
  else
    let e := lastPlace n d
    ofCode negative ((e - minExponent).toNat * leadingBit + scaledNearest n d (-e))

/-- The `Float` nearest to `(-1)^negative * m * 2 ^ e`. -/
def nearestScaled (negative : Bool) (m : Nat) (e : Int) : Float :=
  let (up, down) := powerOfTwo e
  nearest negative (m * up) down

/-- A finite value as a quotient of integers, without its sign. -/
def quotient (significand : Nat) (exponent : Int) : Nat × Nat :=
  let (up, down) := powerOfTwo exponent
  (significand * up, down)

end Binary64

def infinity : Float := Binary64.ofCode false Binary64.infinityCode

def notANumber : Float := Float.ofBits 0x7ff8000000000000

def epsilon : Float := Binary64.ofCode false ((1023 - 52) * Binary64.leadingBit)

def isIntegral (x : Float) : Bool :=
  match Binary64.ofFloat x with
  | .finite _ m e => let (n, d) := Binary64.quotient m e; n % d == 0
  | _ => false

/-- The integer part of a finite value, toward zero. -/
def truncate (x : Float) : Int :=
  match Binary64.ofFloat x with
  | .finite negative m e =>
      let (n, d) := Binary64.quotient m e
      if negative then -((n / d : Nat) : Int) else ((n / d : Nat) : Int)
  | _ => 0

end Fluxion.Number
