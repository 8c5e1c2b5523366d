import Fluxion.Number.Policy
import Fluxion.Number.Multiprecision

/-!
# Quantities

A quantity is a number in one of two tiers together with an estimate of its
error. The fast tier holds a `Float`; the arbitrary tier holds a binary number
of a stated precision.

Arithmetic stays in the fast tier as long as both operands are there and the
estimate of the result is within the bound of the policy. Otherwise the
operation is carried out in the arbitrary tier, with enough bits for both
operands and the policy. Every operation adds one step of rounding, relative to
the size of the result, to the estimates of its operands.
-/

namespace Fluxion.Number

/-- A number with an estimate of its error. -/
inductive Quantity where
  | fast (value error : Float)
  | arbitrary (value : Wide) (bits : Nat) (error : Float)
deriving Repr

def ArithmeticOp.onFloat : ArithmeticOp → Float → Float → Float
  | .add, x, y => x + y
  | .sub, x, y => x - y
  | .mul, x, y => x * y
  | .div, x, y => x / y

namespace Quantity

def error : Quantity → Float
  | .fast _ error => error
  | .arbitrary _ _ error => error

def toFloat : Quantity → Float
  | .fast value _ => value
  | .arbitrary value _ _ => value.toFloat

def bits : Quantity → Nat
  | .fast _ _ => floatBits
  | .arbitrary _ bits _ => bits

def toWide [Multiprecision] (bits : Nat) : Quantity → Wide
  | .fast value _ => Multiprecision.ofFloat bits value
  | .arbitrary value own _ => if bits = own then value else Multiprecision.round bits value

def toArbitrary [Multiprecision] (bits : Nat) (q : Quantity) : Quantity :=
  .arbitrary (q.toWide bits) bits q.error

/-- A fresh quantity of the same tier, value and estimate. -/
def clone [Multiprecision] : Quantity → Quantity
  | .fast value error => .fast value error
  | .arbitrary value bits error => .arbitrary (Multiprecision.round bits value) bits error

/-- Whether a clone is the quantity itself and not a fresh one: a `Float` needs
no new storage. -/
def cloneIsSelf : Quantity → Bool
  | .fast _ _ => true
  | .arbitrary _ _ _ => false

/-- Whether a quantity is already what `toArbitrary` would make of it. -/
def toArbitraryIsSelf (bits : Nat) : Quantity → Bool
  | .fast _ _ => false
  | .arbitrary _ own _ => bits == own

def neg [Multiprecision] : Quantity → Quantity
  | .fast value error => .fast (-value) error
  | .arbitrary value bits error => .arbitrary (Multiprecision.neg bits value) bits error

def isNaN : Quantity → Bool
  | .fast value _ => value.isNaN
  | .arbitrary value _ _ => value.isNaN

def isInfinite : Quantity → Bool
  | .fast value _ => value.isInf
  | .arbitrary value _ _ => value.isInfinite

def isFinite (q : Quantity) : Bool :=
  !(q.isNaN || q.isInfinite)

def isArbitrary : Quantity → Bool
  | .fast _ _ => false
  | .arbitrary _ _ _ => true

/-- Whether two quantities have the same value. All values that are not numbers
count as the same, and estimates do not matter. -/
def sameValue [Multiprecision] (a b : Quantity) : Bool :=
  if a.isNaN || b.isNaN then a.isNaN && b.isNaN
  else if a.isArbitrary || b.isArbitrary then
    let bits := max a.bits b.bits
    a.toWide bits == b.toWide bits
  else a.toFloat == b.toFloat

/-- The size of the last bit of a number near 1 with `bits` bits. The power of two would fail for
a precision that is itself beyond every `Float`; there is no memory for a number of so many bits,
so that case is left out. -/
def bitStep (bits : Nat) : Float :=
  Binary64.nearest false 1 (Nat.pow 2 bits)

/-- The estimate after an operation: what the operands brought along and one
step of the size of the result. A result that is not finite has no bound. -/
def accumulate (prior magnitude step : Float) : Float :=
  if magnitude.isFinite then prior + magnitude * step else infinity

/-- The size of a binary number as a `Float`, infinite if it has none. -/
def magnitude (value : Wide) : Float :=
  if value.isNaN || value.isInfinite then infinity else value.abs.toFloat

/-- An operation in the arbitrary tier with `bits` bits. -/
def arbitraryOp [Multiprecision] (op : ArithmeticOp) (a b : Quantity) (prior : Float)
    (bits : Nat) : Quantity :=
  let result := op.onWide bits (a.toWide bits) (b.toWide bits)
  .arbitrary result bits (accumulate prior (magnitude result) (bitStep bits))

inductive ValueClass where
  | nan | infinite | finite
deriving DecidableEq, Repr

def valueClass (q : Quantity) : ValueClass :=
  if q.isNaN then .nan else if q.isInfinite then .infinite else .finite

def apply [Multiprecision] (op : ArithmeticOp) (policy : Policy) (a b : Quantity) : Quantity :=
  let prior := a.error + b.error
  if a.isArbitrary || b.isArbitrary then
    arbitraryOp op a b prior (max (max a.bits b.bits) policy.bits)
  else
    let result := op.onFloat a.toFloat b.toFloat
    let error := accumulate prior result.abs epsilon
    if result.isFinite && error > policy.threshold * result.abs then
      arbitraryOp op a b prior policy.bits
    else .fast result error

end Quantity

end Fluxion.Number
