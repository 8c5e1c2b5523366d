import Fluxion.Number.Reading

/-!
# Multiprecision arithmetic

The arbitrary tier leaves its numbers to a library of multiprecision arithmetic. `Multiprecision`
is what the program asks of it, always with the bits that the answer is to have; the standard one
is that of `Wide`. What the numbers are is not left open: an integer times a power of two.

The library refuses to divide by zero, so that case is the program's own.
-/

namespace Fluxion.Number

inductive ArithmeticOp where
  | add | sub | mul | div
deriving DecidableEq, Repr

/-- An arithmetic of numbers with so many bits. -/
class Multiprecision where
  ofInt : Nat → Int → Wide
  ofFloat : Nat → Float → Wide
  read : Nat → String → Except Wide.ReadError Wide
  round : Nat → Wide → Wide
  neg : Nat → Wide → Wide
  /-- The result of an operation. No quotient is asked for whose denominator is zero. -/
  compute : ArithmeticOp → Nat → Wide → Wide → Wide

instance Multiprecision.standard : Multiprecision where
  ofInt bits n := Wide.ofInt bits n 0
  ofFloat := Wide.ofFloat
  read := Wide.read
  round := Wide.round
  neg bits w := w.neg.round bits
  compute
    | .add => Wide.add
    | .sub => Wide.sub
    | .mul => Wide.mul
    | .div => Wide.div

variable [Multiprecision]

/-- The quotient. A number over zero is an infinity with the sign of the number, since zero has
none; zero over zero is not a number. -/
def divide (bits : Nat) (x y : Wide) : Wide :=
  if y.isZero then
    if x.isZero || x.isNaN then .nan else .infinite x.isNegative
  else Multiprecision.compute .div bits x y

def ArithmeticOp.onWide : ArithmeticOp → Nat → Wide → Wide → Wide
  | .div => divide
  | op => Multiprecision.compute op

end Fluxion.Number
