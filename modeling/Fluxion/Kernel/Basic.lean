import Fluxion.Calculus.Scalar
import Fluxion.Number.Quantity

/-!
# Kernels

A kernel is a compiled function: a tree of double-precision operations on one
argument. Running it never fails; what has no value is not a number or infinite.
-/

namespace Fluxion

open Fluxion.Calculus Fluxion.Number

inductive Kernel where
  | argument
  | constant (value : Float)
  | neg (operand : Kernel)
  | binary (op : ArithmeticOp) (left right : Kernel)
  | function (f : Function) (operand : Kernel)
  | power (base exponent : Kernel)
deriving Repr, Inhabited

namespace Kernel

/-- A function of the table as kernels run it. The sign of what is neither
positive nor negative is the value itself. -/
def runFunction (f : Function) (x : Float) : Float :=
  match f with
  | .sign => if x > 0.0 then 1.0 else if x < 0.0 then -1.0 else x
  | f => floatFunction f x

def run (x : Float) : Kernel → Float
  | .argument => x
  | .constant value => value
  | .neg a => -run x a
  | .binary op a b => op.onFloat (run x a) (run x b)
  | .function f a => runFunction f (run x a)
  | .power a b => Float.pow (run x a) (run x b)

end Kernel

end Fluxion
