import Fluxion.Expr.Function
import Fluxion.Number.Binary64

/-!
# Constants as the rules see them

The rules of differentiation fold constants while they build a tree. All they
need of the constants is collected in the class `Scalar`, so that the same
rules can be read over `Float`, where the program runs them, and over an exact
field, where their meaning is stated.
-/

namespace Fluxion.Calculus

open Fluxion.Number

/-- The operations on constants that the rules fold with. -/
class Scalar (α : Type) extends Add α, Sub α, Mul α, Div α, Neg α where
  zero : α
  one : α
  two : α
  minusOne : α
  /-- The natural logarithm of ten. -/
  logTen : α
  /-- Equality, as folding and sharing test it. -/
  same : α → α → Bool
  /-- A power of constants, if it has a value. -/
  power? : α → α → Option α
  /-- A function of the table at a constant, if it has a value. -/
  evaluate? : Function → α → Option α

/-- A function of the table in double precision. Elsewhere a value that is not a number may have
a sign bit, which `sign` tells; here there is one such value, and it counts as positive. -/
def floatFunction : Function → Float → Float
  | .sin, x => x.sin
  | .cos, x => x.cos
  | .tan, x => x.tan
  | .exp, x => x.exp
  | .log, x => x.log
  | .log10, x => x.log10
  | .sqrt, x => x.sqrt
  | .abs, x => x.abs
  | .sign, x => if x == 0.0 then 0.0 else if x < 0.0 then -1.0 else 1.0
  | .asin, x => x.asin
  | .acos, x => x.acos
  | .atan, x => x.atan
  | .sinh, x => x.sinh
  | .cosh, x => x.cosh
  | .tanh, x => x.tanh
  | .floor, x => x.floor
  | .ceil, x => x.ceil

/-- A result that is not a number, or not finite, has no value if the argument
was one or was finite. -/
def checked? (argumentFinite argumentNaN : Bool) (result : Float) : Option Float :=
  if result.isNaN && !argumentNaN then none
  else if result.isInf && argumentFinite then none
  else some result

/-- A function of the table at a constant. Rounding to an integer needs a finite
argument, and has no negative zero. -/
def floatEvaluate? (f : Function) (x : Float) : Option Float :=
  match f with
  | .floor => if x.isFinite then some (x.floor + 0.0) else none
  | .ceil => if x.isFinite then some (x.ceil + 0.0) else none
  | f => checked? x.isFinite x.isNaN (floatFunction f x)

/-- A power of constants. Finite operands need a finite power. -/
def floatPower? (x y : Float) : Option Float :=
  let r := Float.pow x y
  if x.isFinite && y.isFinite && !r.isFinite then none else some r

instance : Scalar Float where
  zero := 0.0
  one := 1.0
  two := 2.0
  minusOne := -1.0
  logTen := 2.302585092994046
  same x y := x == y
  power? := floatPower?
  evaluate? := floatEvaluate?

end Fluxion.Calculus
