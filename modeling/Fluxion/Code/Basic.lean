import Fluxion.Code.Emit
import Fluxion.Number.Quantity

/-!
# Term

Compiled functions are written in a small language: a module defines functions
of one argument and binds names to values, and the value of a function is an
expression of numbers, names, the four operations of arithmetic, calls and
functions without a name.

* `Term` is the tree of such an expression, `Statement` a line of a module.
* `Term.ofExpr?` is the tree that the text of `emit` stands for.
-/

namespace Fluxion.Code

open Fluxion.Number

inductive Term where
  | integer (value : Nat)
  | float (value : Float)
  | name (symbol : String)
  | neg (operand : Term)
  | binary (op : ArithmeticOp) (left right : Term)
  | call (function : Term) (args : List Term)
  /-- A function without a name. -/
  | function (param : String) (body : Term)
deriving Repr, Inhabited

inductive Statement where
  /-- Defines a function of one argument. -/
  | define (name param : String) (body : Term)
  /-- Binds a name to a value. -/
  | bind (name : String) (value : Term)
  /-- Computes a value and drops it. -/
  | run (value : Term)
deriving Repr

namespace Term

mutual
def height : Term → Nat
  | .integer _ => 1
  | .float _ => 1
  | .name _ => 1
  | .neg a => height a + 1
  | .binary _ a b => max (height a) (height b) + 1
  | .call f args => max (height f) (heightList args) + 1
  | .function _ body => height body + 1

def heightList : List Term → Nat
  | [] => 0
  | a :: as => max (height a) (heightList as)
end

mutual
/-- The names that an expression refers to outside the functions that are written in it,
given the names that are bound around it. -/
def names (bound : List String) : Term → List String
  | .integer _ => []
  | .float _ => []
  | .name symbol => if bound.contains symbol then [] else [symbol]
  | .neg a => names bound a
  | .binary _ a b => names bound a ++ names bound b
  | .call f args => names bound f ++ namesList bound args
  | .function _ _ => []

def namesList (bound : List String) : List Term → List String
  | [] => []
  | a :: as => names bound a ++ namesList bound as
end

/-- A number with its sign: a negative one is the negation of its size. -/
def ofFloat (value : Float) : Term :=
  match Binary64.ofFloat value with
  | .nan => .name "nan"
  | .infinite false => .name "inf"
  | .infinite true => .neg (.name "inf")
  | .finite false _ _ => .float value
  | .finite true _ _ => .neg (.float (-value))

def ofInt (n : Int) : Term :=
  if n < 0 then .neg (.integer n.natAbs) else .integer n.natAbs

/-- The operation of a binary operator that is written between its operands. -/
def arithmetic? : BinaryOp → Option ArithmeticOp
  | .add => some .add
  | .sub => some .sub
  | .mul => some .mul
  | .div => some .div
  | .pow => none
  | .other _ => none

mutual
/-- The code that an expression is written as: variables are the argument, powers
are calls, and whole exponents are integers. -/
def ofExpr? : Expr Float → Option Term
  | .const value => some (ofFloat value)
  | .var _ => some (.name argumentName)
  | .unary _ a => (ofExpr? a).map .neg
  | .binary .pow a b =>
      match ofExpr? a, ofExponent? b with
      | some a, some b => some (.call (.name powerSymbol) [a, b])
      | _, _ => none
  | .binary op a b =>
      match arithmetic? op, ofExpr? a, ofExpr? b with
      | some op, some a, some b => some (.binary op a b)
      | _, _, _ => none
  | .call symbol args => (ofExprs? args).map (.call (.name symbol))

def ofExponent? (e : Expr Float) : Option Term :=
  match integerExponent? e with
  | some n => some (ofInt n)
  | none => ofExpr? e

def ofExprs? : List (Expr Float) → Option (List Term)
  | [] => some []
  | a :: as =>
      match ofExpr? a, ofExprs? as with
      | some a, some as => some (a :: as)
      | _, _ => none
end

end Term

end Fluxion.Code
