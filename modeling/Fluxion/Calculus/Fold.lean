import Fluxion.Calculus.Scalar
import Fluxion.Expr.Basic

/-!
# Building folded trees

The rules build their trees with the functions of this module. Operations on
two constants are carried out, neutral and absorbing operands are dropped, and
a double sign is undone; everything else becomes a node. No other
rearrangement is made, so the shape of a derivative follows its rule.
-/

namespace Fluxion.Calculus

variable {α : Type} [Scalar α]

namespace Fold

def isConst (value : α) : Expr α → Bool
  | .const c => Scalar.same c value
  | _ => false

def zero : Expr α := .const Scalar.zero

def one : Expr α := .const Scalar.one

def two : Expr α := .const Scalar.two

def minusOne : Expr α := .const Scalar.minusOne

/-- A negation: constants are negated and a double sign disappears. -/
def neg : Expr α → Expr α
  | .const c => .const (-c)
  | .unary .neg a => a
  | a => .unary .neg a

/-- The operation on constants when both trees are constants. -/
def constants? : Expr α → Expr α → Option (α × α)
  | .const c, .const d => some (c, d)
  | _, _ => none

def add (a b : Expr α) : Expr α :=
  match constants? a b with
  | some (c, d) => .const (c + d)
  | none =>
      if isConst Scalar.zero a then b
      else if isConst Scalar.zero b then a
      else .binary .add a b

def sub (a b : Expr α) : Expr α :=
  match constants? a b with
  | some (c, d) => .const (c - d)
  | none =>
      if isConst Scalar.zero b then a
      else if isConst Scalar.zero a then neg b
      else .binary .sub a b

def mul (a b : Expr α) : Expr α :=
  match constants? a b with
  | some (c, d) => .const (c * d)
  | none =>
      if isConst Scalar.zero a || isConst Scalar.zero b then zero
      else if isConst Scalar.one a then b
      else if isConst Scalar.one b then a
      else if isConst Scalar.minusOne a then neg b
      else if isConst Scalar.minusOne b then neg a
      else .binary .mul a b

/-- The quotient of trees that are not folded as constants. -/
def divNode (a b : Expr α) : Expr α :=
  if isConst Scalar.one b then a
  else if isConst Scalar.zero a && !isConst Scalar.zero b then zero
  else .binary .div a b

/-- A quotient. Nothing is divided by a constant zero. -/
def div (a b : Expr α) : Expr α :=
  match constants? a b with
  | some (c, d) => if Scalar.same d Scalar.zero then divNode a b else .const (c / d)
  | none => divNode a b

/-- A power. Constants without a power stay a node. -/
def pow (a b : Expr α) : Expr α :=
  match constants? a b with
  | some (c, d) =>
      match Scalar.power? c d with
      | some r => .const r
      | none => .binary .pow a b
  | none =>
      if isConst Scalar.one b then a
      else if isConst Scalar.zero b then one
      else .binary .pow a b

def call (f : Function) (a : Expr α) : Expr α :=
  .call f.name [a]

def binary : BinaryOp → Expr α → Expr α → Expr α
  | .add => add
  | .sub => sub
  | .mul => mul
  | .div => div
  | .pow => pow
  | .other s => .binary (.other s)

def unary : UnaryOp → Expr α → Expr α
  | .neg => neg
  | .other s => .unary (.other s)

end Fold

/-- A quotient of constants; a zero divisor leaves it without a value. -/
def quotient? (c d : α) : Option α :=
  if Scalar.same d Scalar.zero then none else some (c / d)

/-- A binary operator at constants. An operator without a rule of its own is
read as a power. -/
def binaryValue? : BinaryOp → α → α → Option α
  | .add, c, d => some (c + d)
  | .sub, c, d => some (c - d)
  | .mul, c, d => some (c * d)
  | .div, c, d => quotient? c d
  | .pow, c, d => Scalar.power? c d
  | .other _, c, d => Scalar.power? c d

/-- The value of a tree without variables, if it has one. -/
def constantValue? : Expr α → Option α
  | .const c => some c
  | .var _ => none
  | .unary _ a => (constantValue? a).map (- ·)
  | .binary op a b =>
      match constantValue? a, constantValue? b with
      | some c, some d => binaryValue? op c d
      | _, _ => none
  | .call name [a] =>
      match Function.ofName? name, constantValue? a with
      | some f, some c => Scalar.evaluate? f c
      | _, _ => none
  | .call _ [] => none
  | .call _ (_ :: _ :: _) => none

/-- Whether the tree is known to be zero whatever the variables are. -/
def foldsToZero (e : Expr α) : Bool :=
  match constantValue? e with
  | some c => Scalar.same c Scalar.zero
  | none => false

/-- Rebuilds a tree from the leaves up with the folding rules. -/
def normalize : Expr α → Expr α
  | .const c => .const c
  | .var name => .var name
  | .unary op a => Fold.unary op (normalize a)
  | .binary op a b => Fold.binary op (normalize a) (normalize b)
  | .call name args => .call name (args.map normalize)

end Fluxion.Calculus
