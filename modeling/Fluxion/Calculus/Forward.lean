import Fluxion.Calculus.Rules

/-!
# Forward mode

The derivative by recursion on the tree. A subtree without the variable has the
derivative zero and is not looked into.
-/

namespace Fluxion.Calculus

variable {α : Type} [Scalar α]

/-- The derivative of `u ^ v`, given the derivatives of `u` and `v` and whether
each depends on the variable. -/
def powerRule (u v du dv : Expr α) (baseDepends exponentDepends : Bool) : Expr α :=
  if baseDepends && !exponentDepends then
    Fold.mul (Fold.mul v (Fold.pow u (Fold.sub v Fold.one))) du
  else if exponentDepends && !baseDepends then
    Fold.mul (Fold.mul (Fold.pow u v) (Fold.call .log u)) dv
  else
    Fold.mul (Fold.pow u v)
      (Fold.add (Fold.mul dv (Fold.call .log u)) (Fold.div (Fold.mul v du) u))

def binaryRule (x : String) (op : BinaryOp) (u v du dv : Expr α) :
    Except DerivativeError (Expr α) :=
  match op with
  | .add => .ok (Fold.add du dv)
  | .sub => .ok (Fold.sub du dv)
  | .mul => .ok (Fold.add (Fold.mul du v) (Fold.mul u dv))
  | .div => do
      guardDenominator v
      return Fold.div (Fold.sub (Fold.mul du v) (Fold.mul u dv)) (Fold.pow v Fold.two)
  | .pow => .ok (powerRule u v du dv (u.dependsOn x) (v.dependsOn x))
  | .other s => .error (.unknownBinary s)

/-- The derivative with respect to `x`, by recursion on the tree. -/
def forward (x : String) : Expr α → Except DerivativeError (Expr α)
  | .const _ => .ok Fold.zero
  | .var name => .ok (if name == x then Fold.one else Fold.zero)
  | .unary op a =>
      if !a.dependsOn x then .ok Fold.zero
      else
        match op with
        | .neg => do
            let da ← forward x a
            return Fold.neg da
        | .other s => .error (.unknownUnary s)
  | .binary op u v =>
      if !(u.dependsOn x || v.dependsOn x) then .ok Fold.zero
      else do
        let du ← forward x u
        let dv ← forward x v
        binaryRule x op u v du dv
  | .call name [a] =>
      if !a.dependsOn x then .ok Fold.zero
      else do
        let f ← resolve name 1
        let outer ← functionDerivative f a
        let inner ← forward x a
        return Fold.mul outer inner
  | .call _ [] => .ok Fold.zero
  | .call name (a :: b :: rest) =>
      if !Expr.dependsOnAny x (a :: b :: rest) then .ok Fold.zero
      else do
        let _ ← resolve name (rest.length + 2)
        return Fold.zero

end Fluxion.Calculus
