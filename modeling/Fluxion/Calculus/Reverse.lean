import Fluxion.Calculus.Tape

/-!
# Reverse mode

The adjoint of a node is the derivative of the whole expression by that node.
A sweep from the output back to the front gives every node its adjoint before
the node passes it on: each input gets the adjoint times the partial derivative
of the node by that input, and contributions add up.
-/

namespace Fluxion.Calculus

variable {α : Type} [Scalar α]

/-- The partial derivatives of a quotient by those operands that depend on the
variable. -/
def quotientPartials (u v : Expr α) (i j : Nat) (uDepends vDepends : Bool) :
    Except DerivativeError (List (Nat × Expr α)) := do
  if uDepends then guardDenominator v
  let byU := if uDepends then [(i, Fold.div Fold.one v)] else []
  let byV := if vDepends then [(j, Fold.neg (Fold.div u (Fold.pow v Fold.two)))] else []
  return byU ++ byV

/-- The partial derivatives of a power by those operands that depend on the
variable. -/
def powerPartials (u v : Expr α) (i j : Nat) (uDepends vDepends : Bool) : List (Nat × Expr α) :=
  if uDepends && !vDepends then [(i, Fold.mul v (Fold.pow u (Fold.sub v Fold.one)))]
  else if vDepends && !uDepends then [(j, Fold.mul (Fold.pow u v) (Fold.call .log u))]
  else
    [(i, Fold.div (Fold.mul (Fold.pow u v) v) u),
      (j, Fold.mul (Fold.pow u v) (Fold.call .log u))]

/-- The partial derivatives of a node with the operands `u` and `v`, which stand
at the positions `i` and `j`. -/
def binaryPartials (label : Label) (u v : Expr α) (i j : Nat) (uDepends vDepends : Bool) :
    Except DerivativeError (List (Nat × Expr α)) :=
  match label with
  | .add => .ok [(i, Fold.one), (j, Fold.one)]
  | .sub => .ok [(i, Fold.one), (j, Fold.minusOne)]
  | .mul => .ok [(i, v), (j, u)]
  | .div => quotientPartials u v i j uDepends vDepends
  | .pow => .ok (powerPartials u v i j uDepends vDepends)
  | label => .error (.unknownLabel label.name)

def localPartials (nodes : Nodes α) (node : TapeNode α) :
    Except DerivativeError (List (Nat × Expr α)) :=
  match node.label, node.inputs with
  | .neg, i :: _ => .ok [(i, Fold.minusOne)]
  | .call, i :: _ =>
      match node.function?, nodes[i]? with
      | some f, some input => do
          let byArgument ← functionDerivative f input.expr
          return [(i, byArgument)]
      | _, _ => .error .emptyCall
  | label, [i, j] =>
      match nodes[i]?, nodes[j]? with
      | some u, some v => binaryPartials label u.expr v.expr i j u.depends v.depends
      | _, _ => .error .missingOperand
  | _, _ => .error .missingOperand

/-- The adjoints found so far; a node without one is not used by the output. -/
abbrev Adjoints (α : Type) := Array (Option (Expr α))

/-- Adds the contribution of one input, unless it does not depend on the variable. -/
def contribute (nodes : Nodes α) (adjoint : Expr α) (adjoints : Adjoints α)
    (entry : Nat × Expr α) : Adjoints α :=
  let (i, byInput) := entry
  if nodes.dependsAt i then
    let contribution := Fold.mul adjoint byInput
    match adjoints[i]? with
    | some (some previous) => adjoints.setIfInBounds i (some (Fold.add previous contribution))
    | _ => adjoints.setIfInBounds i (some contribution)
  else adjoints

/-- Passes the adjoint of the node at position `i` on to its inputs. -/
def propagate (nodes : Nodes α) (adjoints : Adjoints α) (i : Nat) :
    Except DerivativeError (Adjoints α) :=
  match nodes[i]?, adjoints[i]? with
  | some node, some (some adjoint) =>
      if !node.depends || node.inputs.isEmpty then .ok adjoints
      else do
        let partials ← localPartials nodes node
        return partials.foldl (contribute nodes adjoint) adjoints
  | _, _ => .ok adjoints

/-- Visits the positions below `count` from the last to the first. -/
def sweep (nodes : Nodes α) : Nat → Adjoints α → Except DerivativeError (Adjoints α)
  | 0, adjoints => .ok adjoints
  | count + 1, adjoints => do
      let adjoints ← propagate nodes adjoints count
      sweep nodes count adjoints

/-- The adjoint of the variable, zero if the output does not use it. -/
def leafAdjoint (adjoints : Adjoints α) (leaf : Nat) : Expr α :=
  match adjoints[leaf]? with
  | some (some adjoint) => adjoint
  | _ => Fold.zero

def Tape.derivative (tape : Tape α) : Except DerivativeError (Expr α) :=
  match tape.leaf? with
  | none => .ok Fold.zero
  | some leaf => do
      let start : Adjoints α :=
        (Array.replicate tape.nodes.size none).setIfInBounds tape.output (some Fold.one)
      let adjoints ← sweep tape.nodes tape.nodes.size start
      return leafAdjoint adjoints leaf

/-- The derivative with respect to `x`, by a sweep over the tape. -/
def reverse (x : String) (e : Expr α) : Except DerivativeError (Expr α) := do
  let tape ← Tape.ofExpr x e
  tape.derivative

end Fluxion.Calculus
