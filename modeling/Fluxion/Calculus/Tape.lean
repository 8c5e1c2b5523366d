import Fluxion.Calculus.Rules

/-!
# The tape

A tape lists the subtrees of an expression, each operand before the nodes that
use it. Equal subtrees share one node, so the tape is a directed acyclic graph
in which inputs are positions of earlier nodes.

* `Tape.record` appends the nodes of a tree that are not there yet.
* `Tape.unfold` reads a tree back from a position.
-/

namespace Fluxion.Calculus

variable {α : Type} [Scalar α]

inductive Label where
  | const | var | call | neg | add | sub | mul | div | pow
  /-- An operator without a rule. -/
  | other (symbol : String)
deriving DecidableEq, Repr

namespace Label

def name : Label → String
  | .const => "const"
  | .var => "var"
  | .call => "call"
  | .neg => "neg"
  | .add => "+"
  | .sub => "-"
  | .mul => "*"
  | .div => "/"
  | .pow => "^"
  | .other s => s

def known : List Label :=
  [.const, .var, .call, .neg, .add, .sub, .mul, .div, .pow]

def ofName (s : String) : Label :=
  (known.find? fun label => label.name == s).getD (.other s)

/-- The label of a unary operator: the one that bears its symbol. -/
def ofUnary : UnaryOp → Label
  | .neg => .neg
  | .other s => ofName s

/-- The label of a binary operator: the one that bears its symbol. -/
def ofBinary : BinaryOp → Label
  | .add => .add
  | .sub => .sub
  | .mul => .mul
  | .div => .div
  | .pow => .pow
  | .other s => ofName s

end Label

mutual
/-- Equality of trees, constants compared as sharing compares them. -/
def sameTree : Expr α → Expr α → Bool
  | .const c, .const d => Scalar.same c d
  | .var x, .var y => x == y
  | .unary op a, .unary op' a' => op == op' && sameTree a a'
  | .binary op a b, .binary op' a' b' => op == op' && sameTree a a' && sameTree b b'
  | .call name args, .call name' args' => name == name' && sameTrees args args'
  | _, _ => false

def sameTrees : List (Expr α) → List (Expr α) → Bool
  | [], [] => true
  | a :: as, b :: bs => sameTree a b && sameTrees as bs
  | _, _ => false
end

/-- A node of the tape: its number, the subtree it stands for and the numbers of its
operands. `depends` tells whether the subtree mentions the variable of the tape. -/
structure TapeNode (α : Type) where
  id : Nat
  label : Label
  expr : Expr α
  inputs : List Nat
  depends : Bool
  function? : Option Function

/-- The nodes of a tape, in order. A node is found by its number, which is its position. -/
abbrev Nodes (α : Type) := Array (TapeNode α)

namespace Nodes

def find? (nodes : Nodes α) (e : Expr α) : Option Nat :=
  nodes.findIdx? fun node => sameTree e node.expr

def dependsAt (nodes : Nodes α) (i : Nat) : Bool :=
  match nodes[i]? with
  | some node => node.depends
  | none => false

/-- A new node at the end, and its position. It depends on the variable if it is
the variable or one of its operands does. -/
def append (nodes : Nodes α) (x : String) (label : Label) (expr : Expr α) (inputs : List Nat)
    (function? : Option Function) : Nat × Nodes α :=
  let depends :=
    match label with
    | .var => match expr with
      | .var name => name == x
      | _ => false
    | _ => inputs.any nodes.dependsAt
  (nodes.size, nodes.push ⟨nodes.size, label, expr, inputs, depends, function?⟩)

/-- The position of a tree, whose missing nodes are appended. -/
def record (x : String) : Expr α → Nodes α → Except DerivativeError (Nat × Nodes α)
  | .const c, nodes =>
      match find? nodes (.const c) with
      | some i => .ok (i, nodes)
      | none => .ok (append nodes x .const (.const c) [] none)
  | .var name, nodes =>
      match find? nodes (.var name) with
      | some i => .ok (i, nodes)
      | none => .ok (append nodes x .var (.var name) [] none)
  | .unary op a, nodes =>
      match find? nodes (.unary op a) with
      | some i => .ok (i, nodes)
      | none => do
          let (i, nodes) ← record x a nodes
          return append nodes x (Label.ofUnary op) (.unary op a) [i] none
  | .binary op a b, nodes =>
      match find? nodes (.binary op a b) with
      | some i => .ok (i, nodes)
      | none => do
          let (i, nodes) ← record x a nodes
          let (j, nodes) ← record x b nodes
          return append nodes x (Label.ofBinary op) (.binary op a b) [i, j] none
  | .call name [a], nodes =>
      match find? nodes (.call name [a]) with
      | some i => .ok (i, nodes)
      | none => do
          let f ← resolve name 1
          let (i, nodes) ← record x a nodes
          return append nodes x .call (.call name [a]) [i] (some f)
  | .call name [], nodes =>
      match find? nodes (.call name []) with
      | some i => .ok (i, nodes)
      | none => do
          let f ← resolve name 0
          return append nodes x .call (.call name []) [] (some f)
  | .call name (a :: b :: rest), nodes =>
      match find? nodes (.call name (a :: b :: rest)) with
      | some i => .ok (i, nodes)
      | none => do
          let f ← resolve name (rest.length + 2)
          return append nodes x .call (.call name (a :: b :: rest)) [] (some f)

end Nodes

/-- An expression as a tape: `output` is the position of the whole expression
and `leaf?` that of the variable, if it occurs. -/
structure Tape (α : Type) where
  nodes : Nodes α
  output : Nat
  x : String
  leaf? : Option Nat

namespace Tape

def ofExpr (x : String) (e : Expr α) : Except DerivativeError (Tape α) := do
  let (output, nodes) ← Nodes.record x e #[]
  return ⟨nodes, output, x, Nodes.find? nodes (.var x)⟩

/-- The tree at a position, read off the nodes; `left` bounds the number of
steps, and the position itself is enough, since inputs are earlier positions. -/
def unfoldFrom (tape : Tape α) : Nat → Nat → Option (Expr α)
  | left, i =>
      match tape.nodes[i]? with
      | none => none
      | some node =>
          match left, node.expr, node.inputs with
          | _, .const c, [] => some (.const c)
          | _, .var name, [] => some (.var name)
          | left + 1, .unary op _, [a] => (unfoldFrom tape left a).map (.unary op)
          | left + 1, .binary op _ _, [a, b] =>
              match unfoldFrom tape left a, unfoldFrom tape left b with
              | some a, some b => some (.binary op a b)
              | _, _ => none
          | left + 1, .call name _, [a] => (unfoldFrom tape left a).map fun a => .call name [a]
          | _, _, _ => none

def unfold (tape : Tape α) : Option (Expr α) :=
  tape.unfoldFrom tape.output tape.output

end Tape

end Fluxion.Calculus
