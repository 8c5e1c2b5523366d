import Fluxion.Expr.Function

/-!
# Expressions

An expression is a tree of constants, variables, operators and calls. The type
of constants is a parameter: the program runs on `Float`, and the rules of
differentiation are stated for any type with the operations of
`Fluxion.Calculus.Scalar`.

* Operators outside the known ones can be built; only the passes that need a
  meaning for them report them.
* `depth` walks the tree with a work list, so its stack does not grow with the
  tree; `height` is the same number by recursion.
-/

namespace Fluxion

inductive UnaryOp where
  | neg
  /-- An operator without a rule. -/
  | other (symbol : String)
deriving DecidableEq, Repr

inductive BinaryOp where
  | add | sub | mul | div | pow
  /-- An operator without a rule. -/
  | other (symbol : String)
deriving DecidableEq, Repr

namespace UnaryOp

def symbol : UnaryOp → String
  | .neg => "neg"
  | .other s => s

def ofSymbol (s : String) : UnaryOp :=
  if s = "neg" then .neg else .other s

@[simp]
theorem symbol_ofSymbol (s : String) : (ofSymbol s).symbol = s := by
  unfold ofSymbol
  split <;> simp_all [symbol]

end UnaryOp

namespace BinaryOp

def symbol : BinaryOp → String
  | .add => "+"
  | .sub => "-"
  | .mul => "*"
  | .div => "/"
  | .pow => "^"
  | .other s => s

def ofSymbol (s : String) : BinaryOp :=
  if s = "+" then .add
  else if s = "-" then .sub
  else if s = "*" then .mul
  else if s = "/" then .div
  else if s = "^" then .pow
  else .other s

@[simp]
theorem symbol_ofSymbol (s : String) : (ofSymbol s).symbol = s := by
  unfold ofSymbol
  repeat' split
  all_goals simp_all [symbol]

end BinaryOp

inductive Expr (α : Type) where
  | const (value : α)
  | var (name : String)
  | unary (op : UnaryOp) (operand : Expr α)
  | binary (op : BinaryOp) (left right : Expr α)
  | call (name : String) (args : List (Expr α))
deriving Repr, Inhabited

namespace Expr

variable {α : Type}

def children : Expr α → List (Expr α)
  | .const _ => []
  | .var _ => []
  | .unary _ a => [a]
  | .binary _ a b => [a, b]
  | .call _ args => args

mutual
def size : Expr α → Nat
  | .const _ => 1
  | .var _ => 1
  | .unary _ a => size a + 1
  | .binary _ a b => size a + size b + 1
  | .call _ args => sizeList args + 1

def sizeList : List (Expr α) → Nat
  | [] => 0
  | a :: as => size a + sizeList as
end

mutual
def height : Expr α → Nat
  | .const _ => 1
  | .var _ => 1
  | .unary _ a => height a + 1
  | .binary _ a b => max (height a) (height b) + 1
  | .call _ args => heightList args + 1

def heightList : List (Expr α) → Nat
  | [] => 0
  | a :: as => max (height a) (heightList as)
end

def pendingSize : List (Expr α × Nat) → Nat
  | [] => 0
  | (e, _) :: rest => size e + pendingSize rest

theorem pendingSize_append (xs ys : List (Expr α × Nat)) :
    pendingSize (xs ++ ys) = pendingSize xs + pendingSize ys := by
  induction xs with
  | nil => simp [pendingSize]
  | cons x xs ih => simp [pendingSize, ih, Nat.add_assoc]

theorem pendingSize_map (es : List (Expr α)) (d : Nat) :
    pendingSize (es.map fun e => (e, d)) = sizeList es := by
  induction es with
  | nil => simp [pendingSize, sizeList]
  | cons e es ih => simp [pendingSize, sizeList, ih]

theorem sizeList_children (e : Expr α) : sizeList e.children + 1 = size e := by
  cases e <;> simp [children, sizeList, size]

theorem sizeList_append (as bs : List (Expr α)) :
    sizeList (as ++ bs) = sizeList as + sizeList bs := by
  induction as with
  | nil => simp [sizeList]
  | cons a as ih => simp [sizeList, ih, Nat.add_assoc]

theorem sizeList_reverse (as : List (Expr α)) : sizeList as.reverse = sizeList as := by
  induction as with
  | nil => rfl
  | cons a as ih => simp [sizeList, sizeList_append, ih, Nat.add_comm]

/-- A work list on which the subtrees below a node were put, each with its level. The top
of the list stands first; the last subtree was put on last. -/
def push (e : Expr α) (level : Nat) (pending : List (Expr α × Nat)) : List (Expr α × Nat) :=
  (e.children.reverse.map fun c => (c, level + 1)) ++ pending

theorem pendingSize_push (e : Expr α) (level : Nat) (pending : List (Expr α × Nat)) :
    pendingSize (push e level pending) + 1 = size e + pendingSize pending := by
  have := sizeList_children e
  rw [push, pendingSize_append, pendingSize_map, sizeList_reverse]
  omega

/-- The largest level met on a walk over the work list, where each tree stands
with the level of its root, or `deepest` if that is more. -/
def deepestOf (deepest : Nat) : List (Expr α × Nat) → Nat
  | [] => deepest
  | (e, level) :: rest => deepestOf (max deepest level) (push e level rest)
termination_by pending => pendingSize pending
decreasing_by
  have := pendingSize_push e level rest
  rw [pendingSize]
  omega

/-- The depth of a tree: the number of levels of nodes. -/
def depth (e : Expr α) : Nat :=
  deepestOf 0 [(e, 1)]

mutual
def dependsOn (x : String) : Expr α → Bool
  | .const _ => false
  | .var name => name == x
  | .unary _ a => dependsOn x a
  | .binary _ a b => dependsOn x a || dependsOn x b
  | .call _ args => dependsOnAny x args

def dependsOnAny (x : String) : List (Expr α) → Bool
  | [] => false
  | a :: as => dependsOn x a || dependsOnAny x as
end

mutual
/-- The variables of the tree in front of `names`, once per occurrence, from
left to right. -/
def variablesOnto : Expr α → List String → List String
  | .const _, names => names
  | .var name, names => name :: names
  | .unary _ a, names => variablesOnto a names
  | .binary _ a b, names => variablesOnto a (variablesOnto b names)
  | .call _ args, names => variablesOntoList args names

def variablesOntoList : List (Expr α) → List String → List String
  | [], names => names
  | a :: as, names => variablesOnto a (variablesOntoList as names)
end

/-- The variables of the tree, once per occurrence. -/
def variableNames (e : Expr α) : List String :=
  e.variablesOnto []

/-- A name put in its place in a sorted list of names, unless it is there. -/
def insertName (name : String) : List String → List String
  | [] => [name]
  | n :: ns =>
      if name < n then name :: n :: ns
      else if name = n then n :: ns
      else n :: insertName name ns

def sortedNames (names : List String) : List String :=
  names.foldr insertName []

def freeVariables (e : Expr α) : List String :=
  sortedNames e.variableNames

theorem mem_insertName {name x : String} {names : List String} :
    x ∈ insertName name names ↔ x = name ∨ x ∈ names := by
  induction names with
  | nil => simp [insertName]
  | cons n ns ih =>
      unfold insertName
      split
      · simp
      · split
        · next h => subst h; simp
        · simp only [List.mem_cons, ih]
          exact or_left_comm

@[simp]
theorem mem_sortedNames {x : String} {names : List String} :
    x ∈ sortedNames names ↔ x ∈ names := by
  induction names with
  | nil => simp [sortedNames]
  | cons n ns ih =>
      rw [show sortedNames (n :: ns) = insertName n (sortedNames ns) from rfl, mem_insertName, ih]
      simp

end Expr

end Fluxion
