import Fluxion.Code.Error
import Fluxion.Expr.Basic
import Fluxion.Stack
import Fluxion.Text.Identifier

/-!
# Expressions as code

An expression is written as the body of a function of one argument. The text
has parentheses only where reading it back would otherwise group it
differently; how tightly a phrase binds is its strength.

* Powers become calls of `pow`. A constant whole exponent is written as an
  integer, so that a negative base keeps a real result.
* Negative constants stand in parentheses.
* Names other than the argument are refused before anything is written.
-/

namespace Fluxion.Code

open Fluxion.Decimal Fluxion.Number Fluxion.Text

def argumentName : String := "_x"

def powerSymbol : String := "pow"

/-- Whole exponents below this size are written as integers. -/
def integerExponentLimit : Nat := 0x80000000

structure Phrase where
  text : List Char
  strength : Nat

/-- The strength of what needs no parentheses anywhere. -/
def atomStrength : Nat := 4

def negStrength : Nat := 3

def operatorStrength? : BinaryOp → Option Nat
  | .add => some 1
  | .sub => some 1
  | .mul => some 2
  | .div => some 2
  | .pow => none
  | .other _ => none

inductive EmitError where
  /-- The function's name is no identifier. -/
  | invalidName (name : String)
  /-- An operator has no spelling. -/
  | unknownOperator (symbol : String)
  | compile (error : CompileError)
deriving DecidableEq, Repr

def EmitError.message : EmitError → String
  | .invalidName name => "Invalid function name " ++ quoted name
  | .unknownOperator symbol => symbol
  | .compile error => error.message

def wrap (phrase : Phrase) (needed : Bool) : List Char :=
  if needed then '(' :: phrase.text ++ [')'] else phrase.text

def constantChars (value : Float) : List Char :=
  match Binary64.ofFloat value with
  | .nan => ['n', 'a', 'n']
  | .infinite false => ['i', 'n', 'f']
  | .infinite true => ['(', '-', 'i', 'n', 'f', ')']
  | .finite false _ _ => floatChars value
  | .finite true _ _ => '(' :: floatChars value ++ [')']

/-- The integer that an exponent is written as, if it is a whole constant of a
moderate size. -/
def integerExponent? : Expr Float → Option Int
  | .const value =>
      if isIntegral value && (truncate value).natAbs < integerExponentLimit then
        some (truncate value)
      else none
  | _ => none

def integerChars (n : Int) : List Char :=
  if n < 0 then '(' :: '-' :: digitChars n.natAbs ++ [')'] else digitChars n.natAbs

mutual
/-- An expression as code, at most so many levels deep. `name` is the function
that is being written, for errors. -/
def phraseOf (name : String) : Nat → Expr Float → Except EmitError Phrase
  | 0, _ => .error (.compile ⟨name, .tooDeepToEmit⟩)
  | _ + 1, .const value => .ok ⟨constantChars value, atomStrength⟩
  | _ + 1, .var _ => .ok ⟨argumentName.toList, atomStrength⟩
  | levels + 1, .unary _ a => do
      let a ← phraseOf name levels a
      return ⟨'-' :: wrap a (a.strength ≤ negStrength), negStrength⟩
  | levels + 1, .binary .pow a b => do
      let a ← phraseOf name levels a
      let b ← exponentOf name levels b
      return ⟨powerSymbol.toList ++ '(' :: a.text ++ ',' :: ' ' :: b ++ [')'], atomStrength⟩
  | levels + 1, .binary op a b =>
      match operatorStrength? op with
      | none => .error (.unknownOperator op.symbol)
      | some strength => do
          let a ← phraseOf name levels a
          let b ← phraseOf name levels b
          return ⟨wrap a (a.strength < strength) ++ ' ' :: op.symbol.toList ++
            ' ' :: wrap b (b.strength ≤ strength), strength⟩
  | levels + 1, .call function args => do
      let args ← argumentsOf name levels args
      return ⟨function.toList ++ '(' :: args ++ [')'], atomStrength⟩

def exponentOf (name : String) (levels : Nat) (e : Expr Float) : Except EmitError (List Char) :=
  match integerExponent? e with
  | some n => .ok (integerChars n)
  | none => do
      let e ← phraseOf name levels e
      return e.text

/-- The arguments of a call as code, with commas between them. -/
def argumentsOf (name : String) : Nat → List (Expr Float) → Except EmitError (List Char)
  | _, [] => .ok []
  | levels, [a] => do
      let a ← phraseOf name levels a
      return a.text
  | levels, a :: b :: rest => do
      let a ← phraseOf name levels a
      let rest ← argumentsOf name levels (b :: rest)
      return a.text ++ ',' :: ' ' :: rest
end

/-- The name at the root of a tree that code for it could not resolve: a variable other
than `x`, or a call outside the table of functions. -/
def unboundAt? (x : String) : Expr Float → Option String
  | .var name => if name == x then none else some name
  | .call name _ => if (Function.ofName? name).isNone then some name else none
  | _ => none

/-- The names met on a walk over the work list that code could not resolve, and `names`.
The top of the list stands first, and the last subtree of a node is put on last. -/
def unboundFrom (x : String) (names : List String) : List (Expr Float) → List String
  | [] => names
  | e :: rest =>
      let found := (unboundAt? x e).elim names (Expr.insertName · names)
      unboundFrom x found (e.children.reverse ++ rest)
termination_by pending => Expr.sizeList pending
decreasing_by
  have := Expr.sizeList_children e
  rw [Expr.sizeList_append, Expr.sizeList_reverse, Expr.sizeList]
  omega

/-- The names that code for the tree could not resolve, in order, each once. -/
def unboundNames (x : String) (e : Expr Float) : List String :=
  unboundFrom x [] [e]

def functionText (name : String) (body : List Char) : String :=
  "def " ++ name ++ "(" ++ argumentName ++ "):\n    return " ++ String.ofList body ++ "\n"

/-- The text of the function `name` whose value is the expression and whose
argument stands for the variable `x`. -/
def emit [Stack] (name : String) (x : String) (e : Expr Float) : Except EmitError String := do
  if !isIdentifier name then .error (.invalidName name)
  else
    let unbound := unboundNames x e
    if !unbound.isEmpty then .error (.compile ⟨name, .unresolved unbound⟩)
    else do
      let body ← phraseOf name Stack.writing e
      return functionText name body.text

end Fluxion.Code
