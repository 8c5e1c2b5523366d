import Fluxion.Decimal.Reading
import Fluxion.Expr.Basic
import Fluxion.Source.Token

/-!
# Reading expressions

The grammar, from the weakest to the strongest binding:

* sums and products group to the left;
* a sign stands before an operand, and binds weaker than a power;
* a power groups to the right, and its exponent may carry a sign;
* an operand is a number, a name, a call or a group in parentheses.

Every operand that a sign, a power, a group or an argument list holds counts as
one level of nesting. The levels that are left are the argument on which the
readers recurse, so the bound on nesting is also why reading ends. The readers
of longer phrases take the reader of operands as an argument.
-/

namespace Fluxion.Source

open Fluxion.Decimal Fluxion.Text

def maxNesting : Nat := 64

def maxDepth : Nat := 512

/-- A reader takes what it reads from the front of the tokens. -/
abbrev Reader (β : Type) := List Token → Except Failure (β × List Token)

abbrev Tree := Expr Float

/-- The next token, which stays where it is. -/
def peek : List Token → Except Failure Token
  | [] => .error .pastEnd
  | t :: _ => .ok t

def errorAtToken (t : Token) (cause : Cause) (expected : List String) : Failure :=
  .rejected ⟨cause, t.start, t.stop, expected, some t.found⟩

def operandStarts : List String := ["NUMBER", "NAME", "LPAREN"]

def sumOp? : TokenKind → Option BinaryOp
  | .plus => some .add
  | .minus => some .sub
  | _ => none

def productOp? : TokenKind → Option BinaryOp
  | .star => some .mul
  | .slash => some .div
  | _ => none

def namedConstant? (name : String) : Option Float :=
  if name = "pi" then some 3.141592653589793
  else if name = "e" then some 2.718281828459045
  else none

/-- Operators and operands as long as they go on, grouped to the left around
`left`. Each round takes a token, so as many rounds as there are tokens are
enough. -/
def chainFrom (op? : TokenKind → Option BinaryOp) (operand : Reader Tree) :
    Nat → Tree → Reader Tree
  | 0, left, ts => .ok (left, ts)
  | rounds + 1, left, ts => do
      let t ← peek ts
      match op? t.kind with
      | none => return (left, ts)
      | some op => do
          let (right, ts) ← operand ts.tail
          chainFrom op? operand rounds (.binary op left right) ts

def chain (op? : TokenKind → Option BinaryOp) (operand : Reader Tree) : Reader Tree :=
  fun ts => do
    let (left, ts) ← operand ts
    chainFrom op? operand ts.length left ts

def sum (operand : Reader Tree) : Reader Tree :=
  chain sumOp? (chain productOp? operand)

/-- The closing parenthesis that belongs to `opener`. -/
def close (opener : Token) : Reader Unit :=
  fun ts => do
    let t ← peek ts
    match t.kind with
    | .rparen => return ((), ts.tail)
    | .eof =>
        .error <| .rejected
          ⟨.unclosedOpen, opener.start, opener.stop, ["RPAREN"], some "EOF"⟩
    | _ => .error (errorAtToken t .unexpected ["RPAREN"])

/-- More arguments, each after a comma, behind those of `read`. A function of
the table refuses a comma once it has all its arguments. -/
def argumentsFrom (name : String) (function? : Option Function) (argument : Reader Tree) :
    Nat → List Tree → Reader (List Tree)
  | 0, read, ts => .ok (read, ts)
  | rounds + 1, read, ts => do
      let t ← peek ts
      if t.kind = .comma then
        match function? with
        | some f =>
            if f.arity ≤ read.length then
              .error (errorAtToken t (.extraArgument name f.arity) [])
            else do
              let (a, ts) ← argument ts.tail
              argumentsFrom name function? argument rounds (read ++ [a]) ts
        | none => do
            let (a, ts) ← argument ts.tail
            argumentsFrom name function? argument rounds (read ++ [a]) ts
      else return (read, ts)

/-- The rest of a call, from the opening parenthesis on. A name outside the
table is refused unless `lenient` holds. -/
def callOf (lenient : Bool) (name : Token) (argument : Reader Tree) : Reader Tree :=
  fun ts => do
    let function? := Function.ofName? name.text
    if function?.isNone && !lenient then
      .error <| .rejected
        ⟨.unknownFunction name.text, name.start, name.stop, Function.all.map Function.name,
          some name.text⟩
    else do
      let opener ← peek ts
      let (a, ts) ← argument ts.tail
      let (args, ts) ← argumentsFrom name.text function? argument ts.length [a] ts
      let ((), ts) ← close opener ts
      return (.call name.text args, ts)

/-- A name by itself: a constant or a variable, but not a function. The error
about a function points at the token that should have been a parenthesis. -/
def bareName (name : Token) : Reader Tree :=
  fun ts =>
    match namedConstant? name.text with
    | some value => .ok (.const value, ts)
    | none =>
        match Function.ofName? name.text with
        | some _ => do
            let t ← peek ts
            .error (errorAtToken t (.bareFunction name.text) ["LPAREN"])
        | none => .ok (.var name.text, ts)

/-- A number, a name, a call or a group. `operand groups` reads an operand
inside so many open groups. -/
def primary (lenient : Bool) (operand : Nat → Reader Tree) (groups : Nat) : Reader Tree :=
  fun ts => do
    let t ← peek ts
    match t.kind with
    | .number =>
        match readFloat? t.text with
        | some value => return (.const value, ts.tail)
        | none => .error (.unreadable t.text)
    | .name => do
        let next ← peek ts.tail
        if next.kind = .lparen then callOf lenient t (sum (operand (groups + 1))) ts.tail
        else bareName t ts.tail
    | .lparen => do
        let (inner, ts) ← sum (operand (groups + 1)) ts.tail
        let ((), ts) ← close t ts
        return (inner, ts)
    | .rparen =>
        if groups = 0 then .error (errorAtToken t .unmatchedClose [])
        else .error (errorAtToken t .incompleteGroup operandStarts)
    | _ => .error (errorAtToken t .unexpected operandStarts)

def power (lenient : Bool) (operand : Nat → Reader Tree) (groups : Nat) : Reader Tree :=
  fun ts => do
    let (base, ts) ← primary lenient operand groups ts
    let t ← peek ts
    if t.kind = .caret then do
      let (exponent, ts) ← operand groups ts.tail
      return (.binary .pow base exponent, ts)
    else return (base, ts)

/-- An operand with its signs, inside `groups` open groups, with so many levels
of nesting left. A plus sign leaves no trace. -/
def operand (lenient : Bool) : Nat → Nat → Reader Tree
  | 0, _, ts => do
      let t ← peek ts
      .error (.rejected ⟨.nesting maxNesting, t.start, t.stop, [], none⟩)
  | left + 1, groups, ts => do
      let t ← peek ts
      match t.kind with
      | .minus => do
          let (a, ts) ← operand lenient left groups ts.tail
          return (.unary .neg a, ts)
      | .plus => operand lenient left groups ts.tail
      | _ => power lenient (operand lenient left) groups ts

def ofTokens (lenient : Bool) (ts : List Token) : Except Failure Tree := do
  let (e, ts) ← sum (operand lenient maxNesting 0) ts
  let t ← peek ts
  match t.kind with
  | .eof => return e
  | .rparen => .error (errorAtToken t .unmatchedClose [])
  | _ => .error (errorAtToken t .unexpected ["EOF"])

/-- The expression that the tokens of a text denote, if its tree is not too deep.
The error about the depth is about the whole text, which has `length` characters. -/
def boundedOfTokens (lenient : Bool) (length : Nat) (ts : List Token) : Except Failure Tree := do
  let e ← ofTokens lenient ts
  if maxDepth < e.depth then
    .error (.rejected ⟨.treeDepth maxDepth, 0, length, [], none⟩)
  else return e

/-- The expression that a text denotes. Calls of names outside the table of
functions are read only if `lenient` holds. -/
def parse (lenient : Bool) (source : String) : Except Failure Tree := do
  let length := source.toList.length
  if allBlank source.toList then
    .error (.rejected ⟨.empty, 0, length, [], some "EOF"⟩)
  else do
    let ts ← tokenize source
    boundedOfTokens lenient length ts

end Fluxion.Source
