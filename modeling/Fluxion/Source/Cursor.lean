import Fluxion.Source.Parser

/-!
# Reading with a cursor

A reader takes what it reads from the front of the tokens. Here the same grammar is read by
procedures that leave the tokens alone and move a cursor over them: a position, how many
operands are being read inside one another, and how many groups are open.

* A procedure that fails leaves the cursor where it was. Only the count of operands is
  taken back on the way out, whether an operand was read or not.
* A loop uses up a step with each round and a nested operand with each level. Without
  steps there is no result.
-/

namespace Fluxion.Source

open Fluxion.Decimal Fluxion.Text

structure Cursor where
  index : Nat
  nesting : Nat
  openGroups : Nat
deriving DecidableEq, Repr

def Cursor.start : Cursor :=
  ⟨0, 0, 0⟩

inductive Abort where
  | failure (failure : Failure)
  /-- A place behind a refusal was reached. -/
  | unreachable
  | outOfSteps
deriving DecidableEq, Repr

/-- A procedure that moves the cursor. -/
abbrev Walk (β : Type) := EStateM Abort Cursor β

namespace Walk

variable (tokens : List Token)

/-- The token at the cursor, which must not be behind the tokens. -/
def peek : Walk Token := do
  match tokens[(← get).index]? with
  | some t => return t
  | none => throw (.failure .pastEnd)

/-- The token at the cursor, which moves on. -/
def advance : Walk Token := do
  let t ← peek tokens
  modify fun s => { s with index := s.index + 1 }
  return t

def refuse (t : Token) (cause : Cause) (expected : List String) : Walk Unit :=
  throw (.failure (errorAtToken t cause expected))

/-- The next token, which has to be of this kind. -/
def expect (kind : TokenKind) : Walk Token := do
  let t ← peek tokens
  if t.kind ≠ kind then refuse t .unexpected [kind.label]
  advance tokens

/-- Counts one more operand while `body` runs, and one less when it has ended. -/
def nested {β : Type} (body : Walk β) : Walk β := fun s =>
  match body { s with nesting := s.nesting + 1 } with
  | .ok b s => .ok b { s with nesting := s.nesting - 1 }
  | .error abort s => .error abort { s with nesting := s.nesting - 1 }

/-- Operators and operands as long as they go on, grouped to the left around `left`. -/
def chainFrom (op? : TokenKind → Option BinaryOp) (operand : Walk Tree) :
    Nat → Tree → Walk Tree
  | 0, _ => throw .outOfSteps
  | rounds + 1, left => do
      let t ← peek tokens
      match op? t.kind with
      | none => return left
      | some op => do
          let _ ← advance tokens
          let right ← operand
          chainFrom op? operand rounds (.binary op left right)

def chain (op? : TokenKind → Option BinaryOp) (operand : Walk Tree) (rounds : Nat) :
    Walk Tree := do
  let left ← operand
  chainFrom tokens op? operand rounds left

def sum (operand : Walk Tree) (rounds : Nat) : Walk Tree :=
  chain tokens sumOp? (chain tokens productOp? operand rounds) rounds

def openGroup : Walk Unit :=
  modify fun s => { s with openGroups := s.openGroups + 1 }

/-- The closing parenthesis that belongs to `opener`. -/
def close (opener : Token) : Walk Unit := do
  let t ← peek tokens
  match t.kind with
  | .rparen => do
      let _ ← advance tokens
      modify fun s => { s with openGroups := s.openGroups - 1 }
  | .eof =>
      throw <| .failure <| .rejected
        ⟨.unclosedOpen, opener.start, opener.stop, ["RPAREN"], some "EOF"⟩
  | _ => refuse t .unexpected ["RPAREN"]

/-- More arguments, each after a comma, behind those of `read`. -/
def argumentsFrom (name : String) (function? : Option Function) (argument : Walk Tree) :
    Nat → List Tree → Walk (List Tree)
  | 0, _ => throw .outOfSteps
  | rounds + 1, read => do
      let t ← peek tokens
      if t.kind = .comma then do
        let comma ← advance tokens
        match function? with
        | some f =>
            if f.arity ≤ read.length then refuse comma (.extraArgument name f.arity) []
        | none => pure ()
        let a ← argument
        argumentsFrom name function? argument rounds (read ++ [a])
      else return read

def callOf (lenient : Bool) (name : Token) (argument : Walk Tree) (rounds : Nat) :
    Walk Tree := do
  let function? := Function.ofName? name.text
  if function?.isNone && !lenient then
    throw <| .failure <| .rejected
      ⟨.unknownFunction name.text, name.start, name.stop, Function.all.map Function.name,
        some name.text⟩
  else do
    let opener ← advance tokens
    openGroup
    let a ← argument
    let args ← argumentsFrom tokens name.text function? argument rounds [a]
    close tokens opener
    return .call name.text args

/-- A name by itself: a constant or a variable, but not a function. -/
def bareName (name : Token) : Walk Tree := do
  match namedConstant? name.text with
  | some value => return .const value
  | none => do
      if (Function.ofName? name.text).isSome then
        refuse (← peek tokens) (.bareFunction name.text) ["LPAREN"]
      return .var name.text

def primary (lenient : Bool) (operand : Walk Tree) (rounds : Nat) : Walk Tree := do
  let t ← peek tokens
  match t.kind with
  | .number => do
      let _ ← advance tokens
      match readFloat? t.text with
      | some value => return .const value
      | none => throw (.failure (.unreadable t.text))
  | .name => do
      let _ ← advance tokens
      let next ← peek tokens
      if next.kind = .lparen then callOf tokens lenient t (sum tokens operand rounds) rounds
      else bareName tokens t
  | .lparen => do
      let _ ← advance tokens
      openGroup
      let inner ← sum tokens operand rounds
      close tokens t
      return inner
  | kind => do
      if kind = .rparen then do
        if (← get).openGroups ≠ 0 then refuse t .incompleteGroup operandStarts
        refuse t .unmatchedClose []
      refuse t .unexpected operandStarts
      throw .unreachable

def power (lenient : Bool) (operand : Walk Tree) (rounds : Nat) : Walk Tree := do
  let base ← primary tokens lenient operand rounds
  let t ← peek tokens
  if t.kind = .caret then do
    let _ ← advance tokens
    let exponent ← operand
    return .binary .pow base exponent
  else return base

/-- An operand with its signs. A plus sign leaves no trace. -/
def operand (lenient : Bool) : Nat → Walk Tree
  | 0 => throw .outOfSteps
  | steps + 1 => do
      let t ← peek tokens
      if maxNesting ≤ (← get).nesting then
        throw <| .failure <| .rejected ⟨.nesting maxNesting, t.start, t.stop, [], none⟩
      else
        nested <|
          match t.kind with
          | .minus => do
              let _ ← advance tokens
              let a ← operand lenient steps
              return .unary .neg a
          | .plus => do
              let _ ← advance tokens
              operand lenient steps
          | _ => power tokens lenient (operand lenient steps) steps

def expression (lenient : Bool) (steps : Nat) : Walk Tree := do
  let e ← sum tokens (operand tokens lenient steps) steps
  let t ← peek tokens
  if t.kind = .rparen then refuse t .unmatchedClose []
  let _ ← expect tokens .eof
  return e

end Walk

end Fluxion.Source
