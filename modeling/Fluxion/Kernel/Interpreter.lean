import Fluxion.Code.Error
import Fluxion.Expr.Basic

/-!
# Interpreters

A text becomes a function in the hands of an interpreter of the language that the text is
written in: it compiles the text to code, runs the code, and lowers the function that a name
is bound to by then. The interpreter is a parameter here; what is done with it is not.

* The code of the function is looked up in the code of the text, before that is run. The
  names that it refers to have to be in the link table.
* Running the code stores and deletes names. The function that is lowered is what its name
  is bound to in the end.
-/

namespace Fluxion.Kernel

open Fluxion.Code

/-- Code that was compiled: its name, the names that it refers to, and the code of the
functions that are written in it, in order. The payload is what else there is to it. -/
inductive CodeObject (π : Type) where
  | mk (name : String) (names : List String) (nested : List (CodeObject π)) (payload : π)

namespace CodeObject

variable {π : Type}

def name : CodeObject π → String
  | .mk name _ _ _ => name

def nested : CodeObject π → List (CodeObject π)
  | .mk _ _ nested _ => nested

def payload : CodeObject π → π
  | .mk _ _ _ payload => payload

mutual
/-- The names that code and the code of all functions in it refer to. -/
def references : CodeObject π → List String
  | .mk _ names nested _ => names ++ referencesList nested

def referencesList : List (CodeObject π) → List String
  | [] => []
  | code :: rest => references code ++ referencesList rest
end

/-- The code of the first function of a name that is written in the code. -/
def function? (code : CodeObject π) (name : String) : Option (CodeObject π) :=
  code.nested.find? fun function => function.name == name

end CodeObject

inductive Effect (β : Type) where
  | store (name : String) (value : β)
  | delete (name : String)

/-- Names with the values that they are bound to; the first binding of a name counts. -/
abbrev Namespace (β : Type) := List (String × β)

def Effect.name {β : Type} : Effect β → String
  | .store name _ => name
  | .delete name => name

def Effect.apply {β : Type} (names : Namespace β) : Effect β → Namespace β
  | .store name value => (name, value) :: names
  | .delete name => names.filter fun binding => binding.1 != name

namespace Namespace

variable {β : Type}

/-- The names after the effects, one after the other. -/
def after (names : Namespace β) (effects : List (Effect β)) : Namespace β :=
  effects.foldl Effect.apply names

/-- The names that are bound, in order, each once. -/
def symbols (names : Namespace β) : List String :=
  Expr.sortedNames (names.map (·.1))

end Namespace

structure Interpreter where
  /-- What it keeps of code, besides what the compiler looks at. -/
  Payload : Type
  Value : Type
  Executable : Type
  /-- The code of a text, or why there is none. -/
  compile : String → Except CompileCause (CodeObject Payload)
  /-- What running code does to the names around it. -/
  run : CodeObject Payload → Namespace Value → Except RunError (List (Effect Value))
  isCallable : Value → Bool
  /-- The value is a function that was made from the code. -/
  IsFunctionOf : Value → CodeObject Payload → Prop
  /-- What a function is lowered to, given the names around it. -/
  lower : Namespace Value → Value → Except RunError Executable

/-- The names that a function refers to and that are not in the link table, in order, each
once. -/
def unresolvedNames {β π : Type} (table : Namespace β) (function : CodeObject π) : List String :=
  (Expr.sortedNames function.references).filter fun symbol => (table.lookup symbol).isNone

def liftCause {β : Type} (cause : RunError → CompileCause) :
    Except RunError β → Except CompileCause β
  | .ok value => .ok value
  | .error e => .error (cause e)

/-- What the function `name` of a text is lowered to. -/
def Interpreter.compileFunction (I : Interpreter) (table : Namespace I.Value)
    (source name : String) : Except CompileCause I.Executable := do
  let code ← I.compile source
  match code.function? name with
  | none => .error .undefined
  | some function => do
      let unresolved := unresolvedNames table function
      if !unresolved.isEmpty then .error (.unresolved unresolved)
      else do
        let effects ← liftCause .failed (I.run code table)
        let globals := Namespace.after table effects
        match globals.lookup name with
        | none => .error .notFunction
        | some f =>
            if I.isCallable f then liftCause .failed (I.lower globals f)
            else .error .notFunction

end Fluxion.Kernel
