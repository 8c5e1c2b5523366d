import Fluxion.Code.Reader
import Fluxion.Kernel.Lower

/-!
# The language of emitted code

`fragment` interprets as much of the language as emitted code is written in: definitions of
functions of one argument, names that are bound to values, and expressions. It knows no other
text, so it calls a text malformed if `readModule` does not read it, be it code or not.
-/

namespace Fluxion.Kernel

open Fluxion.Code

/-- What the fragment keeps of code: the statements of a module, or a function. -/
inductive Body where
  | module (statements : List Statement)
  | function (param : String) (body : Term)

def anonymousName : String := "<lambda>"

def moduleName : String := "<module>"

mutual
/-- The code of the functions that are written in an expression, given the names that are
bound around it. -/
def functionCodes (bound : List String) : Term → List (CodeObject Body)
  | .integer _ => []
  | .float _ => []
  | .name _ => []
  | .neg a => functionCodes bound a
  | .binary _ a b => functionCodes bound a ++ functionCodes bound b
  | .call f args => functionCodes bound f ++ functionCodesList bound args
  | .function param body =>
      [.mk anonymousName (body.names (param :: bound)) (functionCodes (param :: bound) body)
        (.function param body)]

def functionCodesList (bound : List String) : List Term → List (CodeObject Body)
  | [] => []
  | a :: as => functionCodes bound a ++ functionCodesList bound as
end

def functionCode (name param : String) (body : Term) : CodeObject Body :=
  .mk name (body.names [param]) (functionCodes [param] body) (.function param body)

def statementNames : Statement → List String
  | .define f _ _ => [f]
  | .bind symbol value => value.names [] ++ [symbol]
  | .run value => value.names []

def statementCodes : Statement → List (CodeObject Body)
  | .define f param body => [functionCode f param body]
  | .bind _ value => functionCodes [] value
  | .run value => functionCodes [] value

def moduleCode (statements : List Statement) : CodeObject Body :=
  .mk moduleName (statements.flatMap statementNames) (statements.flatMap statementCodes)
    (.module statements)

def statementHeight : Statement → Nat
  | .define _ _ body => body.height
  | .bind _ value => value.height
  | .run value => value.height

variable [Stack]

def compileFragment (source : String) : Except CompileCause (CodeObject Body) :=
  match readModule source with
  | none => .error .malformed
  | some statements =>
      if statements.any fun s => Stack.compiling < statementHeight s then
        .error .tooDeepToCompile
      else .ok (moduleCode statements)

/-- Runs the code of a module; other code does nothing by itself. -/
def runFragment (code : CodeObject Body) (globals : Bindings) :
    Except RunError (List (Effect Value)) :=
  match code.payload with
  | .module statements => executeAll globals statements
  | .function _ _ => .ok []

/-- The interpreter of the language that code is emitted in. -/
abbrev fragment : Interpreter where
  Payload := Body
  Value := Value
  Executable := Kernel
  compile := compileFragment
  run := runFragment
  isCallable := Value.isCallable
  IsFunctionOf f code :=
    ∃ name param body, f = .closure param body [] ∧ code = functionCode name param body
  lower := lower

end Fluxion.Kernel
