import Fluxion.Decimal.Layout
import Fluxion.Text.Quoted

/-!
# Why a function could not be compiled

A compile error names the function and its cause. Three kinds of errors are
told apart: texts that are no code, code that refers to unknown symbols, and
code that fails when it is run to build the function.
-/

namespace Fluxion.Code

open Fluxion.Text

inductive RunError where
  /-- An integer is divided by zero. -/
  | integerDivision
  /-- A floating-point number is divided by zero before the function is compiled. -/
  | floatDivision
  /-- A name without a binding is used. -/
  | unbound (name : String)
  /-- A value of the named type is called. -/
  | notCallable (typeName : String)
  /-- A function gets the wrong number of arguments. -/
  | wrongArguments
  /-- A function is used as a number. -/
  | notNumeric
  /-- Calls nest without an end. -/
  | recursion
  /-- A failure of another class. -/
  | other (kind text : String)
deriving DecidableEq, Repr

def RunError.message : RunError → String
  | .integerDivision => "ZeroDivisionError: division by zero"
  | .floatDivision => "ZeroDivisionError: float division by zero"
  | .unbound name => "NameError: name " ++ quoted name ++ " is not defined"
  | .notCallable typeName => "TypeError: " ++ quoted typeName ++ " object is not callable"
  | .wrongArguments => "TypeError: wrong number of arguments"
  | .notNumeric => "TypeError: a function is not a number"
  | .recursion => "RecursionError: maximum recursion depth exceeded"
  | .other kind text => kind ++ ": " ++ text

inductive CompileCause where
  /-- The code refers to symbols that are not there. -/
  | unresolved (names : List String)
  /-- The tree has too many levels to be written as code. -/
  | tooDeepToEmit
  /-- The text is no code; nothing is said about where. -/
  | malformed
  /-- The code has too many levels. -/
  | tooDeepToCompile
  /-- The code does not define the function. -/
  | undefined
  /-- The code failed while it was run. -/
  | failed (error : RunError)
  /-- The name is bound to something that is no function. -/
  | notFunction
  /-- A compiler turned the text down for a reason of its own. -/
  | refused (reason : String)
deriving DecidableEq, Repr

inductive CompileKind where
  | syntaxError | linkError | symbolResolutionError
deriving DecidableEq, Repr

def CompileKind.name : CompileKind → String
  | .syntaxError => "syntax_error"
  | .linkError => "link_error"
  | .symbolResolutionError => "symbol_resolution_error"

def CompileCause.kind : CompileCause → CompileKind
  | .unresolved _ => .symbolResolutionError
  | .tooDeepToEmit => .syntaxError
  | .malformed => .syntaxError
  | .tooDeepToCompile => .syntaxError
  | .undefined => .linkError
  | .failed _ => .linkError
  | .notFunction => .linkError
  | .refused _ => .syntaxError

/-- A compile error: the function that was to be compiled, and the cause. -/
structure CompileError where
  functionName : String
  cause : CompileCause
deriving DecidableEq, Repr

/-- What the compiler says about the error, unless the text is no code. -/
def CompileError.diagnostic? (e : CompileError) : Option String :=
  match e.cause with
  | .unresolved names => some ("unresolved symbol(s): " ++ ", ".intercalate names)
  | .tooDeepToEmit => some "expression nests too deeply to emit"
  | .malformed => none
  | .tooDeepToCompile => some "expression nests too deeply to compile"
  | .undefined =>
      some ("source does not define a function named " ++ quoted e.functionName)
  | .failed error => some error.message
  | .notFunction => some (quoted e.functionName ++ " is not callable")
  | .refused reason => some reason

def CompileError.message (e : CompileError) : String :=
  e.cause.kind.name ++ " while compiling " ++ quoted e.functionName ++ ": " ++
    e.diagnostic?.getD ""

end Fluxion.Code
