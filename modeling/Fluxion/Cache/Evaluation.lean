import Fluxion.Cache.Basic
import Fluxion.Number.Quantity

/-!
# Evaluating cached functions

A function is found by its name and run at the `Float` nearest to the argument.
The result is in the fast tier. Its error estimate is that of the argument and
one step of rounding of the result; a result that is not finite is a value like
any other, but nothing is known of its error.

What can go wrong is that there is no such function, or that running it ends
without a value. An error of the library's own that the function raises is
passed on as it is.
-/

namespace Fluxion.Cache

open Fluxion.Number Fluxion.Text

/-- How running a function ends without a value. -/
inductive RunFailure (ε : Type) where
  /-- A failure of the function, with its class and its text. -/
  | trap (kind text : String)
  /-- An error of the library. -/
  | own (error : ε)

inductive EvalCause where
  | notFound
  /-- The function failed; the failure has a class and a text. -/
  | trap (kind text : String)
deriving DecidableEq, Repr

def EvalCause.kindName : EvalCause → String
  | .notFound => "not_found"
  | .trap _ _ => "native_trap"

/-- An evaluation without a result: the function, and why. -/
structure EvalError where
  functionName : String
  cause : EvalCause
deriving DecidableEq, Repr

def EvalError.message (e : EvalError) : String :=
  (match e.cause with
    | .notFound => "No compiled function with this name"
    | .trap kind text => "Native execution failed: " ++ kind ++ ": " ++ text) ++
    " (" ++ quoted e.functionName ++ ")"

inductive EvalFailure (ε : Type) where
  | failed (error : EvalError)
  /-- The name stands for a function that is not there. -/
  | dangling (name : Dangling)
  | own (error : ε)

/-- The result of a function at an argument whose error estimate is `error`. -/
def resultOf (error value : Float) : Quantity :=
  .fast value (if value.isFinite then error + value.abs * epsilon else infinity)

variable {φ ε : Type}

def evaluate (run : φ → Float → Except (RunFailure ε) Float) (cache : Cache φ) (name : String)
    (x : Quantity) : Cache φ × Except (EvalFailure ε) Quantity :=
  match cache.lookup name with
  | (cache, .error dangling) => (cache, .error (.dangling dangling))
  | (cache, .ok none) => (cache, .error (.failed ⟨name, .notFound⟩))
  | (cache, .ok (some entry)) =>
      match run entry.payload x.toFloat with
      | .ok value => (cache, .ok (resultOf x.error value))
      | .error (.trap kind text) => (cache, .error (.failed ⟨name, .trap kind text⟩))
      | .error (.own error) => (cache, .error (.own error))

end Fluxion.Cache
