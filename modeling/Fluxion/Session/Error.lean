import Fluxion.Cache.Evaluation
import Fluxion.Calculus.Error
import Fluxion.Calculus.Derivative
import Fluxion.Code.Emit
import Fluxion.Document.Basic
import Fluxion.Session.Sampling
import Fluxion.Source.Error

/-!
# What can go wrong in a session

Every stage has errors of its own, and a session passes them on. They are of
three grades, which decide who deals with them: errors of the library, values
that cannot be used, and everything else, which nobody expects.
-/

namespace Fluxion.Session

open Fluxion.Cache Fluxion.Calculus Fluxion.Code Fluxion.Source Fluxion.Text

inductive SessionError where
  /-- The session is closed. -/
  | closed
  /-- The session is open, but its compiler is closed. -/
  | compilerClosed
  /-- The name of the variable is not a name of the language. -/
  | invalidVariable (name : String)
  | unknownMode (name : String)
  | parse (failure : Failure)
  | derivative (error : DerivativeError)
  | emit (error : EmitError)
  | compile (error : CompileError)
  | eval (error : EvalError)
  /-- A function's name stands for a fingerprint that is not in the cache. -/
  | dangling (name : Dangling)
  /-- The function is being built elsewhere, and the build does not end. -/
  | unfinished
  | sampling (error : SamplingError)
  /-- The number of iterations is not positive. -/
  | noIterations
  /-- A document does not stand for a number. -/
  | argument (error : Document.NumberError)
  /-- A document cannot be written. -/
  | unwritten (error : Document.WordError)
deriving DecidableEq, Repr

/-- Who deals with an error. -/
inductive Grade where
  /-- An error of the library's own: it explains what is wrong with the input. -/
  | domain
  /-- A value of the wrong kind or out of range. -/
  | value
  /-- Anything else. -/
  | unexpected
deriving DecidableEq, Repr

def parseGrade : Failure → Grade
  | .rejected _ => .domain
  | .pastEnd => .unexpected
  | .unreadable _ => .value

def derivativeGrade : DerivativeError → Grade
  | .unknownFunction _ => .domain
  | .argumentCount _ _ _ => .domain
  | .noRule _ => .domain
  | .zeroDenominator => .domain
  | .tooDeep => .domain
  | .unknownUnary _ => .unexpected
  | .unknownBinary _ => .unexpected
  | .unknownLabel _ => .unexpected
  | .emptyCall => .unexpected
  | .missingOperand => .unexpected

def emitGrade : EmitError → Grade
  | .invalidName _ => .value
  | .unknownOperator _ => .unexpected
  | .compile _ => .domain

def samplingGrade : SamplingError → Grade
  | .stepNotPositive => .value
  | .reversed => .value
  | .unknownCount => .value
  | .infiniteCount => .unexpected

def numberGrade : Document.NumberError → Grade
  | .notNumeral _ => .value
  | .wrongKind _ => .value
  | .tooLarge => .unexpected

namespace SessionError

def grade : SessionError → Grade
  | .closed => .domain
  | .compilerClosed => .domain
  | .invalidVariable _ => .value
  | .unknownMode _ => .value
  | .parse failure => parseGrade failure
  | .derivative error => derivativeGrade error
  | .emit error => emitGrade error
  | .compile _ => .domain
  | .eval _ => .domain
  | .dangling _ => .unexpected
  | .unfinished => .unexpected
  | .sampling error => samplingGrade error
  | .noIterations => .value
  | .argument error => numberGrade error
  | .unwritten _ => .value

def message : SessionError → String
  | .closed => "DiffContext is closed"
  | .compilerClosed => "JIT backend is closed"
  | .invalidVariable name => "Invalid variable name " ++ quoted name
  | .unknownMode name => Mode.unknownMessage name
  | .parse failure => failure.message
  | .derivative error => error.message
  | .emit error => error.message
  | .compile error => error.message
  | .eval error => error.message
  | .dangling name => name.fingerprint
  | .unfinished => "The function is being built"
  | .sampling error => error.message
  | .noIterations => "iterations must be positive"
  | .argument error => error.message
  | .unwritten error => error.message

end SessionError

end Fluxion.Session
