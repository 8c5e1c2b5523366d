import Fluxion.Decimal.Layout
import Fluxion.Text.Quoted

/-!
# Why an expression has no derivative
-/

namespace Fluxion.Calculus

open Fluxion.Decimal Fluxion.Text

/-- Why differentiation failed. The first five are about the expression; the
others are about operators for which no rule exists, and do not arise on trees
that were read from text. -/
inductive DerivativeError where
  /-- A call of a name outside the table of functions. -/
  | unknownFunction (name : String)
  /-- A call with the wrong number of arguments. -/
  | argumentCount (name : String) (expected got : Nat)
  /-- A function of the table that has no derivative. -/
  | noRule (name : String)
  /-- A quotient whose denominator is zero whatever the variables are. -/
  | zeroDenominator
  /-- The tree has more levels than the rules descend. -/
  | tooDeep
  /-- A unary operator without a rule. -/
  | unknownUnary (symbol : String)
  /-- A binary operator without a rule. -/
  | unknownBinary (symbol : String)
  /-- A node of the tape whose label has no rule. -/
  | unknownLabel (symbol : String)
  /-- A node of the tape that is labelled a call but calls nothing. -/
  | emptyCall
  /-- A node of the tape that lacks its second operand. -/
  | missingOperand
deriving DecidableEq, Repr

def unsupportedMessage (name reason : String) : String :=
  "Cannot differentiate " ++ quoted name ++ ": " ++ reason

def DerivativeError.message : DerivativeError → String
  | .unknownFunction name => unsupportedMessage name "not in the function table"
  | .argumentCount name expected got =>
      unsupportedMessage name
        ("expected " ++ natText expected ++ " argument(s), got " ++ natText got)
  | .noRule name => unsupportedMessage name "no derivative rule"
  | .zeroDenominator => "Quotient rule applied to a denominator that folds to zero"
  | .tooDeep => "Expression nests too deeply to differentiate"
  | .unknownUnary symbol => "Unknown unary op " ++ quoted symbol
  | .unknownBinary symbol => "Unknown binary op " ++ quoted symbol
  | .unknownLabel symbol => "Unknown tape op " ++ quoted symbol
  | .emptyCall => "call node without a function"
  | .missingOperand => "tuple index out of range"

def DerivativeError.function? : DerivativeError → Option String
  | .unknownFunction name => some name
  | .argumentCount name _ _ => some name
  | .noRule name => some name
  | _ => none

end Fluxion.Calculus
