import Fluxion.Expr.Function
import Fluxion.Decimal.Layout
import Fluxion.Text.Quoted

/-!
# Errors in the text of an expression

An error has a cause, the span of the text that it is about, what would have
been right there and what was found instead. Kind and wording follow from the
cause alone.
-/

namespace Fluxion.Source

open Fluxion.Decimal Fluxion.Text

inductive Cause where
  /-- There is nothing in the text. -/
  | empty
  /-- No token starts with this character. -/
  | badCharacter (c : Char)
  /-- The text looks like a number but is none. -/
  | badNumeral (text : String)
  /-- The token cannot stand here. -/
  | unexpected
  /-- The name of a function stands without parentheses after it. -/
  | bareFunction (name : String)
  /-- A group is closed before it holds an expression. -/
  | incompleteGroup
  /-- A parenthesis is closed that was never opened. -/
  | unmatchedClose
  /-- A parenthesis is never closed. -/
  | unclosedOpen
  /-- A name is called that is not in the table of functions. -/
  | unknownFunction (name : String)
  /-- A function gets more arguments than it takes. -/
  | extraArgument (name : String) (arity : Nat)
  /-- Signs, exponents, groups and arguments are nested too deeply. -/
  | nesting (levels : Nat)
  /-- The tree of the expression is too deep. -/
  | treeDepth (levels : Nat)
deriving DecidableEq, Repr

/-- The kinds of errors that callers tell apart. -/
inductive Kind where
  | unexpectedToken | unbalancedParens | unknownFunction | emptyExpression | nestingTooDeep
deriving DecidableEq, Repr

def Kind.name : Kind → String
  | .unexpectedToken => "unexpected_token"
  | .unbalancedParens => "unbalanced_parens"
  | .unknownFunction => "unknown_function"
  | .emptyExpression => "empty_expression"
  | .nestingTooDeep => "nesting_too_deep"

def Cause.kind : Cause → Kind
  | .empty => .emptyExpression
  | .badCharacter _ => .unexpectedToken
  | .badNumeral _ => .unexpectedToken
  | .unexpected => .unexpectedToken
  | .bareFunction _ => .unexpectedToken
  | .incompleteGroup => .unexpectedToken
  | .unmatchedClose => .unbalancedParens
  | .unclosedOpen => .unbalancedParens
  | .unknownFunction _ => .unknownFunction
  | .extraArgument _ _ => .unexpectedToken
  | .nesting _ => .nestingTooDeep
  | .treeDepth _ => .nestingTooDeep

def Cause.message : Cause → String
  | .empty => "Expression is empty"
  | .badCharacter c => "Unexpected character " ++ quoted (String.singleton c)
  | .badNumeral text => "Invalid numeric literal " ++ quoted text
  | .unexpected => "Unexpected token"
  | .bareFunction name => "Function " ++ quoted name ++ " must be called with parentheses"
  | .incompleteGroup => "Empty or incomplete parenthesized group"
  | .unmatchedClose => "Unmatched closing parenthesis"
  | .unclosedOpen => "Unclosed parenthesis"
  | .unknownFunction name => "Unknown function " ++ quoted name
  | .extraArgument name arity =>
      "Function " ++ quoted name ++ " takes " ++ natText arity ++ " argument(s)"
  | .nesting levels => "Expression nests deeper than " ++ natText levels ++ " levels"
  | .treeDepth levels => "Expression tree is deeper than " ++ natText levels ++ " levels"

/-- An error in the text of an expression, about the characters from `start` up
to but not including `stop`. -/
structure ParseError where
  cause : Cause
  start : Nat
  stop : Nat
  expected : List String
  found : Option String
deriving DecidableEq, Repr

/-- The full message: cause, span, what was expected and what was found. -/
def ParseError.message (e : ParseError) : String :=
  e.cause.message ++ " at span [" ++ natText e.start ++ ", " ++ natText e.stop ++ ")" ++
    (if e.expected.isEmpty then "" else "; expected " ++ ", ".intercalate e.expected) ++
    (match e.found with | none => "" | some found => "; found " ++ found)

/-- Why parsing ended without an expression. Only `rejected` ever happens; the
other two would be faults of the parser, and its safety theorems exclude them. -/
inductive Failure where
  | rejected (error : ParseError)
  /-- A token was wanted behind the end mark. -/
  | pastEnd
  /-- A numeral of the token list does not read as a number. -/
  | unreadable (text : String)
deriving DecidableEq, Repr

def Failure.message : Failure → String
  | .rejected e => e.message
  | .pastEnd => "list index out of range"
  | .unreadable text => "could not convert string to float: " ++ quoted text

end Fluxion.Source
