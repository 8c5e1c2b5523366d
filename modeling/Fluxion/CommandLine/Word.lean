import Fluxion.Text.Digit

/-!
# Words of a command line

Each word is a value, a flag, or the mark `--`, behind which all words are
values. A flag may be shortened as long as it stays the only one with that
start, and its value may follow after `=` in the same word.

Some words look like flags and are values all the same: negative numbers, and
whatever has a blank in it.
-/

namespace Fluxion.CommandLine

open Fluxion.Text

/-- A flag, which takes a value unless it is `verbose`. -/
inductive Flag where
  | variable | mode | x | start | stop | step | iterations | verbose
deriving DecidableEq, Repr

def Flag.all : List Flag :=
  [.variable, .mode, .x, .start, .stop, .step, .iterations, .verbose]

def Flag.name : Flag → String
  | .variable => "variable"
  | .mode => "mode"
  | .x => "x"
  | .start => "start"
  | .stop => "stop"
  | .step => "step"
  | .iterations => "iterations"
  | .verbose => "verbose"

def helpName : String := "help"

inductive Word where
  | value (text : String)
  | separator
  | flag (flag : Flag) (attached : Option String)
  | help
  /-- A flag with a value that it does not take. -/
  | misused
  /-- A flag that does not exist. -/
  | unknown
  /-- A start of several flags. -/
  | ambiguous
deriving DecidableEq, Repr

/-- The part before the first `=`, and the part after it if there is one. -/
def splitAttached (cs : List Char) : List Char × Option String :=
  match cs.dropWhile (· != '=') with
  | [] => (cs, none)
  | _ :: rest => (cs.takeWhile (· != '='), some (String.ofList rest))

/-- The flags, or help (`none`), that a name may mean: the one with exactly that
name, or else all that start with it. -/
def candidates (name : List Char) : List (Option Flag) :=
  let named := (none, helpName) :: Flag.all.map fun f => (some f, f.name)
  match named.find? fun (_, full) => full.toList == name with
  | some (flag, _) => [flag]
  | none => (named.filter fun (_, full) => name.isPrefixOf full.toList).map (·.1)

def longFlag (cs : List Char) : Option Word :=
  let (name, attached) := splitAttached cs
  match candidates name with
  | [] => none
  | [some f] => some (.flag f attached)
  | [none] => some (if attached.isSome then .misused else .help)
  | _ => some .ambiguous

/-- What follows `-h`: any number of further `h`, and then nothing that would be a
value of a flag that takes none. -/
def shortHelp (cs : List Char) : Word :=
  match cs.dropWhile (· == 'h') with
  | '=' :: _ => .misused
  | '-' :: _ => .misused
  | _ => .help

/-- Digits, with or without a point among or before them. -/
def isPlainNumber (cs : List Char) : Bool :=
  let isDecimal (c : Char) : Bool := (decimalValue? c).isSome
  match cs.dropWhile isDecimal with
  | [] => !cs.isEmpty
  | '.' :: rest => !rest.isEmpty && rest.all isDecimal
  | _ => false

def dropLineBreak (cs : List Char) : List Char :=
  if cs.getLast? = some '\n' then cs.dropLast else cs

/-- A word that starts with a hyphen but is no flag: a value if it is a negative
number or has a blank in it. -/
def hyphenated (text : String) (cs : List Char) : Word :=
  if isPlainNumber (dropLineBreak cs) || cs.contains ' ' then .value text else .unknown

/-- A word before the mark `--`. -/
def Word.of (text : String) : Word :=
  match text.toList with
  | ['-', '-'] => .separator
  | '-' :: '-' :: cs => (longFlag cs).getD (hyphenated text ('-' :: cs))
  | '-' :: 'h' :: cs => shortHelp cs
  | '-' :: c :: cs => hyphenated text (c :: cs)
  | _ => .value text

def Word.ofList : List String → List Word
  | [] => []
  | text :: rest =>
      match Word.of text with
      | .separator => .separator :: rest.map .value
      | word => word :: Word.ofList rest

end Fluxion.CommandLine
