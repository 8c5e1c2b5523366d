import Fluxion.CommandLine.Word
import Fluxion.Session.Probe
import Fluxion.Session.Request

/-!
# Arguments of the program

The program takes a command and an expression, in this order, with flags before,
between and behind them. The words are looked at from left to right, and the
first fault or request for help ends the reading.
-/

namespace Fluxion.CommandLine

open Fluxion.Calculus Fluxion.Decimal Fluxion.Session

inductive Command where
  | eval | source | plot | stability | perf
deriving DecidableEq, Repr

def Command.ofName? (name : String) : Option Command :=
  match name with
  | "eval" => some .eval
  | "source" => some .source
  | "plot" => some .plot
  | "stability" => some .stability
  | "perf" => some .perf
  | _ => none

/-- What is asked of the program. There may be no expression in spite of a word
for it, since a second `--` stands for nothing. -/
structure Arguments where
  command : Command
  expression : Option String
  x : String
  mode : Option Mode
  point : Float
  sampling : Sampling
  iterations : Int
  verbose : Bool

/-- Why there is nothing to do. -/
inductive Halt where
  | usage | help
deriving DecidableEq, Repr

structure Draft where
  command : Option Command
  expression : Option (Option String)
  x : String
  mode : Option Mode
  point : Float
  sampling : Sampling
  iterations : Int
  verbose : Bool
  /-- Whether there was a word that has no place. -/
  surplus : Bool

def Draft.start : Draft where
  command := none
  expression := none
  x := defaultVariable
  mode := none
  point := defaultPoint
  sampling := Sampling.default
  iterations := defaultIterations
  verbose := false
  surplus := false

namespace Draft

def numberOf (text : String) : Except Halt Float :=
  match readFloat? text with
  | some x => .ok x
  | none => .error .usage

def setFlag (draft : Draft) (flag : Flag) (text : String) : Except Halt Draft :=
  match flag with
  | .variable => .ok { draft with x := text }
  | .mode =>
      match Mode.ofName? text with
      | some mode => .ok { draft with mode := some mode }
      | none => .error .usage
  | .x => do
      let x ← numberOf text
      return { draft with point := x }
  | .start => do
      let x ← numberOf text
      return { draft with sampling := { draft.sampling with start := x } }
  | .stop => do
      let x ← numberOf text
      return { draft with sampling := { draft.sampling with stop := x } }
  | .step => do
      let x ← numberOf text
      return { draft with sampling := { draft.sampling with step := x } }
  | .iterations =>
      match readInt? text with
      | some n => .ok { draft with iterations := n }
      | none => .error .usage
  | .verbose => .error .usage

/-- Takes a value that belongs to no flag: the command, then the expression. The
value `--` is dropped from the place of the expression unless the mark came
right before it. -/
def place (draft : Draft) (afterMark : Bool) (text : String) : Except Halt Draft :=
  match draft.command, draft.expression with
  | none, _ =>
      match Command.ofName? text with
      | some command => .ok { draft with command := some command }
      | none => .error .usage
  | some _, none =>
      .ok { draft with
              expression := some (if text = "--" && !afterMark then none else some text) }
  | some _, some _ => .ok { draft with surplus := true }

/-- Reads words. A mark belongs to the value before it, or else to the one behind
it; a mark that belongs to none is one word too many. -/
def readWords (draft : Draft) : List Word → Except Halt Draft
  | [] => .ok draft
  | .value text :: .separator :: rest => do
      let draft ← draft.place false text
      readWords draft rest
  | .value text :: rest => do
      let draft ← draft.place false text
      readWords draft rest
  | .separator :: .value text :: rest => do
      let draft ← draft.place true text
      readWords draft rest
  | .separator :: rest => readWords { draft with surplus := true } rest
  | .flag .verbose none :: rest => readWords { draft with verbose := true } rest
  | .flag flag (some text) :: rest => do
      let draft ← draft.setFlag flag text
      readWords draft rest
  | .flag flag none :: .value text :: rest => do
      let draft ← draft.setFlag flag text
      readWords draft rest
  | .flag _ none :: _ => .error .usage
  | .help :: _ => .error .help
  | .misused :: _ => .error .usage
  | .unknown :: rest => readWords { draft with surplus := true } rest
  | .ambiguous :: _ => .error .usage

/-- The arguments, if all that is needed was read and nothing else. -/
def finish (draft : Draft) : Except Halt Arguments :=
  match draft.command, draft.expression, draft.surplus with
  | some command, some expression, false =>
      .ok ⟨command, expression, draft.x, draft.mode, draft.point, draft.sampling,
        draft.iterations, draft.verbose⟩
  | _, _, _ => .error .usage

end Draft

/-- The arguments in the words of a command line. A flag that may mean several
things is a fault wherever it stands. -/
def Arguments.ofWords (words : List String) : Except Halt Arguments := do
  let words := Word.ofList words
  if words.contains .ambiguous then .error .usage
  else do
    let draft ← Draft.start.readWords words
    draft.finish

end Fluxion.CommandLine
