import Fluxion.CommandLine.Arguments

/-!
# What the program does

A run opens a session with the settings of the environment and carries out one
command in it. Errors of the library are outcomes with a message; a request that
is turned down and a derivative that is not finite everywhere show in the exit
status.
-/

namespace Fluxion.CommandLine

open Fluxion.Cache Fluxion.Session

inductive Output where
  | reply (reply : Reply)
  | code (text : String)
  | plot (rows : List (Float × Float))
  | stability (report : StabilityReport)
  | performance (report : PerformanceReport) (session : Session)

inductive Outcome where
  | halted (halt : Halt)
  | misconfigured (error : ConfigError)
  | output (output : Output)
  | failed (error : SessionError)
  /-- There is no expression to work on. -/
  | noExpression

def Output.status : Output → Nat
  | .reply (.refused _) => 1
  | .stability report => if report.stable then 0 else 2
  | _ => 0

def Outcome.status : Outcome → Nat
  | .halted .help => 0
  | .halted .usage => 2
  | .output result => result.status
  | _ => 1

def outcomeOf {β : Type} (f : β → Output) : Except SessionError β → Outcome
  | .ok value => .output (f value)
  | .error e => .failed e

def Arguments.request (arguments : Arguments) : List (String × Document) :=
  [("expression", (arguments.expression.map Document.text).getD (.list [])),
    ("variable", .text arguments.x), ("x", .number arguments.point)] ++
    (match arguments.mode with
      | some mode => [("mode", .text mode.name)]
      | none => [])

/-- What becomes of a command other than `eval` without an expression: what is
looked at before the expression counts first. -/
def withoutExpression (arguments : Arguments) : Outcome :=
  if arguments.command = .perf && arguments.iterations < 1 then .failed .noIterations
  else
    match checkVariable arguments.x with
    | .error e => .failed e
    | .ok _ => .noExpression

def carryOut [Stack] [Machine] (arguments : Arguments) (s : Session) : Outcome :=
  let mode := arguments.mode.map Calculus.Mode.name
  match arguments.command, arguments.expression with
  | .eval, _ => outcomeOf .reply (s.answer arguments.request).2
  | .source, some text => outcomeOf .code (s.derivativeCode text arguments.x mode)
  | .plot, some text => outcomeOf .plot (s.plot text arguments.x mode arguments.sampling).2
  | .stability, some text =>
      outcomeOf .stability (s.stability text arguments.x mode stabilityPoints).2
  | .perf, some text =>
      let (s, result) :=
        s.performance text arguments.x mode arguments.iterations arguments.point
      outcomeOf (fun report => .performance report s) result
  | _, none => withoutExpression arguments

/-- A run with the settings of the environment and the words of the command line. -/
def run [Stack] [Machine] (env : Environment) (words : List String) : Outcome :=
  match Arguments.ofWords words with
  | .error halt => .halted halt
  | .ok arguments =>
      match Config.ofEnvironment? env with
      | .error e => .misconfigured e
      | .ok config => carryOut arguments (Session.new config)

end Fluxion.CommandLine
