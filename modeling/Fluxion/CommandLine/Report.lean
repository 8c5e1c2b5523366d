import Fluxion.CommandLine.Run
import Fluxion.Document.Layout

/-!
# What the program prints

Results are JSON documents, but for plots, which are lines of two columns.
-/

namespace Fluxion.CommandLine

open Fluxion.Cache Fluxion.Decimal Fluxion.Session

def errorDocument (message : String) : Document :=
  .record [("error", .text message)]

def replyDocument : Reply → Document
  | .value value error =>
      .record [("derivative_value", .number value), ("error_estimate", .number error)]
  | .refused message => errorDocument message

def stabilityDocument (report : StabilityReport) : Document :=
  .record [("expression", .text report.expression), ("stable", .bool report.stable),
    ("first_non_finite", (report.firstNonFinite.map Document.number).getD .null),
    ("results", .list (report.results.map fun (x, value) =>
      .record [("x", .number x), ("derivative", .number value)]))]

def countField (name : String) (n : Nat) : String × Document :=
  (name, .integer n)

def statsDocument {φ : Type} (cache : Cache φ) : Document :=
  .record [countField "hits" cache.stats.hits, countField "misses" cache.stats.misses,
    countField "compiles" cache.stats.compiles, countField "evictions" cache.stats.evictions,
    countField "failures" cache.stats.failures, countField "size" cache.size,
    ("max_size", (cache.bound.map fun n => .integer n).getD .null),
    ("hit_rate", .number cache.hitRate)]

def performanceDocument (report : PerformanceReport) (session : Session) : Document :=
  .record [("expression", .text report.expression), ("iterations", .integer report.iterations),
    ("compiled", .bool report.compiled), ("cache", statsDocument session.cache)]

def plotText (rows : List (Float × Float)) : String :=
  rows.foldl (fun text (x, value) => text ++ pointText x ++ "," ++ floatText value ++ "\n")
    "x,derivative\n"

def Output.text : Output → String
  | .reply answer => (replyDocument answer).json ++ "\n"
  | .code body => (Document.record [("source", .text body)]).json ++ "\n"
  | .plot rows => plotText rows
  | .stability found => (stabilityDocument found).json ++ "\n"
  | .performance found session => (performanceDocument found session).json ++ "\n"

/-- What is printed about an unexpected end of a run, or of a run without any. -/
def usageText : String :=
  "usage: [-h] [--variable VARIABLE] [--mode forward|reverse] [--x X] [--start START] " ++
    "[--stop STOP] [--step STEP] [--iterations ITERATIONS] [--verbose] " ++
    "eval|source|plot|stability|perf EXPRESSION\n"

def Outcome.outputText : Outcome → String
  | .output result => result.text
  | .halted .help => usageText
  | _ => ""

def Outcome.errorText : Outcome → String
  | .output _ => ""
  | .halted .help => ""
  | .halted .usage => usageText
  | .misconfigured e => e.message ++ "\n"
  | .failed e =>
      if e.grade = .domain then (errorDocument e.message).json ++ "\n" else e.message ++ "\n"
  | .noExpression => "there is no expression\n"

end Fluxion.CommandLine
