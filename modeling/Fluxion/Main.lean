import Fluxion.CommandLine.Report

/-!
# The program

The words of the command line and the settings of the environment go in, and
what a run prints comes out.
-/

open Fluxion.CommandLine Fluxion.Session

namespace Fluxion.CommandLine

def readEnvironment : IO Environment :=
  settingNames.filterMapM fun name => do
    let text ← IO.getEnv name
    return text.map fun text => (name, text)

end Fluxion.CommandLine

def main (words : List String) : IO UInt32 := do
  let outcome := run (← readEnvironment) words
  (← IO.getStdout).putStr outcome.outputText
  (← IO.getStderr).putStr outcome.errorText
  return UInt32.ofNat outcome.status
