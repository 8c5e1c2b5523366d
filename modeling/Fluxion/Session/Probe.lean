import Fluxion.Session.Basic

/-!
# Probes of a derivative

A probe compiles a derivative and evaluates it more than once.

* `plot` samples it at the points of an interval.
* `stability` looks for points without a finite value.
* `performance` repeats one evaluation, and tells whether anything was compiled.
-/

namespace Fluxion.Session

open Fluxion.Number

def evaluateAll [Machine] (s : Session) (name : String) :
    List Float → Session × Except SessionError (List Quantity)
  | [] => (s, .ok [])
  | x :: xs =>
      match s.evaluate name (.fast x 0.0) with
      | (s, .error e) => (s, .error e)
      | (s, .ok value) =>
          match s.evaluateAll name xs with
          | (s, .ok values) => (s, .ok (value :: values))
          | (s, .error e) => (s, .error e)

/-- The points of a sampling with the values of a derivative there. -/
def plot [Stack] [Machine] (s : Session) (text x : String) (mode : Option String)
    (sampling : Sampling) : Session × Except SessionError (List (Float × Float)) :=
  match s.differentiate text x mode with
  | (s, .error e) => (s, .error e)
  | (s, .ok handle) =>
      match sampling.points with
      | .error e => (s, .error (.sampling e))
      | .ok points =>
          match s.evaluateAll handle.name points with
          | (s, .ok values) => (s, .ok (points.zip (values.map Quantity.toFloat)))
          | (s, .error e) => (s, .error e)

structure StabilityReport where
  expression : String
  results : List (Float × Float)
  firstNonFinite : Option Float

def StabilityReport.stable (report : StabilityReport) : Bool :=
  report.firstNonFinite.isNone

def stabilityPoints : List Float :=
  [0.0, 1.0, -1.0, 100.0]

/-- The first point whose value is not finite. -/
def firstNonFinite (results : List (Float × Quantity)) : Option Float :=
  (results.find? fun (_, value) => !value.isFinite).map (·.1)

def stability [Stack] [Machine] (s : Session) (text x : String) (mode : Option String)
    (points : List Float) :
    Session × Except SessionError StabilityReport :=
  match s.differentiate text x mode with
  | (s, .error e) => (s, .error e)
  | (s, .ok handle) =>
      match s.evaluateAll handle.name points with
      | (s, .error e) => (s, .error e)
      | (s, .ok values) =>
          (s, .ok ⟨handle.expression, points.zip (values.map Quantity.toFloat),
            firstNonFinite (points.zip values)⟩)

structure PerformanceReport where
  expression : String
  iterations : Int
  compiled : Bool
deriving DecidableEq, Repr

def defaultIterations : Int := 50

def performance [Stack] [Machine] (s : Session) (text x : String) (mode : Option String)
    (iterations : Int) (point : Float) : Session × Except SessionError PerformanceReport :=
  if iterations < 1 then (s, .error .noIterations)
  else
    let before := s.compiler.count
    match s.differentiate text x mode with
    | (s, .error e) => (s, .error e)
    | (s, .ok handle) =>
        match s.evaluateAll handle.name (List.replicate iterations.toNat point) with
        | (s, .error e) => (s, .error e)
        | (s, .ok _) =>
            (s, .ok ⟨handle.expression, iterations, decide (before < s.compiler.count)⟩)

end Fluxion.Session
