import Fluxion.Decimal.Layout

/-!
# Points to sample at

The points of a plot start at one end of an interval and follow each other at a
step, as many as fit best: the number of steps is the nearest integer, so the
last point may lie a little before or behind the other end. Each point is
rounded to twelve decimal places, which hides the error of the steps.

What the numbers are is left open by `pointsBetween`, so that the same rule can
be read over `Float`, where the program runs it, and over an exact field.
-/

namespace Fluxion.Session

open Fluxion.Decimal Fluxion.Number

inductive SamplingError where
  | stepNotPositive
  | reversed
  /-- The number of steps is not a number. -/
  | unknownCount
  /-- The number of steps is infinite. -/
  | infiniteCount
deriving DecidableEq, Repr

def SamplingError.message : SamplingError → String
  | .stepNotPositive => "step must be positive"
  | .reversed => "stop must not be below start"
  | .unknownCount => "cannot convert float NaN to integer"
  | .infiniteCount => "cannot convert float infinity to integer"

structure Sampling where
  start : Float
  stop : Float
  step : Float

/-- From -5 to 5 in steps of one half. -/
def Sampling.default : Sampling :=
  ⟨-5.0, 5.0, 0.5⟩

def pointPlaces : Nat := 12

def nearestInteger (x : Float) : Except SamplingError Int :=
  if x.isNaN then .error .unknownCount
  else if x.isInf then .error .infiniteCount
  else .ok (truncate (toPlaces 0 x))

/-- Numbers to sample at: what is needed of them besides arithmetic and order. -/
class Samplable (α : Type) where
  zero : α
  /-- The number of a count. -/
  ofCount : Nat → α
  /-- The integer nearest to a number, ties to even, if there is one. -/
  nearestInteger : α → Except SamplingError Int
  /-- A number with so many decimal places, ties to even. -/
  toPlaces : Nat → α → α

instance : Samplable Float where
  zero := 0.0
  ofCount n := Binary64.nearest false n 1
  nearestInteger := nearestInteger
  toPlaces := toPlaces

/-- The points from `start` on at a step, so many that the last one is nearest to
`stop`. -/
def pointsBetween {α : Type} [Add α] [Sub α] [Mul α] [Div α] [LE α] [LT α] [DecidableLE α]
    [DecidableLT α] [Samplable α] (start stop step : α) : Except SamplingError (List α) := do
  if step <= Samplable.zero then .error .stepNotPositive
  else if stop < start then .error .reversed
  else do
    let steps ← Samplable.nearestInteger ((stop - start) / step)
    return (List.range (steps + 1).toNat).map fun i =>
      Samplable.toPlaces pointPlaces (start + Samplable.ofCount i * step)

def Sampling.points (sampling : Sampling) : Except SamplingError (List Float) :=
  pointsBetween sampling.start sampling.stop sampling.step

/-- The integers below this one are written without a point. -/
def plainIntegerLimit : Nat := 1000000000000000

/-- The text of a point: an integer of moderate size has no point. -/
def pointText (x : Float) : String :=
  if isIntegral x && decide ((truncate x).natAbs < plainIntegerLimit) then intText (truncate x)
  else floatText x

end Fluxion.Session
