import Fluxion.Number.Binary64
import Fluxion.Decimal.Numeral

/-!
# The policy of promotion

When a result of the fast tier is too uncertain, it is computed again in the
arbitrary tier. The policy gives the bound on the uncertainty and the precision
of the second computation.
-/

namespace Fluxion.Number

inductive PolicyError where
  | precisionTooLow
  | thresholdNotPositive
deriving DecidableEq, Repr

def PolicyError.message : PolicyError → String
  | .precisionTooLow => "precision_bits must be at least 53"
  | .thresholdNotPositive => "promote_threshold must be positive"

def floatBits : Nat := 53

/-- When and how results are promoted: as soon as the error estimate exceeds
`threshold` times the result, with `bits` bits. -/
structure Policy where
  bits : Nat
  threshold : Float
  floatBits_le_bits : floatBits ≤ bits

def defaultBits : Nat := 113

def defaultThreshold : Float :=
  Decimal.Numeral.nearestDecimal false 1 (-10)

def Policy.default : Policy :=
  ⟨defaultBits, defaultThreshold, by decide⟩

/-- The policy with the given precision and threshold. The precision must be
enough for a `Float`, and the threshold positive. -/
def Policy.make? (bits : Int) (threshold : Float) : Except PolicyError Policy :=
  if h : (floatBits : Int) ≤ bits then
    if threshold > 0.0 then .ok ⟨bits.toNat, threshold, by omega⟩
    else .error .thresholdNotPositive
  else .error .precisionTooLow

end Fluxion.Number
