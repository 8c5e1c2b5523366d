/-!
# Sets of code points

A property of characters is given by the closed intervals of code points that
have it, in ascending order.
-/

namespace Fluxion.Text

/-- Closed intervals of code points, each `(first, last)`. -/
abbrev Ranges := List (Nat × Nat)

def Ranges.has (ranges : Ranges) (c : Char) : Bool :=
  ranges.any fun (first, last) => first ≤ c.toNat && c.toNat ≤ last

/-- A character before all of the intervals is in none. -/
theorem Ranges.has_eq_false {ranges : Ranges} {c : Char}
    (h : ∀ interval ∈ ranges, c.toNat < interval.1) : ranges.has c = false := by
  refine List.any_eq_false.mpr fun interval hinterval => ?_
  simp [Nat.not_le.mpr (h interval hinterval)]

end Fluxion.Text
