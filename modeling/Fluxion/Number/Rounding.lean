/-!
# Rounding of exact quotients

Every rounding in the library goes through one rule, stated on natural numbers:
the nearest integer to a quotient, a tie going to the even neighbour.

* `divNearest` is that rule.
* `quotientLog2` finds the binary order of magnitude of a quotient.
* `scaledNearest` rounds a quotient times a power of two.
-/

namespace Fluxion.Number

/-- The integer nearest to `n / d`; a tie goes to the even one. -/
def divNearest (n d : Nat) : Nat :=
  let q := n / d
  let r := n % d
  if 2 * r < d then q
  else if d < 2 * r then q + 1
  else if q % 2 = 0 then q else q + 1

/-- The power of two, as a pair of factors: `2 ^ k` is the first over the
second, and one of them is 1. -/
def powerOfTwo (k : Int) : Nat × Nat :=
  (Nat.pow 2 k.toNat, Nat.pow 2 (-k).toNat)

/-- The exponent `t` with `2 ^ t ≤ n / d < 2 ^ (t + 1)`, for positive `n` and
`d`. The lengths of the two numbers leave only two candidates. -/
def quotientLog2 (n d : Nat) : Int :=
  let t : Int := (n.log2 : Int) - d.log2
  let (up, down) := powerOfTwo t
  if d * up ≤ n * down then t else t - 1

/-- The integer nearest to `n / d * 2 ^ k`. -/
def scaledNearest (n d : Nat) (k : Int) : Nat :=
  let (up, down) := powerOfTwo k
  divNearest (n * up) (d * down)

/-- Rounding is off by at most half a unit. -/
theorem divNearest_within_half (n d : Nat) (hd : 0 < d) :
    2 * (divNearest n d * d) ≤ 2 * n + d ∧ 2 * n ≤ 2 * (divNearest n d * d) + d := by
  have hdiv : d * (n / d) + n % d = n := Nat.div_add_mod n d
  have hmod : n % d < d := Nat.mod_lt n hd
  have hcomm : n / d * d = d * (n / d) := Nat.mul_comm _ _
  have hsucc : (n / d + 1) * d = d * (n / d) + d := by
    rw [Nat.add_mul, hcomm, Nat.one_mul]
  unfold divNearest
  dsimp only
  split
  · omega
  · split
    · omega
    · split <;> omega

end Fluxion.Number
