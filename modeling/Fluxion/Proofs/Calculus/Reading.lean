import Fluxion.Calculus.Fold
import Fluxion.Proofs.Expr.Shape
import Mathlib.Algebra.Order.Field.Rat
import Mathlib.Data.Rat.Floor

/-!
# What trees mean in a field

A reading interprets the constants of a tree as elements of a field, in which
division by zero gives zero, and leaves the functions of the table and the power
open.  Folding is sound for every reading: whatever the functions of `Fold`
build has the value of the operation that they stand for.

* `Reading` collects what is asked of the interpretation; the arithmetic of
  constants is that of the field, and the power agrees with the folded ones.
* `Reading.exact` reads the elements of a field as themselves.
* `rationalReading` is the exact reading of the rational numbers.
-/

namespace Fluxion.Calculus

/-- An interpretation of the constants in `α`, of the functions of the table and
of the power in a field.  Constants are computed with exactly, and constants
that folding takes for equal have the same value. -/
structure Reading (α : Type) [Scalar α] (K : Type*) [Field K] where
  value : α → K
  apply : Function → K → K
  power : K → K → K
  value_zero : value Scalar.zero = 0
  value_one : value Scalar.one = 1
  value_two : value Scalar.two = 2
  value_minusOne : value Scalar.minusOne = -1
  value_add : ∀ c d, value (c + d) = value c + value d
  value_sub : ∀ c d, value (c - d) = value c - value d
  value_mul : ∀ c d, value (c * d) = value c * value d
  value_div : ∀ c d, value (c / d) = value c / value d
  value_neg : ∀ c, value (-c) = -value c
  value_same : ∀ c d, Scalar.same c d = true → value c = value d
  value_power : ∀ c d r, Scalar.power? c d = some r → value r = power (value c) (value d)
  power_zero : ∀ u, power u 0 = 1
  power_one : ∀ u, power u 1 = u
  power_two : ∀ u, power u 2 = u * u

/-- The elements of a field as constants: operations are those of the field and
equality is decided.  Which powers and functions of constants are folded is
left open. -/
@[reducible]
def Scalar.exact (K : Type) [Field K] [DecidableEq K] (logTen : K)
    (power? : K → K → Option K) (evaluate? : Function → K → Option K) : Scalar K where
  add := (· + ·)
  sub := (· - ·)
  mul := (· * ·)
  div := (· / ·)
  neg := (- ·)
  zero := 0
  one := 1
  two := 2
  minusOne := -1
  logTen := logTen
  same c d := decide (c = d)
  power? := power?
  evaluate? := evaluate?

namespace Reading

@[reducible]
def exact {K : Type} [Field K] [DecidableEq K] (logTen : K)
    (power? : K → K → Option K) (evaluate? : Function → K → Option K)
    (apply : Function → K → K) (power : K → K → K)
    (hpower : ∀ c d r, power? c d = some r → r = power c d)
    (hzero : ∀ u, power u 0 = 1) (hone : ∀ u, power u 1 = u)
    (htwo : ∀ u, power u 2 = u * u) :
    letI := Scalar.exact K logTen power? evaluate?
    Reading K K :=
  letI := Scalar.exact K logTen power? evaluate?
  { value := id
    apply := apply
    power := power
    value_zero := rfl
    value_one := rfl
    value_two := rfl
    value_minusOne := rfl
    value_add := fun _ _ => rfl
    value_sub := fun _ _ => rfl
    value_mul := fun _ _ => rfl
    value_div := fun _ _ => rfl
    value_neg := fun _ => rfl
    value_same := fun _ _ h => of_decide_eq_true h
    value_power := hpower
    power_zero := hzero
    power_one := hone
    power_two := htwo }

variable {α : Type} [Scalar α] {K : Type*} [Field K]

/-- A binary operator on values.  An operator without a rule has none, and zero
stands for it. -/
def binary (R : Reading α K) : BinaryOp → K → K → K
  | .add, u, v => u + v
  | .sub, u, v => u - v
  | .mul, u, v => u * v
  | .div, u, v => u / v
  | .pow, u, v => R.power u v
  | .other _, _, _ => 0

/-- The derivatives of the functions of the table.  `floor` and `ceil` have none;
the zero that stands for it only ever meets an argument of slope zero. -/
def derivative (R : Reading α K) : Function → K → K
  | .sin, u => R.apply .cos u
  | .cos, u => -R.apply .sin u
  | .tan, u => 1 / R.apply .cos u ^ 2
  | .exp, u => R.apply .exp u
  | .log, u => 1 / u
  | .log10, u => 1 / (u * R.value Scalar.logTen)
  | .sqrt, u => 1 / (2 * R.apply .sqrt u)
  | .abs, u => R.apply .sign u
  | .sign, _ => 0
  | .asin, u => 1 / R.apply .sqrt (1 - u ^ 2)
  | .acos, u => -(1 / R.apply .sqrt (1 - u ^ 2))
  | .atan, u => 1 / (1 + u ^ 2)
  | .sinh, u => R.apply .cosh u
  | .cosh, u => R.apply .sinh u
  | .tanh, u => 1 - R.apply .tanh u ^ 2
  | .floor, _ => 0
  | .ceil, _ => 0

/-- The value of a tree when the variables have the values `env`.  Zero stands
for the value of a node that has no rule. -/
def eval (R : Reading α K) (env : String → K) : Expr α → K
  | .const c => R.value c
  | .var name => env name
  | .unary .neg a => -R.eval env a
  | .unary (.other _) _ => 0
  | .binary op a b => R.binary op (R.eval env a) (R.eval env b)
  | .call name [a] =>
      match Function.ofName? name with
      | some f => R.apply f (R.eval env a)
      | none => 0
  | .call _ [] => 0
  | .call _ (_ :: _ :: _) => 0

variable (R : Reading α K) (env : String → K)

/-- A tree that folding takes for a constant has the value of the constant. -/
theorem eval_of_isConst {c : α} {a : Expr α} (h : Fold.isConst c a = true) :
    R.eval env a = R.value c := by
  cases a with
  | const d => exact R.value_same d c h
  | _ => simp [Fold.isConst] at h

@[simp]
theorem eval_zero : R.eval env Fold.zero = 0 := R.value_zero

@[simp]
theorem eval_one : R.eval env Fold.one = 1 := R.value_one

@[simp]
theorem eval_two : R.eval env Fold.two = 2 := R.value_two

@[simp]
theorem eval_minusOne : R.eval env Fold.minusOne = -1 := R.value_minusOne

@[simp]
theorem eval_call (f : Function) (a : Expr α) :
    R.eval env (Fold.call f a) = R.apply f (R.eval env a) := by
  simp [Fold.call, eval]

@[simp]
theorem eval_neg (a : Expr α) : R.eval env (Fold.neg a) = -R.eval env a := by
  rw [Fold.neg.eq_def]
  split
  · exact R.value_neg _
  · simp [eval]
  · rfl

omit [Scalar α] in
/-- What `constants?` finds are the two operands. -/
theorem eq_const_of_constants? {a b : Expr α} {c d : α}
    (h : Fold.constants? a b = some (c, d)) : a = .const c ∧ b = .const d := by
  rw [Fold.constants?.eq_def] at h
  split at h
  · simp only [Option.some.injEq, Prod.mk.injEq] at h
    obtain ⟨rfl, rfl⟩ := h
    exact ⟨rfl, rfl⟩
  · exact absurd h (by simp)

/-- Folding a sum does not change its value. -/
@[simp]
theorem eval_add (a b : Expr α) :
    R.eval env (Fold.add a b) = R.eval env a + R.eval env b := by
  rw [Fold.add]
  split
  · next c d h =>
      obtain ⟨rfl, rfl⟩ := eq_const_of_constants? h
      exact R.value_add c d
  · split_ifs with ha hb
    · rw [R.eval_of_isConst env ha, R.value_zero, zero_add]
    · rw [R.eval_of_isConst env hb, R.value_zero, add_zero]
    · rfl

@[simp]
theorem eval_sub (a b : Expr α) :
    R.eval env (Fold.sub a b) = R.eval env a - R.eval env b := by
  rw [Fold.sub]
  split
  · next c d h =>
      obtain ⟨rfl, rfl⟩ := eq_const_of_constants? h
      exact R.value_sub c d
  · split_ifs with hb ha
    · rw [R.eval_of_isConst env hb, R.value_zero, sub_zero]
    · rw [eval_neg, R.eval_of_isConst env ha, R.value_zero, zero_sub]
    · rfl

/-- Folding a product does not change its value. -/
@[simp]
theorem eval_mul (a b : Expr α) :
    R.eval env (Fold.mul a b) = R.eval env a * R.eval env b := by
  rw [Fold.mul]
  split
  · next c d h =>
      obtain ⟨rfl, rfl⟩ := eq_const_of_constants? h
      exact R.value_mul c d
  · split_ifs with hzero ha hb ha' hb'
    · rw [eval_zero]
      rcases Bool.or_eq_true_iff.mp hzero with h | h
      · rw [R.eval_of_isConst env h, R.value_zero, zero_mul]
      · rw [R.eval_of_isConst env h, R.value_zero, mul_zero]
    · rw [R.eval_of_isConst env ha, R.value_one, one_mul]
    · rw [R.eval_of_isConst env hb, R.value_one, mul_one]
    · rw [eval_neg, R.eval_of_isConst env ha', R.value_minusOne, neg_one_mul]
    · rw [eval_neg, R.eval_of_isConst env hb', R.value_minusOne, mul_neg_one]
    · rfl

theorem eval_divNode (a b : Expr α) :
    R.eval env (Fold.divNode a b) = R.eval env a / R.eval env b := by
  rw [Fold.divNode]
  split_ifs with hb ha
  · rw [R.eval_of_isConst env hb, R.value_one, div_one]
  · have hzero : Fold.isConst Scalar.zero a = true := (Bool.and_eq_true_iff.mp ha).1
    rw [eval_zero, R.eval_of_isConst env hzero, R.value_zero, zero_div]
  · rfl

/-- Folding a quotient does not change its value, also where the denominator is zero. -/
@[simp]
theorem eval_div (a b : Expr α) :
    R.eval env (Fold.div a b) = R.eval env a / R.eval env b := by
  rw [Fold.div]
  split
  · next c d h =>
      split_ifs with hd
      · exact R.eval_divNode env a b
      · obtain ⟨rfl, rfl⟩ := eq_const_of_constants? h
        exact R.value_div c d
  · exact R.eval_divNode env a b

/-- Folding a power does not change its value. -/
@[simp]
theorem eval_pow (a b : Expr α) :
    R.eval env (Fold.pow a b) = R.power (R.eval env a) (R.eval env b) := by
  rw [Fold.pow]
  split
  · next c d h =>
      obtain ⟨rfl, rfl⟩ := eq_const_of_constants? h
      split
      · next r hr => exact R.value_power c d r hr
      · rfl
  · split_ifs with hone hzero
    · rw [R.eval_of_isConst env hone, R.value_one, R.power_one]
    · rw [eval_one, R.eval_of_isConst env hzero, R.value_zero, R.power_zero]
    · rfl

end Reading

/-! ## Rational numbers -/

def rationalFunction? : Function → ℚ → Option ℚ
  | .abs, u => some |u|
  | .sign, u => some (if u = 0 then 0 else if u < 0 then -1 else 1)
  | .floor, u => some ⌊u⌋
  | .ceil, u => some ⌈u⌉
  | _, _ => none

def rationalPower? (u v : ℚ) : Option ℚ :=
  if v.den = 1 then some (u ^ v.num) else none

theorem rationalPower?_two (u : ℚ) : rationalPower? u 2 = some (u * u) := by
  simp only [rationalPower?, Rat.den_ofNat, if_true, Rat.num_ofNat]
  rw [zpow_ofNat, sq]

/-- Six places of the natural logarithm of ten. -/
def rationalLogTen : ℚ := 2302585 / 1000000

@[reducible]
def rationals : Scalar ℚ :=
  Scalar.exact ℚ rationalLogTen rationalPower? rationalFunction?

/-- The rational numbers read as themselves; where a function or a power has no
rational value, zero stands for it. -/
def rationalReading : letI := rationals; Reading ℚ ℚ :=
  Reading.exact rationalLogTen rationalPower? rationalFunction?
    (fun f u => (rationalFunction? f u).getD 0)
    (fun u v => (rationalPower? u v).getD 0)
    (fun c d r h => by simp [h])
    (fun u => by simp [rationalPower?])
    (fun u => by simp [rationalPower?])
    (fun u => by simp [rationalPower?_two])

def absCube : Expr ℚ :=
  .binary .mul (.call "abs" [.var "x"]) (.binary .pow (.var "x") (.const 2))

theorem standard_absCube : absCube.Standard :=
  .binary rfl (.call .abs (.var "x")) (.binary rfl (.var "x") (.const 2))

/-- The derivative of `absCube` as forward mode writes it:
`sign(x) * x ^ 2 + abs(x) * (2 * x)`. -/
def absCubeForward : Expr ℚ :=
  .binary .add
    (.binary .mul (.call "sign" [.var "x"]) (.binary .pow (.var "x") (.const 2)))
    (.binary .mul (.call "abs" [.var "x"]) (.binary .mul (.const 2) (.var "x")))

/-- The derivative of `absCube` as reverse mode writes it:
`abs(x) * (2 * x) + x ^ 2 * sign(x)`. -/
def absCubeReverse : Expr ℚ :=
  .binary .add
    (.binary .mul (.call "abs" [.var "x"]) (.binary .mul (.const 2) (.var "x")))
    (.binary .mul (.binary .pow (.var "x") (.const 2)) (.call "sign" [.var "x"]))

end Fluxion.Calculus
