import Fluxion.Calculus.Derivative
import Fluxion.Proofs.Outcome
import Fluxion.Proofs.Calculus.Reading

/-!
# Dual numbers and forward mode

A dual number is a value with a slope.  Evaluating a tree over dual numbers, with
slope 1 for the variable and slope 0 for everything else, gives the derivative
of the tree by the rules of calculus.  The derivative that forward mode writes
down has that slope as its value.
-/

namespace Fluxion.Calculus

/-! ## Forward mode on trees that depend on the variable -/

section Forward

variable {α : Type} [Scalar α] {x : String} {a b : Expr α}

theorem forward_neg (h : a.dependsOn x = true) :
    forward x (.unary .neg a) = do
      let da ← forward x a
      return Fold.neg da := by
  simp [forward, h]

theorem forward_binary (op : BinaryOp) (h : (a.dependsOn x || b.dependsOn x) = true) :
    forward x (.binary op a b) = (do
      let da ← forward x a
      let db ← forward x b
      binaryRule x op a b da db) := by
  simp only [forward, h, Bool.not_true, Bool.false_eq_true, if_false]

theorem forward_call (f : Function) (h : a.dependsOn x = true) :
    forward x (.call f.name [a]) = do
      let outer ← functionDerivative f a
      let inner ← forward x a
      return Fold.mul outer inner := by
  have hresolve : resolve f.name 1 = .ok f := by simp [resolve, Function.arity]
  simp only [forward, h, hresolve, Bool.not_true, Bool.false_eq_true, if_false, ok_bind]

end Forward

/-! ## Dual numbers -/

structure Dual (K : Type*) where
  value : K
  slope : K

namespace Reading

variable {α : Type} [Scalar α] {K : Type*} [Field K]

/-- The slope of a power.  Which rule applies depends on whether the base and the
exponent mention the variable. -/
def powerSlope (R : Reading α K) (baseMentions exponentMentions : Bool) (p q : Dual K) : K :=
  if !exponentMentions then q.value * R.power p.value (q.value - 1) * p.slope
  else if !baseMentions then R.power p.value q.value * R.apply .log p.value * q.slope
  else
    R.power p.value q.value *
      (q.slope * R.apply .log p.value + q.value * p.slope / p.value)

def binarySlope (R : Reading α K) (op : BinaryOp) (leftMentions rightMentions : Bool)
    (p q : Dual K) : K :=
  match op with
  | .add => p.slope + q.slope
  | .sub => p.slope - q.slope
  | .mul => p.slope * q.value + p.value * q.slope
  | .div => (p.slope * q.value - p.value * q.slope) / q.value ^ 2
  | .pow => R.powerSlope leftMentions rightMentions p q
  | .other _ => 0

/-- The tree over dual numbers: `x` has slope 1, constants and the other
variables have slope 0. -/
def dual (R : Reading α K) (env : String → K) (x : String) : Expr α → Dual K
  | .const c => ⟨R.value c, 0⟩
  | .var name => ⟨env name, if name = x then 1 else 0⟩
  | .unary .neg a => ⟨-(R.dual env x a).value, -(R.dual env x a).slope⟩
  | .unary (.other _) _ => ⟨0, 0⟩
  | .binary op a b =>
      let p := R.dual env x a
      let q := R.dual env x b
      ⟨R.binary op p.value q.value, R.binarySlope op (a.dependsOn x) (b.dependsOn x) p q⟩
  | .call name [a] =>
      let p := R.dual env x a
      match Function.ofName? name with
      | some f => ⟨R.apply f p.value, R.derivative f p.value * p.slope⟩
      | none => ⟨0, 0⟩
  | .call _ [] => ⟨0, 0⟩
  | .call _ (_ :: _ :: _) => ⟨0, 0⟩

variable (R : Reading α K) (env : String → K) (x : String)

/-- The values of the dual numbers are those of the plain evaluation. -/
@[simp]
theorem value_dual (e : Expr α) : (R.dual env x e).value = R.eval env e := by
  fun_induction R.dual env x e with
  | case1 c => rfl
  | case2 name => rfl
  | case3 a ih => simp only [eval, ih]
  | case4 s a => rfl
  | case5 op a b p q iha ihb => simp only [eval, p, q, iha, ihb]
  | case6 name a p f hf ih => simp only [eval, hf, p, ih]
  | case7 name a hf ih => simp only [eval, hf]
  | case8 name => rfl
  | case9 name a b rest => rfl

theorem slope_binary (op : BinaryOp) (a b : Expr α) :
    (R.dual env x (.binary op a b)).slope =
      R.binarySlope op (a.dependsOn x) (b.dependsOn x) (R.dual env x a) (R.dual env x b) := rfl

/-- The chain rule. -/
theorem slope_call (f : Function) (a : Expr α) :
    (R.dual env x (.call f.name [a])).slope =
      R.derivative f (R.eval env a) * (R.dual env x a).slope := by
  simp [dual]

/-- A binary operation on slopes that are zero has slope zero. -/
theorem binarySlope_zero (op : BinaryOp) (u v : K) :
    R.binarySlope op false false ⟨u, 0⟩ ⟨v, 0⟩ = 0 := by
  cases op <;> simp [binarySlope, powerSlope]

/-- A tree that does not mention the variable has slope zero. -/
theorem slope_eq_zero {e : Expr α} (he : e.Standard) (h : e.dependsOn x = false) :
    (R.dual env x e).slope = 0 := by
  induction he with
  | const value => rfl
  | var name =>
      have hname : name ≠ x := by simpa [Expr.dependsOn] using h
      simp [dual, hname]
  | neg ha ih => simp [dual, ih (by simpa [Expr.dependsOn] using h)]
  | @binary op a b hop ha hb iha ihb =>
      have hab : a.dependsOn x = false ∧ b.dependsOn x = false := by
        simpa [Expr.dependsOn] using h
      have hp : R.dual env x a = ⟨R.eval env a, 0⟩ := by
        rw [← iha hab.1, ← R.value_dual env x a]
      have hq : R.dual env x b = ⟨R.eval env b, 0⟩ := by
        rw [← ihb hab.2, ← R.value_dual env x b]
      rw [slope_binary, hab.1, hab.2, hp, hq, binarySlope_zero]
  | call f ha ih =>
      rw [slope_call, ih (by simpa [Expr.dependsOn, Expr.dependsOnAny] using h), mul_zero]

/-- The rule of a function has the derivative of the function as its value. -/
theorem eval_functionDerivative {f : Function} {u d : Expr α}
    (h : functionDerivative f u = .ok d) : R.eval env d = R.derivative f (R.eval env u) := by
  cases f <;> simp only [functionDerivative, Except.ok.injEq, reduceCtorEq] at h <;>
    subst h <;> simp [derivative, eval, R.power_two, sq]

/-- The power rule has the slope of the power as its value, provided that the
variable occurs in one of the operands. -/
theorem eval_powerRule {u v du dv : Expr α} {baseDepends exponentDepends : Bool}
    {p q : Dual K} (hp : R.eval env u = p.value) (hq : R.eval env v = q.value)
    (hdu : R.eval env du = p.slope) (hdv : R.eval env dv = q.slope)
    (hdep : (baseDepends || exponentDepends) = true) :
    R.eval env (powerRule u v du dv baseDepends exponentDepends) =
      R.powerSlope baseDepends exponentDepends p q := by
  cases exponentDepends with
  | false =>
      obtain rfl : baseDepends = true := by simpa using hdep
      simp [powerRule, powerSlope, hp, hq, hdu]
  | true =>
      cases baseDepends with
      | false => simp [powerRule, powerSlope, hp, hq, hdv]
      | true => simp [powerRule, powerSlope, hp, hq, hdu, hdv]

/-- The rule of a binary operator has the slope of the operation as its value
when the derivatives of the operands have theirs. -/
theorem eval_binaryRule {op : BinaryOp} {u v du dv d : Expr α}
    (hdu : R.eval env du = (R.dual env x u).slope)
    (hdv : R.eval env dv = (R.dual env x v).slope)
    (hdep : (u.dependsOn x || v.dependsOn x) = true)
    (h : binaryRule x op u v du dv = .ok d) :
    R.eval env d = (R.dual env x (.binary op u v)).slope := by
  rw [slope_binary]
  cases op with
  | add =>
      obtain rfl : Fold.add du dv = d := by simpa [binaryRule] using h
      simp [binarySlope, hdu, hdv]
  | sub =>
      obtain rfl : Fold.sub du dv = d := by simpa [binaryRule] using h
      simp [binarySlope, hdu, hdv]
  | mul =>
      obtain rfl : Fold.add (Fold.mul du v) (Fold.mul u dv) = d := by
        simpa [binaryRule] using h
      simp [binarySlope, hdu, hdv]
  | div =>
      obtain ⟨_, _, hd⟩ := bind_eq_ok.mp h
      obtain rfl :
          Fold.div (Fold.sub (Fold.mul du v) (Fold.mul u dv)) (Fold.pow v Fold.two) = d := by
        simpa [pure, Except.pure] using hd
      simp [binarySlope, hdu, hdv, R.power_two, sq]
  | pow =>
      obtain rfl : powerRule u v du dv (u.dependsOn x) (v.dependsOn x) = d := by
        simpa [binaryRule] using h
      exact R.eval_powerRule env (R.value_dual env x u).symm (R.value_dual env x v).symm
        hdu hdv hdep
  | other s => simp [binaryRule] at h

omit [Field K] in
/-- Forward mode does not look into a tree without the variable. -/
theorem forward_of_not_dependsOn {e : Expr α} (h : e.dependsOn x = false) :
    forward x e = .ok Fold.zero := by
  cases e with
  | const value => rfl
  | var name =>
      have hname : (name == x) = false := by simpa [Expr.dependsOn] using h
      simp [forward, hname]
  | unary op a =>
      have ha : a.dependsOn x = false := by simpa [Expr.dependsOn] using h
      simp [forward, ha]
  | binary op a b =>
      have hab : (a.dependsOn x || b.dependsOn x) = false := by
        simpa only [Expr.dependsOn] using h
      simp [forward, hab]
  | call name args =>
      cases args with
      | nil => rfl
      | cons a rest =>
          cases rest with
          | nil =>
              have ha : a.dependsOn x = false := by
                simpa [Expr.dependsOn, Expr.dependsOnAny] using h
              simp [forward, ha]
          | cons b rest =>
              have hany : Expr.dependsOnAny x (a :: b :: rest) = false := by
                simpa only [Expr.dependsOn] using h
              simp [forward, hany]

/-- Without the variable, derivative and slope are zero. -/
theorem eval_forward_of_not_dependsOn {e d : Expr α} (he : e.Standard)
    (hdep : e.dependsOn x = false) (h : forward x e = .ok d) :
    R.eval env d = (R.dual env x e).slope := by
  obtain rfl : Fold.zero = d := by simpa [forward_of_not_dependsOn x hdep] using h
  rw [eval_zero, R.slope_eq_zero env x he hdep]

/-- The derivative that forward mode finds has the slope of the tree over dual
numbers as its value. -/
theorem eval_forward {e d : Expr α} (he : e.Standard) (h : forward x e = .ok d) :
    R.eval env d = (R.dual env x e).slope := by
  induction he generalizing d with
  | const value => exact R.eval_forward_of_not_dependsOn env x (.const value) rfl h
  | var name =>
      by_cases hname : name = x
      · obtain rfl : Fold.one = d := by simpa [forward, hname] using h
        simp [dual, hname]
      · exact R.eval_forward_of_not_dependsOn env x (.var name)
          (by simp [Expr.dependsOn, hname]) h
  | @neg a ha ih =>
      cases hdep : a.dependsOn x with
      | false => exact R.eval_forward_of_not_dependsOn env x (.neg ha) hdep h
      | true =>
          rw [forward_neg hdep] at h
          obtain ⟨da, hda, hd⟩ := bind_eq_ok.mp h
          obtain rfl : Fold.neg da = d := by simpa [pure, Except.pure] using hd
          simp [dual, ih hda]
  | @binary op a b hop ha hb iha ihb =>
      cases hdep : a.dependsOn x || b.dependsOn x with
      | false => exact R.eval_forward_of_not_dependsOn env x (.binary hop ha hb) hdep h
      | true =>
          rw [forward_binary op hdep] at h
          obtain ⟨da, hda, hrest⟩ := bind_eq_ok.mp h
          obtain ⟨db, hdb, hrule⟩ := bind_eq_ok.mp hrest
          exact R.eval_binaryRule env x (iha hda) (ihb hdb) hdep hrule
  | @call f a ha ih =>
      cases hdep : a.dependsOn x with
      | false =>
          exact R.eval_forward_of_not_dependsOn env x (.call f ha)
            (by simp [Expr.dependsOn, Expr.dependsOnAny, hdep]) h
      | true =>
          rw [forward_call f hdep] at h
          obtain ⟨outer, houter, hrest⟩ := bind_eq_ok.mp h
          obtain ⟨inner, hinner, hd⟩ := bind_eq_ok.mp hrest
          obtain rfl : Fold.mul outer inner = d := by simpa [pure, Except.pure] using hd
          rw [eval_mul, slope_call, R.eval_functionDerivative env houter, ih hinner]

/-- Forward mode is differentiation: whenever it succeeds, the derivative has the
slope of the tree over dual numbers as its value, for every assignment. -/
theorem eval_differentiate_forward [Stack] {e d : Expr α} (he : e.Standard)
    (h : differentiate .forward x e = .ok d) :
    R.eval env d = (R.dual env x e).slope := by
  obtain ⟨-, hforward⟩ := differentiate_eq_ok h
  exact R.eval_forward env x he hforward

/-- The derivative of `abs(x) * x ^ 2` at `-3` is `-27`. -/
theorem eval_differentiate_forward_absCube :
    letI := rationals
    absCube.Standard ∧ differentiate .forward "x" absCube = .ok absCubeForward ∧
      rationalReading.eval (fun _ => -3) absCubeForward =
        (rationalReading.dual (fun _ => -3) "x" absCube).slope ∧
      rationalReading.eval (fun _ => -3) absCubeForward = -27 := by
  let _ : Scalar ℚ := rationals
  have hforward : differentiate .forward "x" absCube = .ok absCubeForward := by cbv
  refine ⟨standard_absCube, hforward, ?_, by with_unfolding_all rfl⟩
  exact rationalReading.eval_differentiate_forward (fun _ => -3) "x" standard_absCube hforward

end Reading

end Fluxion.Calculus
