import Fluxion.Proofs.Calculus.Adjoints
import Fluxion.Proofs.Code.Nesting

/-!
# How deep the code of folded trees nests

Folding returns an operand, a constant, or an operation on the operands, so the code of a
folded tree nests at most as deep as an operation would.  From this follows how deep the
partial derivatives nest: at most four pairs deeper than the operands in them.

A product with the constant -1 is folded to a negation, which may need one pair more than
the product does.
-/

namespace Fluxion.Calculus

open Fluxion.Code Fluxion.Number

section Fold

variable {a b : Expr Float} {m bound : Nat}

theorem nesting_const_le (hm : 1 ≤ m) (value : Float) : nesting bound (.const value) ≤ m := by
  rw [nesting]
  exact Nat.le_trans (constantNesting_le_one value) hm

theorem nesting_foldNeg (hm : 1 ≤ m) (hbound : bound < 3) (ha : nesting 3 a ≤ m) :
    nesting bound (Fold.neg a) ≤ m := by
  have hnode : nesting bound (.unary .neg a) ≤ m := by
    rw [nesting_unary, parensAround_of_lt hbound]
    exact ha
  cases a with
  | const value => exact nesting_const_le hm _
  | unary op a =>
      cases op with
      | neg =>
          have hplace : nesting bound a ≤ nesting 3 a := nesting_mono (by omega) (by decide)
          rw [nesting_unary] at ha
          rw [Fold.neg]
          omega
      | other symbol => exact hnode
  | var name => exact hnode
  | binary op a b => exact hnode
  | call name args => exact hnode

theorem nesting_foldAdd (hm : 1 ≤ m) (ha : nesting 0 a ≤ m) (hb : nesting 1 b ≤ m) :
    nesting 0 (Fold.add a b) ≤ m := by
  have hplaces := nesting_places b
  rw [Fold.add]
  split
  · exact nesting_const_le hm _
  · split_ifs
    · omega
    · exact ha
    · rw [nesting_sum rfl, parensAround_of_lt (by decide)]
      omega

theorem nesting_foldSub (hm : 1 ≤ m) (ha : nesting 0 a ≤ m) (hb : nesting 3 b ≤ m) :
    nesting 0 (Fold.sub a b) ≤ m := by
  have hplaces := nesting_places b
  rw [Fold.sub]
  split
  · exact nesting_const_le hm _
  · split_ifs
    · exact ha
    · exact nesting_foldNeg hm (by decide) hb
    · rw [nesting_sum rfl, parensAround_of_lt (by decide)]
      omega

/-- One pair around a difference is enough, also where it is folded to a negation. -/
theorem nesting_foldSub_succ (ha : nesting 0 a ≤ m) (hb : nesting 1 b ≤ m) :
    nesting 1 (Fold.sub a b) ≤ m + 1 := by
  have haplace : nesting 1 a ≤ nesting 0 a + 1 := nesting_le_succ a (by decide) (by decide)
  have hbplace : nesting 3 b ≤ nesting 1 b + 1 := nesting_le_succ b (by decide) (by decide)
  rw [Fold.sub]
  split
  · exact nesting_const_le (by omega) _
  · split_ifs
    · omega
    · exact nesting_foldNeg (by omega) (by decide) (by omega)
    · have hparens := parensAround_le_one 1 1
      rw [nesting_sum rfl]
      omega

/-- Where a factor -1 becomes a sign, the other factor stands behind that sign. -/
theorem nesting_foldMul (hm : 1 ≤ m) (ha : nesting 1 a ≤ m) (hb : nesting 3 b ≤ m)
    (hsign : Fold.isConst Scalar.minusOne b = true → nesting 3 a ≤ m) :
    nesting 1 (Fold.mul a b) ≤ m := by
  have hplaces := nesting_places b
  rw [Fold.mul]
  split
  · exact nesting_const_le hm _
  · split_ifs with _ _ _ _ hminusOne
    · exact nesting_const_le hm _
    · omega
    · exact ha
    · exact nesting_foldNeg hm (by decide) hb
    · exact nesting_foldNeg hm (by decide) (hsign hminusOne)
    · rw [nesting_product rfl, parensAround_of_lt (by decide)]
      omega

theorem nesting_foldDiv (hm : 1 ≤ m) (ha : nesting 1 a ≤ m) (hb : nesting 2 b ≤ m) :
    nesting 1 (Fold.div a b) ≤ m := by
  have hnode : nesting 1 (Fold.divNode a b) ≤ m := by
    rw [Fold.divNode]
    split_ifs
    · exact ha
    · exact nesting_const_le hm _
    · rw [nesting_product rfl, parensAround_of_lt (by decide)]
      omega
  rw [Fold.div]
  split
  · split_ifs
    · exact hnode
    · exact nesting_const_le hm _
  · exact hnode

/-- A power is written as a call, whose parentheses are one pair more than those of its operands.
-/
theorem nesting_foldPow (ha : nesting 0 a ≤ m) (hb : nesting 0 b ≤ m) (hbound : bound < 4) :
    nesting bound (Fold.pow a b) ≤ m + 1 := by
  have hnode : nesting bound (.binary .pow a b) ≤ m + 1 := by
    have hexponent := exponentNesting_le b
    rw [nesting_pow]
    omega
  have hplace : nesting bound a ≤ nesting 0 a + 1 := nesting_le_succ a hbound (by decide)
  rw [Fold.pow]
  split
  · split
    · exact nesting_const_le (by omega) _
    · exact hnode
  · split_ifs
    · omega
    · exact nesting_const_le (by omega) _
    · exact hnode

theorem nesting_foldCall (f : Function) (a : Expr Float) :
    nesting bound (Fold.call f a) = nesting 0 a + 1 := by
  rw [Fold.call, nesting, nestingList, nestingList, Nat.max_zero]

@[simp]
theorem nesting_foldOne : nesting bound (Fold.one : Expr Float) = 0 := by
  rw [Fold.one, nesting]
  exact constantNesting_of_unsigned (Or.inr ⟨4503599627370496, -52, by decide⟩)

@[simp]
theorem nesting_foldTwo : nesting bound (Fold.two : Expr Float) = 0 := by
  rw [Fold.two, nesting]
  exact constantNesting_of_unsigned (Or.inr ⟨4503599627370496, -51, by decide⟩)

theorem nesting_foldSquare (ha : nesting 0 a ≤ m) (hbound : bound < 4) :
    nesting bound (Fold.pow a Fold.two) ≤ m + 1 :=
  nesting_foldPow ha (by simp) hbound

theorem nesting_foldNeg_succ (hm : 1 ≤ m) (ha : nesting 3 a ≤ m) :
    nesting 3 (Fold.neg a) ≤ m + 1 := by
  have hweak : nesting 0 (Fold.neg a) ≤ m := nesting_foldNeg hm (by decide) ha
  exact nesting_le_of_place hweak (by decide) (by decide)

/-- A reciprocal takes one pair around its denominator. -/
theorem nesting_reciprocal (hm : 1 ≤ m) (hb : nesting 2 b ≤ m) :
    nesting 3 (Fold.div Fold.one b) ≤ m + 1 := by
  have hquotient : nesting 1 (Fold.div Fold.one b) ≤ m := nesting_foldDiv hm (by simp) hb
  exact nesting_le_of_place hquotient (by decide) (by decide)

end Fold

/-- The derivative of a function nests at most four pairs deeper than the argument. -/
theorem nesting_functionDerivative {f : Function} {u p : Expr Float}
    (h : functionDerivative f u = .ok p) : nesting 3 p ≤ nesting 0 u + 4 := by
  have hplaces := nesting_places u
  have hcall : ∀ g bound, nesting bound (Fold.call g u) = nesting 0 u + 1 :=
    fun g _ => nesting_foldCall g u
  have hsquare : ∀ bound < 4, nesting bound (Fold.pow u Fold.two) ≤ nesting 0 u + 1 :=
    fun _ hbound => nesting_foldSquare (Nat.le_refl _) hbound
  have hcallSquare : ∀ g, ∀ bound < 4,
      nesting bound (Fold.pow (Fold.call g u) Fold.two) ≤ nesting 0 u + 1 + 1 :=
    fun g _ hbound => nesting_foldSquare (hcall g 0).le hbound
  have hreciprocal : ∀ {b}, nesting 2 b ≤ nesting 0 u + 2 →
      nesting 3 (Fold.div Fold.one b) ≤ nesting 0 u + 4 :=
    fun hb => Nat.le_succ_of_le (nesting_reciprocal (by omega) hb)
  -- both inverses have `1 / sqrt(1 - u ^ 2)`
  have hroot : nesting 3 (Fold.div Fold.one
      (Fold.call .sqrt (Fold.sub Fold.one (Fold.pow u Fold.two)))) ≤ nesting 0 u + 3 := by
    have hdifference : nesting 0 (Fold.sub Fold.one (Fold.pow u Fold.two)) ≤ nesting 0 u + 1 :=
      nesting_foldSub (by omega) (by simp) (hsquare 3 (by decide))
    refine nesting_reciprocal (by omega) ?_
    rw [nesting_foldCall]
    omega
  cases f <;> cases h
  case sin | exp | abs | sinh | cosh =>
    rw [hcall]
    omega
  case cos =>
    have hnegated := nesting_foldNeg_succ (by omega) (hcall .sin 3).le
    omega
  case tan => exact hreciprocal (hcallSquare .cos 2 (by decide))
  case log => exact hreciprocal (by omega)
  case log10 =>
    have hproduct : nesting 1 (Fold.mul u (.const Scalar.logTen)) ≤ nesting 0 u + 1 :=
      nesting_foldMul (by omega) (by omega) (nesting_const_le (by omega) _) fun _ => by omega
    exact hreciprocal (nesting_le_of_place hproduct (by decide) (by decide))
  case sqrt =>
    have hproduct : nesting 1 (Fold.mul Fold.two (Fold.call .sqrt u)) ≤ nesting 0 u + 1 :=
      nesting_foldMul (by omega) (by simp) (hcall .sqrt 3).le fun _ => by simp
    exact hreciprocal (nesting_le_of_place hproduct (by decide) (by decide))
  case sign => exact nesting_const_le (by omega) _
  case asin => omega
  case acos => exact nesting_foldNeg_succ (by omega) hroot
  case atan =>
    have hsum : nesting 0 (Fold.add Fold.one (Fold.pow u Fold.two)) ≤ nesting 0 u + 1 :=
      nesting_foldAdd (by omega) (by simp) (hsquare 1 (by decide))
    exact hreciprocal (nesting_le_of_place hsum (by decide) (by decide))
  case tanh =>
    have hdifference : nesting 0 (Fold.sub Fold.one (Fold.pow (Fold.call .tanh u) Fold.two)) ≤
        nesting 0 u + 2 :=
      nesting_foldSub (by omega) (by simp) (hcallSquare .tanh 3 (by decide))
    have hplaces := nesting_places (Fold.sub Fold.one (Fold.pow (Fold.call .tanh u) Fold.two))
    omega

section Powers

variable {u v : Expr Float} {m : Nat}

/-- The partial derivative of a power by its base, if the exponent is free of the variable. -/
theorem nesting_byBase (hu : nesting 3 u ≤ m) (hv : nesting 3 v ≤ m) :
    nesting 1 (Fold.mul v (Fold.pow u (Fold.sub v Fold.one))) ≤ m + 2 := by
  have huplaces := nesting_places u
  have hvplaces := nesting_places v
  have hexponent : nesting 0 (Fold.sub v Fold.one) ≤ m + 1 :=
    nesting_foldSub (by omega) (by omega) (by simp)
  have hpower : nesting 3 (Fold.pow u (Fold.sub v Fold.one)) ≤ m + 1 + 1 :=
    nesting_foldPow (by omega) hexponent (by decide)
  exact nesting_foldMul (by omega) (by omega) hpower fun _ => by omega

/-- The partial derivative of a power by its exponent. -/
theorem nesting_byExponent (hu : nesting 3 u ≤ m) (hv : nesting 3 v ≤ m) :
    nesting 1 (Fold.mul (Fold.pow u v) (Fold.call .log u)) ≤ m + 1 := by
  have huplaces := nesting_places u
  have hvplaces := nesting_places v
  have hpower : ∀ bound < 4, nesting bound (Fold.pow u v) ≤ m + 1 :=
    fun _ hbound => nesting_foldPow (by omega) (by omega) hbound
  have hlog : nesting 3 (Fold.call .log u) ≤ m + 1 := by
    rw [nesting_foldCall]
    omega
  exact nesting_foldMul (by omega) (hpower 1 (by decide)) hlog fun _ => hpower 3 (by decide)

end Powers

/-- The partial derivatives of a tree nest at most four pairs deeper than the trees of its
operands. -/
theorem Partial.nesting_le {x : String} {operand : Expr Float → Prop} {t a p : Expr Float}
    {m : Nat} (h : Partial x operand t a p) (hoperand : ∀ u, operand u → nesting 3 u ≤ m) :
    nesting 3 p ≤ m + 4 := by
  cases h with
  | neg | addLeft | addRight | subLeft | subRight => exact nesting_const_le (by omega) _
  | mulLeft hv => exact Nat.le_add_right_of_le (hoperand _ hv)
  | mulRight hu => exact Nat.le_add_right_of_le (hoperand _ hu)
  | @numerator _ _ v _ hv =>
      have hplaces := nesting_places v
      have hv := hoperand v hv
      have hquotient : nesting 3 (Fold.div Fold.one v) ≤ m + 1 + 1 :=
        nesting_reciprocal (by omega) (by omega)
      omega
  | @denominator _ _ u v _ hu hv =>
      have huplaces := nesting_places u
      have hvplaces := nesting_places v
      have hu := hoperand u hu
      have hv := hoperand v hv
      have hquotient : nesting 1 (Fold.div u (Fold.pow v Fold.two)) ≤ m + 1 :=
        nesting_foldDiv (by omega) (by omega) (nesting_foldSquare (by omega) (by decide))
      have hplaces := nesting_places (Fold.div u (Fold.pow v Fold.two))
      have hnegated : nesting 3 (Fold.neg (Fold.div u (Fold.pow v Fold.two))) ≤ m + 2 + 1 :=
        nesting_foldNeg_succ (by omega) (by omega)
      omega
  | @base _ _ u v hu hv =>
      have hproduct := nesting_byBase (hoperand u hu) (hoperand v hv)
      have hplaces := nesting_places (Fold.mul v (Fold.pow u (Fold.sub v Fold.one)))
      omega
  | @exponent _ _ u v hu hv =>
      have hproduct := nesting_byExponent (hoperand u hu) (hoperand v hv)
      have hplaces := nesting_places (Fold.mul (Fold.pow u v) (Fold.call .log u))
      omega
  | @power _ _ u v _ hu hv =>
      have huplaces := nesting_places u
      have hvplaces := nesting_places v
      have hu := hoperand u hu
      have hv := hoperand v hv
      have hpower : ∀ bound < 4, nesting bound (Fold.pow u v) ≤ m + 1 :=
        fun _ hbound => nesting_foldPow (by omega) (by omega) hbound
      have hproduct : nesting 1 (Fold.mul (Fold.pow u v) v) ≤ m + 1 :=
        nesting_foldMul (by omega) (hpower 1 (by decide)) (by omega) fun _ => hpower 3 (by decide)
      have hquotient : nesting 1 (Fold.div (Fold.mul (Fold.pow u v) v) u) ≤ m + 1 :=
        nesting_foldDiv (by omega) hproduct (by omega)
      have hplaces := nesting_places (Fold.div (Fold.mul (Fold.pow u v) v) u)
      omega
  | @call f _ u _ _ hu hp =>
      have hplaces := nesting_places u
      have hfunction := nesting_functionDerivative hp
      have hu := hoperand u hu
      omega

end Fluxion.Calculus
