import Fluxion.Proofs.Code.FoldNesting

/-!
# The nesting of code by forward mode

The code of a derivative nests deeper than that of the expression.  What it gains on the
way from a leaf to the root of the tree is counted by weights, for each operator those of
its two operands.

In forward mode products have weights: the product rule makes a sum, and the derivative of a
factor that is a product itself stands in it as a factor again, in parentheses.  Sums weigh
nothing on the left, where long ones go on.
-/

namespace Fluxion.Calculus

open Fluxion.Code

variable {α : Type}

/-! ## Weights -/

/-- How many pairs of parentheses a derivative gains at most on the way from the left and
from the right operand to the operation. -/
def Mode.weights : Mode → BinaryOp → Nat × Nat
  | .forward, .add => (0, 1)
  | .forward, .sub => (0, 1)
  | .forward, .mul => (1, 1)
  | .forward, .div => (2, 2)
  | .forward, .pow => (2, 2)
  | .reverse, .add => (0, 0)
  | .reverse, .sub => (0, 1)
  | .reverse, .mul => (0, 0)
  | .reverse, .div => (1, 1)
  | .reverse, .pow => (1, 1)
  | _, .other _ => (0, 0)

mutual
/-- The largest sum of weights on a path from the root of a tree. -/
def pathWeight (mode : Mode) : Expr α → Nat
  | .const _ => 0
  | .var _ => 0
  | .unary _ a => pathWeight mode a + 1
  | .binary op a b =>
      max (pathWeight mode a + (mode.weights op).1) (pathWeight mode b + (mode.weights op).2)
  | .call _ args => pathWeightList mode args + 1

def pathWeightList (mode : Mode) : List (Expr α) → Nat
  | [] => 0
  | a :: as => max (pathWeight mode a) (pathWeightList mode as)
end

section Weights

variable {mode : Mode} {a b : Expr α}

theorem pathWeight_call (f : String) (a : Expr α) :
    pathWeight mode (.call f [a]) = pathWeight mode a + 1 := by
  rw [pathWeight, pathWeightList, pathWeightList, Nat.max_zero]

theorem pathWeight_le_pathWeightList {c : Expr α} {args : List (Expr α)} (hc : c ∈ args) :
    pathWeight mode c ≤ pathWeightList mode args := by
  induction args with
  | nil => cases hc
  | cons a as ih =>
      rw [pathWeightList]
      rcases List.mem_cons.mp hc with rfl | hrest
      · exact Nat.le_max_left _ _
      · exact Nat.le_trans (ih hrest) (Nat.le_max_right _ _)

theorem pathWeight_le_of_mem_children {c e : Expr α} (hc : c ∈ e.children) :
    pathWeight mode c ≤ pathWeight mode e := by
  cases e with
  | const value => cases hc
  | var name => cases hc
  | unary op a =>
      obtain rfl := List.mem_singleton.mp hc
      rw [pathWeight]
      exact Nat.le_succ _
  | binary op a b =>
      rw [pathWeight]
      rcases List.mem_pair.mp hc with rfl | rfl <;> omega
  | call name args =>
      rw [pathWeight]
      exact Nat.le_succ_of_le (pathWeight_le_pathWeightList hc)

/-- A subtree has no heavier path than the whole tree. -/
theorem pathWeight_le_of_subtree {t e : Expr α} (h : Expr.Subtree t e) :
    pathWeight mode t ≤ pathWeight mode e := by
  induction h with
  | refl => exact Nat.le_refl _
  | child hc _ ih => exact Nat.le_trans ih (pathWeight_le_of_mem_children hc)

variable [Scalar α]

theorem pathWeight_eq_of_sameTree (ha : a.Standard) (h : sameTree a b = true) :
    pathWeight mode a = pathWeight mode b := by
  induction ha generalizing b with
  | const c =>
      obtain ⟨d, rfl, _⟩ := sameTree_const h
      rw [pathWeight, pathWeight]
  | var name => rw [sameTree_var h]
  | neg ha ih =>
      obtain ⟨a', rfl, ha'⟩ := sameTree_unary h
      rw [pathWeight, pathWeight, ih ha']
  | binary hop ha hb iha ihb =>
      obtain ⟨u', v', rfl, hu, hv⟩ := sameTree_binary h
      rw [pathWeight, pathWeight, iha hu, ihb hv]
  | call f ha ih =>
      obtain ⟨a', rfl, ha'⟩ := sameTree_call h
      rw [pathWeight_call, pathWeight_call, ih ha']

theorem Shared.pathWeight_eq (ha : a.Standard) (h : Shared a b) :
    pathWeight mode a = pathWeight mode b := by
  rcases h with rfl | h
  · rfl
  · exact pathWeight_eq_of_sameTree ha h

end Weights

/-! ## Forward mode -/

section Forward

variable {x : String} {a b u v du dv : Expr Float} {m : Nat}

/-- A product of trees that both may need parentheses. -/
theorem nesting_foldMul_le (hm : 1 ≤ m) (ha : nesting 3 a ≤ m) (hb : nesting 3 b ≤ m) :
    nesting 1 (Fold.mul a b) ≤ m := by
  have hplaces := nesting_places a
  exact nesting_foldMul hm (by omega) hb fun _ => ha

/-- The derivative of an operand, next to the factor that the operation puts before it. -/
theorem nesting_chainRule (hm : 1 ≤ m) (ha : nesting 3 a ≤ m) (hb : nesting 3 b ≤ m) :
    nesting 0 (Fold.mul a b) ≤ m :=
  Nat.le_trans (nesting_places _).1 (nesting_foldMul_le hm ha hb)

/-- The product rule adds no parentheses to operands that leave room for a pair. -/
theorem nesting_productRule (hu : nesting 3 u ≤ m) (hv : nesting 3 v ≤ m)
    (hdu : nesting 0 du + 1 ≤ m) (hdv : nesting 0 dv + 1 ≤ m) :
    nesting 0 (Fold.add (Fold.mul du v) (Fold.mul u dv)) ≤ m := by
  have hduplaces := nesting_places du
  have hdvplaces := nesting_places dv
  have hleft : nesting 1 (Fold.mul du v) ≤ m := nesting_foldMul_le (by omega) (by omega) hv
  have hleftplaces := nesting_places (Fold.mul du v)
  exact nesting_foldAdd (by omega) (by omega) (nesting_foldMul_le (by omega) hu (by omega))

/-- The quotient rule may add a pair for the square below the line. -/
theorem nesting_quotientRule (hu : nesting 3 u ≤ m) (hv : nesting 3 v ≤ m)
    (hdu : nesting 0 du + 1 ≤ m) (hdv : nesting 0 dv + 1 ≤ m) :
    nesting 0 (Fold.div (Fold.sub (Fold.mul du v) (Fold.mul u dv)) (Fold.pow v Fold.two)) ≤
      m + 1 := by
  have hduplaces := nesting_places du
  have hdvplaces := nesting_places dv
  have hvplaces := nesting_places v
  have hleft : nesting 1 (Fold.mul du v) ≤ m := nesting_foldMul_le (by omega) (by omega) hv
  have hright : nesting 1 (Fold.mul u dv) ≤ m := nesting_foldMul_le (by omega) hu (by omega)
  have hleftplaces := nesting_places (Fold.mul du v)
  have hquotient : nesting 1 (Fold.div (Fold.sub (Fold.mul du v) (Fold.mul u dv))
      (Fold.pow v Fold.two)) ≤ m + 1 :=
    nesting_foldDiv (by omega) (nesting_foldSub_succ (by omega) hright)
      (nesting_foldSquare (by omega) (by decide))
  exact Nat.le_trans (nesting_places _).1 hquotient

/-- The general rule for powers may add a pair for the call of the power. -/
theorem nesting_powerRule (hu : nesting 3 u + 1 ≤ m) (hv : nesting 3 v ≤ m)
    (hdu : nesting 0 du + 1 ≤ m) (hdv : nesting 0 dv + 1 ≤ m) :
    nesting 0 (Fold.mul (Fold.pow u v)
      (Fold.add (Fold.mul dv (Fold.call .log u)) (Fold.div (Fold.mul v du) u))) ≤ m + 1 := by
  have hduplaces := nesting_places du
  have hdvplaces := nesting_places dv
  have huplaces := nesting_places u
  have hvplaces := nesting_places v
  have hpower : ∀ bound < 4, nesting bound (Fold.pow u v) ≤ m + 1 :=
    fun _ hbound => nesting_foldPow (by omega) (by omega) hbound
  have hlog : nesting 3 (Fold.call .log u) ≤ m := by
    rw [nesting_foldCall]
    omega
  have hleft : nesting 1 (Fold.mul dv (Fold.call .log u)) ≤ m :=
    nesting_foldMul_le (by omega) (by omega) hlog
  have hright : nesting 1 (Fold.div (Fold.mul v du) u) ≤ m :=
    nesting_foldDiv (by omega) (nesting_foldMul_le (by omega) hv (by omega)) (by omega)
  have hleftplaces := nesting_places (Fold.mul dv (Fold.call .log u))
  have hsum : nesting 0 (Fold.add (Fold.mul dv (Fold.call .log u)) (Fold.div (Fold.mul v du) u)) ≤
      m := nesting_foldAdd (by omega) (by omega) hright
  have hsumplaces := nesting_places
    (Fold.add (Fold.mul dv (Fold.call .log u)) (Fold.div (Fold.mul v du) u))
  exact Nat.le_trans (nesting_places _).1
    (nesting_foldMul (by omega) (hpower 1 (by decide)) (by omega) fun _ => hpower 3 (by decide))

theorem nesting_operands {op : BinaryOp} {k : Nat} (h : nesting 3 (.binary op u v) + k ≤ m) :
    nesting 3 u + k ≤ m ∧ nesting 3 v + k ≤ m := by
  have hu : nesting 3 u ≤ nesting 3 (.binary op u v) :=
    nesting_le_of_mem_children List.mem_cons_self
  have hv : nesting 3 v ≤ nesting 3 (.binary op u v) :=
    nesting_le_of_mem_children (List.mem_cons_of_mem u List.mem_cons_self)
  omega

/-- What the rules of forward mode build nests deeper than the tree by four pairs, and by
the weights on the way to a leaf. -/
theorem Derives.nesting_le {e d : Expr Float} (h : Derives x e d) (he : nesting 3 e + 4 ≤ m) :
    nesting 0 d ≤ m + pathWeight .forward e := by
  induction h with
  | zero e => exact nesting_const_le (by omega) _
  | one => exact nesting_const_le (by omega) _
  | @neg a da _ ih =>
      have ha : nesting 3 a ≤ nesting 3 (.unary .neg a) :=
        nesting_le_of_mem_children List.mem_cons_self
      have hda := ih (by omega)
      have hplaces := nesting_places da
      rw [pathWeight]
      exact nesting_foldNeg (by omega) (by decide) (by omega)
  | @add u v du dv _ _ ihu ihv =>
      obtain ⟨hu, hv⟩ := nesting_operands he
      have hdu := ihu hu
      have hdv := ihv hv
      have hplaces := nesting_places dv
      rw [pathWeight, Mode.weights]
      exact nesting_foldAdd (by omega) (by omega) (by omega)
  | @sub u v du dv _ _ ihu ihv =>
      obtain ⟨hu, hv⟩ := nesting_operands he
      have hdu := ihu hu
      have hdv := ihv hv
      have hplaces := nesting_places dv
      rw [pathWeight, Mode.weights]
      exact nesting_foldSub (by omega) (by omega) (by omega)
  | @mul u v du dv _ _ ihu ihv =>
      obtain ⟨hu, hv⟩ := nesting_operands he
      have hdu := ihu hu
      have hdv := ihv hv
      rw [pathWeight, Mode.weights]
      exact nesting_productRule (by omega) (by omega) (by omega) (by omega)
  | @div u v du dv _ _ _ _ ihu ihv =>
      obtain ⟨hu, hv⟩ := nesting_operands he
      have hdu := ihu hu
      have hdv := ihv hv
      rw [pathWeight, Mode.weights]
      exact Nat.le_trans (nesting_quotientRule
        (m := m + max (pathWeight .forward u) (pathWeight .forward v) + 1)
        (by omega) (by omega) (by omega) (by omega)) (by omega)
  | @base u v du _ ihu =>
      obtain ⟨hu, hv⟩ := nesting_operands he
      have hdu := ihu hu
      have hplaces := nesting_places du
      have hfactor := nesting_byBase (u := u) (v := v) (m := m - 4) (by omega) (by omega)
      have hfactorplaces := nesting_places (Fold.mul v (Fold.pow u (Fold.sub v Fold.one)))
      rw [pathWeight, Mode.weights]
      exact nesting_chainRule (by omega) (by omega) (by omega)
  | @exponent u v dv _ ihv =>
      obtain ⟨hu, hv⟩ := nesting_operands he
      have hdv := ihv hv
      have hplaces := nesting_places dv
      have hfactor := nesting_byExponent (u := u) (v := v) (m := m - 4) (by omega) (by omega)
      have hfactorplaces := nesting_places (Fold.mul (Fold.pow u v) (Fold.call .log u))
      rw [pathWeight, Mode.weights]
      exact nesting_chainRule (by omega) (by omega) (by omega)
  | @power u v du dv _ _ _ ihu ihv =>
      obtain ⟨hu, hv⟩ := nesting_operands he
      have hdu := ihu hu
      have hdv := ihv hv
      rw [pathWeight, Mode.weights]
      exact Nat.le_trans (nesting_powerRule
        (m := m + max (pathWeight .forward u) (pathWeight .forward v) + 1)
        (by omega) (by omega) (by omega) (by omega)) (by omega)
  | @call f a outer inner _ houter _ ih =>
      have ha : nesting 3 a ≤ nesting 3 (.call f.name [a]) :=
        nesting_le_of_mem_children List.mem_cons_self
      have hinner := ih (by omega)
      have houter := nesting_functionDerivative houter
      have haplaces := nesting_places a
      have hplaces := nesting_places inner
      rw [pathWeight_call]
      exact nesting_chainRule (by omega) (by omega) (by omega)

end Forward

end Fluxion.Calculus
