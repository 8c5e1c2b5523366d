import Fluxion.Code.Emit
import Fluxion.Proofs.Calculus.Renaming

/-!
# The name of the variable is not written

Code writes every variable as its argument, so it does not tell the name that the variable
had: a tree and its renaming are written alike.  Together with the law that differentiation
goes through a renaming, this says that two requests that differ in the name of the variable
only get the same code: `differentiate_rename`.
-/

namespace Fluxion.Code

open Fluxion.Calculus Fluxion.Expr

variable {r : String → String} {x : String}

/-! ## Phrases -/

theorem exponentOf_rename {name : String} {levels : Nat} {e : Expr Float}
    (h : phraseOf name levels (e.rename r) = phraseOf name levels e) :
    exponentOf name levels (e.rename r) = exponentOf name levels e := by
  have hinteger : integerExponent? (e.rename r) = integerExponent? e := by
    cases e <;> rfl
  rw [exponentOf, exponentOf, hinteger, h]

mutual
/-- Code does not show the names of variables, which are all written as the argument. -/
theorem phraseOf_rename (name : String) :
    ∀ (levels : Nat) (e : Expr Float), phraseOf name levels (e.rename r) = phraseOf name levels e
  | 0, _ => by rw [phraseOf, phraseOf]
  | _ + 1, .const _ => rfl
  | _ + 1, .var _ => by rw [rename, phraseOf, phraseOf]
  | levels + 1, .unary _ a => by rw [rename, phraseOf, phraseOf, phraseOf_rename name levels a]
  | levels + 1, .binary op a b => by
      have ha := phraseOf_rename name levels a
      have hb := phraseOf_rename name levels b
      cases op <;> simp only [rename, phraseOf, ha, hb, exponentOf_rename hb]
  | levels + 1, .call function args => by
      rw [rename, phraseOf, phraseOf, argumentsOf_renameList name levels args]

theorem argumentsOf_renameList (name : String) : ∀ (levels : Nat) (args : List (Expr Float)),
    argumentsOf name levels (renameList r args) = argumentsOf name levels args
  | _, [] => by rw [renameList]
  | levels, [a] => by
      rw [renameList, renameList, argumentsOf, argumentsOf, phraseOf_rename name levels a]
  | levels, a :: b :: rest => by
      have hrest := argumentsOf_renameList name levels (b :: rest)
      rw [renameList] at hrest
      rw [renameList, renameList, argumentsOf, argumentsOf, phraseOf_rename name levels a, hrest]
end

/-! ## Names without a meaning -/

theorem unboundAt?_rename {e : Expr Float} (he : ∀ y, e.dependsOn y = true → y = x) :
    unboundAt? (r x) (e.rename r) = unboundAt? x e := by
  cases e with
  | var name =>
      obtain rfl := he name (by simp [dependsOn])
      simp [rename, unboundAt?]
  | const | unary | binary | call => rfl

/-- The walk notes nothing else in renamed trees. -/
theorem unboundFrom_rename (names : List String) (pending : List (Expr Float))
    (h : ∀ e ∈ pending, ∀ y, e.dependsOn y = true → y = x) :
    unboundFrom (r x) names (pending.map (rename r)) = unboundFrom x names pending := by
  induction names, pending using unboundFrom.induct (x := x) with
  | case1 names => rw [List.map_nil, unboundFrom, unboundFrom]
  | case2 names e rest found ih =>
      obtain ⟨he, hrest⟩ := List.forall_mem_cons.mp h
      have hchildren : ∀ c ∈ e.children.reverse, ∀ y, c.dependsOn y = true → y = x :=
        fun c hc y hy => he y (dependsOn_of_mem_children (List.mem_reverse.mp hc) hy)
      rw [List.map_cons, unboundFrom, unboundFrom, unboundAt?_rename he, children_rename,
        ← List.map_reverse, ← List.map_append]
      exact ih (List.forall_mem_append.mpr ⟨hchildren, hrest⟩)

/-- A tree in one variable is written as it is under another name of the variable. -/
theorem emit_rename [Stack] {e : Expr Float} (he : ∀ y, e.dependsOn y = true → y = x)
    (name : String) :
    emit name (r x) (e.rename r) = emit name x e := by
  have hunbound : unboundNames (r x) (e.rename r) = unboundNames x e :=
    unboundFrom_rename [] [e] (List.forall_mem_singleton.mpr he)
  rw [emit, emit, hunbound, phraseOf_rename]

/-- Differentiation goes through a renaming that keeps names apart, errors included, and
where a tree has no variable but `x`, the code of its derivative does not depend on the
name. -/
theorem differentiate_rename [Stack] (hr : Function.Injective r) (mode : Mode) (x : String)
    (e : Expr Float) :
    differentiate mode (r x) (e.rename r) = rename r <$> differentiate mode x e ∧
      ((∀ y ∈ e.freeVariables, y = x) → ∀ name d d', differentiate mode x e = .ok d →
        differentiate mode (r x) (e.rename r) = .ok d' → emit name (r x) d' = emit name x d) := by
  have hrenamed := differentiate_rename_eq_map hr mode x e
  refine ⟨hrenamed, fun he name d d' hd hd' => ?_⟩
  rw [hrenamed, hd] at hd'
  obtain rfl : d.rename r = d' := Except.ok.inj hd'
  have hvariables : ∀ y, e.dependsOn y = true → y = x := fun y hy => he y (mem_freeVariables.mpr hy)
  exact emit_rename (fun _ hy => eq_of_dependsOn_differentiate hvariables hd hy) name

/-- The tree of `sin(x) * x` in a variable of any name. -/
def sineTimes (x : String) : Expr Float :=
  .binary .mul (.call "sin" [.var x]) (.var x)

/-- The tree of `cos(x) * x + sin(x)` in a variable of any name. -/
def sineTimesSlope (x : String) : Expr Float :=
  .binary .add (.binary .mul (.call "cos" [.var x]) (.var x)) (.call "sin" [.var x])

/-- The derivative of `sin(x) * x` is written as that of `sin(True) * True` by `True`. -/
theorem differentiate_rename_sineTimes :
    Function.Injective (Equiv.swap "x" "True") ∧
      (sineTimes "x").rename (Equiv.swap "x" "True") = sineTimes "True" ∧
      (∀ y ∈ (sineTimes "x").freeVariables, y = "x") ∧
      differentiate .forward "x" (sineTimes "x") = .ok (sineTimesSlope "x") ∧
      differentiate .forward "True" (sineTimes "True") = .ok (sineTimesSlope "True") ∧
      emit "derivative" "True" (sineTimesSlope "True") =
        emit "derivative" "x" (sineTimesSlope "x") := by
  have hinjective : Function.Injective (Equiv.swap "x" "True") := (Equiv.swap "x" "True").injective
  have hvariables : ∀ y ∈ (sineTimes "x").freeVariables, y = "x" := by
    decide
  have hslope : differentiate .forward "x" (sineTimes "x") = .ok (sineTimesSlope "x") := by rfl
  have hrenamed : differentiate .forward "True" (sineTimes "True") =
      .ok (sineTimesSlope "True") := by rfl
  refine ⟨hinjective, by rfl, hvariables, hslope, hrenamed, ?_⟩
  exact (differentiate_rename hinjective .forward "x" (sineTimes "x")).2 hvariables "derivative" _ _
    hslope hrenamed

end Fluxion.Code
