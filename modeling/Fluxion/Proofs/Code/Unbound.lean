import Fluxion.Code.Emit
import Fluxion.Proofs.Expr.Shape

/-!
# The names that code could not resolve

The names of a tree are collected on a walk over a work list.  One turn of the walk notes the
name of a node and puts the subtrees below it on the list, so what is noted and what is still
pending have the same names throughout (`mem_unboundFrom`), and what is noted stays in order
(`sorted_unboundFrom`).  At the end of the walk stand the names of the whole tree, each once:
`mem_unboundNames`, `sorted_unboundNames`.
-/

namespace Fluxion

namespace Expr

variable {name : String} {names : List String}

/-- The names stand in order, and none stands twice. -/
def Sorted (names : List String) : Prop :=
  names.Pairwise (· < ·)

theorem sorted_insertName (h : Sorted names) : Sorted (insertName name names) := by
  induction names with
  | nil => exact List.pairwise_singleton _ _
  | cons n ns ih =>
      obtain ⟨hfirst, hrest⟩ := List.pairwise_cons.mp h
      rw [insertName]
      split_ifs with hlt heq
      · refine List.pairwise_cons.mpr ⟨fun m hm => ?_, h⟩
        rcases List.mem_cons.mp hm with rfl | hm
        · exact hlt
        · exact String.lt_trans hlt (hfirst m hm)
      · exact h
      · refine List.pairwise_cons.mpr ⟨fun m hm => ?_, ih hrest⟩
        rcases mem_insertName.mp hm with rfl | hm
        · by_contra hnot
          exact heq (String.le_antisymm (String.not_lt.mp hnot) (String.not_lt.mp hlt))
        · exact hfirst m hm

end Expr

namespace Code

open Fluxion.Expr

variable {x y : String} {e : Expr Float} {names : List String} {pending : List (Expr Float)}

/-- The name that is noted at the root of a tree is that of another variable, or it is called
and no function has it. -/
theorem unboundAt?_eq_some :
    unboundAt? x e = some y ↔
      e = .var y ∧ y ≠ x ∨ ∃ args, e = .call y args ∧ Function.ofName? y = none := by
  cases e with
  | const value => simp [unboundAt?]
  | var name =>
      rw [unboundAt?]
      split_ifs with hname
      · rw [beq_iff_eq] at hname
        simp only [Expr.var.injEq, false_and, exists_false, or_false, false_iff]
        rintro ⟨rfl, hy⟩
        exact hy hname
      · rw [beq_iff_eq] at hname
        simp only [Option.some.injEq, Expr.var.injEq, false_and, exists_false, or_false]
        exact ⟨fun h => ⟨h, h ▸ hname⟩, And.left⟩
  | unary op a => simp [unboundAt?]
  | binary op a b => simp [unboundAt?]
  | call name args =>
      rw [unboundAt?]
      split_ifs with hname
      · rw [Option.isNone_iff_eq_none] at hname
        simp only [Option.some.injEq, false_and, Expr.call.injEq, false_or]
        constructor
        · rintro rfl
          exact ⟨args, ⟨rfl, rfl⟩, hname⟩
        · rintro ⟨_, ⟨h, -⟩, -⟩
          exact h
      · rw [Option.isNone_iff_eq_none] at hname
        simp only [false_and, Expr.call.injEq, false_or, false_iff]
        rintro ⟨_, ⟨rfl, -⟩, hy⟩
        exact hname hy

theorem mem_noted {found : Option String} :
    y ∈ found.elim names (insertName · names) ↔ found = some y ∨ y ∈ names := by
  cases found with
  | none => simp
  | some name =>
      rw [Option.elim_some, mem_insertName, Option.some.injEq]
      exact or_congr_left eq_comm

/-- What is noted at the end is what was noted before, and the names of what is pending. -/
theorem mem_unboundFrom : y ∈ unboundFrom x names pending ↔
    y ∈ names ∨ ∃ e ∈ pending, ∃ t, Subtree t e ∧ unboundAt? x t = some y := by
  induction names, pending using unboundFrom.induct (x := x) with
  | case1 names => simp [unboundFrom]
  | case2 names e rest found ih =>
      have hroot : (∃ t, Subtree t e ∧ unboundAt? x t = some y) ↔
          unboundAt? x e = some y ∨
            ∃ c ∈ e.children, ∃ t, Subtree t c ∧ unboundAt? x t = some y := by
        simp only [subtree_iff (e := e), or_and_right, exists_or, exists_eq_left]
        refine or_congr_right ⟨?_, ?_⟩
        · rintro ⟨t, ⟨c, hc, ht⟩, hy⟩
          exact ⟨c, hc, t, ht, hy⟩
        · rintro ⟨c, hc, t, ht, hy⟩
          exact ⟨t, ⟨c, hc, ht⟩, hy⟩
      rw [unboundFrom, ih, mem_noted]
      simp only [List.mem_append, List.mem_reverse, List.mem_cons, or_and_right, exists_or,
        exists_eq_left, hroot, or_assoc]
      exact or_left_comm

/-- The names are kept in order throughout the walk. -/
theorem sorted_unboundFrom (h : Sorted names) : Sorted (unboundFrom x names pending) := by
  induction names, pending using unboundFrom.induct (x := x) with
  | case1 names =>
      rw [unboundFrom]
      exact h
  | case2 names e rest found ih =>
      rw [unboundFrom]
      apply ih
      show Sorted ((unboundAt? x e).elim names (insertName · names))
      cases unboundAt? x e with
      | none => exact h
      | some name => exact sorted_insertName h

/-- A name is not bound: another variable of the tree, or a function that is called and that
the table does not have. -/
def Unbound (x : String) (e : Expr Float) (y : String) : Prop :=
  y ∈ e.freeVariables ∧ y ≠ x ∨ Function.ofName? y = none ∧ ∃ args, Subtree (.call y args) e

/-- Every call in the tree names a function of the table. -/
def Resolved (e : Expr Float) : Prop :=
  ∀ symbol args, Subtree (.call symbol args) e → ∃ f : Function, symbol = f.name

theorem Resolved.of_mem_children {c : Expr Float} (h : Resolved e) (hc : c ∈ e.children) :
    Resolved c :=
  fun symbol args hcall => h symbol args (.child hc hcall)

theorem resolved_of_standard (he : e.Standard) : Resolved e := by
  intro symbol args hcall
  cases he.subtree hcall with
  | call f ha => exact ⟨f, rfl⟩

/-- Every name is bound exactly if `x` is the only variable and every call names a function of the
table. -/
theorem forall_not_unbound_iff :
    (∀ y, ¬ Unbound x e y) ↔ (∀ y ∈ e.freeVariables, y = x) ∧ Resolved e := by
  constructor
  · intro h
    refine ⟨fun y hy => ?_, fun symbol args hcall => ?_⟩
    · by_contra hne
      exact h y (.inl ⟨hy, hne⟩)
    · cases hlookup : Function.ofName? symbol with
      | none => exact absurd (.inr ⟨hlookup, args, hcall⟩) (h symbol)
      | some f => exact ⟨f, (Function.name_of_ofName? hlookup).symm⟩
  · rintro ⟨hvariables, hcalls⟩ y (⟨hfree, hne⟩ | ⟨hnone, args, hcall⟩)
    · exact hne (hvariables y hfree)
    · obtain ⟨f, rfl⟩ := hcalls y args hcall
      rw [Function.ofName?_name] at hnone
      cases hnone

/-- The names that are collected are those that are not bound. -/
theorem mem_unboundNames : y ∈ unboundNames x e ↔ Unbound x e y := by
  rw [unboundNames, mem_unboundFrom, Unbound, mem_freeVariables, dependsOn_iff_subtree]
  simp only [List.not_mem_nil, List.mem_singleton, exists_eq_left, false_or, unboundAt?_eq_some]
  constructor
  · rintro ⟨t, ht, ⟨rfl, hy⟩ | ⟨args, rfl, hy⟩⟩
    · exact .inl ⟨ht, hy⟩
    · exact .inr ⟨hy, args, ht⟩
  · rintro (⟨ht, hy⟩ | ⟨hy, args, ht⟩)
    · exact ⟨_, ht, .inl ⟨rfl, hy⟩⟩
    · exact ⟨_, ht, .inr ⟨args, rfl, hy⟩⟩

/-- They stand in order, each once. -/
theorem sorted_unboundNames (x : String) (e : Expr Float) : Sorted (unboundNames x e) :=
  sorted_unboundFrom List.Pairwise.nil

/-- Nothing is collected if there is no other variable and every call is in the table. -/
theorem unboundNames_eq_nil_iff :
    unboundNames x e = [] ↔ (∀ y ∈ e.freeVariables, y = x) ∧ Resolved e := by
  rw [← forall_not_unbound_iff]
  simp only [List.eq_nil_iff_forall_not_mem, mem_unboundNames]

end Code

end Fluxion
