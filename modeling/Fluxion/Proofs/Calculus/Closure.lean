import Fluxion.Proofs.Calculus.Folding

/-!
# Derivatives stay among the trees that code exists for

A tree may call anything before it is differentiated; the check of its calls leaves the
standard trees.  Folding and the rules of both modes lead from standard trees over some
variables to such trees, so a derivative is a standard tree over the variables of the
expression: `standardOver_differentiate`.
-/

namespace Fluxion

namespace Expr

variable {α : Type}

/-- A standard tree whose variables are among those that are allowed. -/
inductive StandardOver (allowed : String → Prop) : Expr α → Prop where
  | const (value : α) : StandardOver allowed (.const value)
  | var {name : String} (hname : allowed name) : StandardOver allowed (.var name)
  | neg {a : Expr α} (ha : StandardOver allowed a) : StandardOver allowed (.unary .neg a)
  | binary {op : BinaryOp} {a b : Expr α} (hop : op.known = true) (ha : StandardOver allowed a)
      (hb : StandardOver allowed b) : StandardOver allowed (.binary op a b)
  | call (f : Function) {a : Expr α} (ha : StandardOver allowed a) :
      StandardOver allowed (.call f.name [a])

variable {allowed : String → Prop}

theorem StandardOver.standard {e : Expr α} (h : StandardOver allowed e) : e.Standard := by
  induction h with
  | const value => exact .const value
  | @var name _ => exact .var name
  | neg _ ih => exact .neg ih
  | binary hop _ _ iha ihb => exact .binary hop iha ihb
  | call f _ ih => exact .call f ih

theorem StandardOver.of_mem_children {e c : Expr α} (he : StandardOver allowed e)
    (hc : c ∈ e.children) : StandardOver allowed c := by
  cases he with
  | const value => cases hc
  | var hname => cases hc
  | neg ha => exact List.mem_singleton.mp hc ▸ ha
  | binary hop ha hb =>
      rcases List.mem_pair.mp hc with rfl | rfl
      · exact ha
      · exact hb
  | call f ha => exact List.mem_singleton.mp hc ▸ ha

theorem StandardOver.subtree {t e : Expr α} (he : StandardOver allowed e) (h : Subtree t e) :
    StandardOver allowed t := by
  induction h with
  | refl => exact he
  | child hc _ ih => exact ih (he.of_mem_children hc)

theorem StandardOver.allowed_of_mem {e : Expr α} (h : StandardOver allowed e)
    {names : List String} : ∀ y ∈ e.variablesOnto names, allowed y ∨ y ∈ names := by
  induction h generalizing names with
  | const value => exact fun y hy => .inr hy
  | var hname =>
      intro y hy
      rcases List.mem_cons.mp hy with rfl | hy
      · exact .inl hname
      · exact .inr hy
  | neg _ ih => exact ih
  | binary _ _ _ iha ihb => exact fun y hy => (iha y hy).elim .inl fun hy => ihb y hy
  | call f _ ih => exact ih

/-- The free variables of such a tree are allowed. -/
theorem StandardOver.allowed_of_mem_freeVariables {e : Expr α} (h : StandardOver allowed e) :
    ∀ y ∈ e.freeVariables, allowed y := by
  intro y hy
  exact (h.allowed_of_mem y (mem_sortedNames.mp hy)).resolve_right List.not_mem_nil

/-- A standard tree is one over all that stands in a list with its variables. -/
theorem Standard.over {e : Expr α} (he : e.Standard) {names : List String}
    (h : ∀ y ∈ e.variablesOnto names, allowed y) :
    StandardOver allowed e ∧ ∀ y ∈ names, allowed y := by
  induction he generalizing names with
  | const value => exact ⟨.const value, h⟩
  | var name =>
      obtain ⟨hname, hnames⟩ := List.forall_mem_cons.mp h
      exact ⟨.var hname, hnames⟩
  | neg _ ih =>
      obtain ⟨ha, hnames⟩ := ih h
      exact ⟨.neg ha, hnames⟩
  | binary hop _ _ iha ihb =>
      obtain ⟨ha, hmiddle⟩ := iha h
      obtain ⟨hb, hnames⟩ := ihb hmiddle
      exact ⟨.binary hop ha hb, hnames⟩
  | call f _ ih =>
      obtain ⟨ha, hnames⟩ := ih h
      exact ⟨.call f ha, hnames⟩

theorem Standard.over_freeVariables {e : Expr α} (he : e.Standard) :
    StandardOver (· ∈ e.freeVariables) e :=
  (he.over fun _ hy => mem_sortedNames.mpr hy).1

end Expr

namespace Calculus

open Fluxion.Expr

variable {α : Type}

/-! ## The check of the calls -/

/-- What passes the check calls functions of the table with one argument. -/
theorem standard_of_checkCalls {e : Expr α} (he : e.Arithmetic) {levels : Nat}
    (h : checkCalls levels e = .ok ()) : e.Standard := by
  induction levels generalizing e with
  | zero =>
      rw [checkCalls] at h
      cases h
  | succ levels ih =>
      cases he with
      | const value => exact .const value
      | var name => exact .var name
      | neg ha => exact .neg (ih ha h)
      | binary hop ha hb =>
          obtain ⟨_, hleft, hright⟩ := bind_eq_ok.mp h
          exact .binary hop (ih ha hleft) (ih hb hright)
      | @call name args hall =>
          obtain ⟨f, hresolve, hargs⟩ := bind_eq_ok.mp h
          rw [resolve] at hresolve
          split at hresolve
          · cases hresolve
          · next g hname =>
              split_ifs at hresolve with hcount
              obtain ⟨a, rfl⟩ := List.length_eq_one_iff.mp hcount
              obtain ⟨_, harg, -⟩ := bind_eq_ok.mp hargs
              rw [← Function.name_of_ofName? hname]
              exact .call g (ih (hall a List.mem_cons_self) harg)

/-- The check of a standard tree fails only where the tree is too deep. -/
theorem checkCalls_of_height {e : Expr α} (he : e.Standard) {levels : Nat}
    (h : e.height ≤ levels) : checkCalls levels e = .ok () := by
  induction he generalizing levels with
  | const value =>
      obtain ⟨below, rfl⟩ := levels_of_height_le h
      rfl
  | var name =>
      obtain ⟨below, rfl⟩ := levels_of_height_le h
      rfl
  | neg _ ih =>
      obtain ⟨below, rfl⟩ := levels_of_height_le h
      exact ih (Nat.le_of_succ_le_succ h)
  | binary _ _ _ iha ihb =>
      obtain ⟨below, rfl⟩ := levels_of_height_le h
      obtain ⟨hleft, hright⟩ := Nat.max_le.mp (Nat.le_of_succ_le_succ h)
      rw [checkCalls, iha hleft, ihb hright]
      rfl
  | call f _ ih =>
      obtain ⟨below, rfl⟩ := levels_of_height_le h
      obtain ⟨hargument, -⟩ := Nat.max_le.mp (Nat.le_of_succ_le_succ h)
      rw [checkCalls, checkCallsList, ih hargument, resolve, Function.ofName?_name]
      rfl

/-! ## Folding -/

section Fold

variable [Scalar α] {allowed : String → Prop} {a : Expr α}

theorem standardOver_neg (ha : StandardOver allowed a) : StandardOver allowed (Fold.neg a) := by
  cases ha with
  | const value => exact .const _
  | var hname => exact .neg (.var hname)
  | neg ha => exact ha
  | binary hop ha hb => exact .neg (.binary hop ha hb)
  | call f ha => exact .neg (.call f ha)

/-- Folding leads from standard trees over some variables to such trees. -/
theorem foldClosed_standardOver (allowed : String → Prop) :
    FoldClosed (fun _ => True) (StandardOver allowed : Expr α → Prop) :=
  .of_nodes .const standardOver_neg (fun hop _ ha hb _ => .binary hop ha hb) .call

end Fold

/-! ## Both modes -/

variable [Scalar α] {allowed : String → Prop} {x : String} {e d : Expr α}

/-- The trees of forward mode are built from the tree and the derivatives of its parts. -/
theorem Derives.standardOver (h : Derives x e d) (he : StandardOver allowed e) :
    StandardOver allowed d :=
  (foldClosed_standardOver allowed).derives (fun _ ht => he.subtree ht) (fun _ _ => trivial) h .refl

/-- Whatever an expression calls, its derivative is a standard tree over its variables,
in both modes. -/
theorem standardOver_differentiate [Stack] (mode : Mode) (he : e.Arithmetic)
    (h : differentiate mode x e = .ok d) :
    e.Standard ∧ StandardOver (· ∈ e.freeVariables) d := by
  obtain ⟨hcheck, -⟩ := differentiate_eq_ok h
  have hstandard : e.Standard := standard_of_checkCalls he hcheck
  exact ⟨hstandard, (foldClosed_standardOver _).differentiate hstandard
    (fun _ ht => hstandard.over_freeVariables.subtree ht) (fun _ _ => trivial) h⟩

end Calculus

end Fluxion
