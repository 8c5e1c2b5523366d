import Fluxion.Expr.Basic
import Mathlib.Data.List.Basic
import Mathlib.Tactic.Common

/-!
# The shapes of trees

The trees that a rule of differentiation or a spelling exists for are singled
out by `Expr.Standard`.  It is an inductive predicate, so that a proof about
such a tree has one case for each kind of node and never meets an operator
without a rule.  `Expr.Arithmetic` is the same without a condition on the calls.

`Expr.Subtree` says which trees are in a tree.  The walk with a work list finds the height
of a tree: `depth_eq_height`.
-/

namespace Fluxion

def BinaryOp.known : BinaryOp → Bool
  | .other _ => false
  | _ => true

namespace Expr

variable {α : Type}

/-- A tree over the five binary operators and negation, in which every call
names a function of the table and has one argument. -/
inductive Standard : Expr α → Prop where
  | const (value : α) : Standard (.const value)
  | var (name : String) : Standard (.var name)
  | neg {a : Expr α} (ha : Standard a) : Standard (.unary .neg a)
  | binary {op : BinaryOp} {a b : Expr α} (hop : op.known = true)
      (ha : Standard a) (hb : Standard b) : Standard (.binary op a b)
  | call (f : Function) {a : Expr α} (ha : Standard a) : Standard (.call f.name [a])

/-- A tree over the five binary operators and negation, with any calls. -/
inductive Arithmetic : Expr α → Prop where
  | const (value : α) : Arithmetic (.const value)
  | var (name : String) : Arithmetic (.var name)
  | neg {a : Expr α} (ha : Arithmetic a) : Arithmetic (.unary .neg a)
  | binary {op : BinaryOp} {a b : Expr α} (hop : op.known = true) (ha : Arithmetic a)
      (hb : Arithmetic b) : Arithmetic (.binary op a b)
  | call {name : String} {args : List (Expr α)} (hargs : ∀ a ∈ args, Arithmetic a) :
      Arithmetic (.call name args)

theorem Standard.arithmetic {e : Expr α} (he : e.Standard) : e.Arithmetic := by
  induction he with
  | const value => exact .const value
  | var name => exact .var name
  | neg _ ih => exact .neg ih
  | binary hop _ _ iha ihb => exact .binary hop iha ihb
  | call f _ ih => exact .call (List.forall_mem_singleton.mpr ih)

theorem Standard.of_mem_children {e c : Expr α} (he : e.Standard) (hc : c ∈ e.children) :
    c.Standard := by
  cases he with
  | const value => cases hc
  | var name => cases hc
  | neg ha =>
      obtain rfl := List.mem_singleton.mp hc
      exact ha
  | binary hop ha hb =>
      rcases List.mem_pair.mp hc with rfl | rfl
      · exact ha
      · exact hb
  | call f ha =>
      obtain rfl := List.mem_singleton.mp hc
      exact ha

/-! ## Subtrees -/

/-- `t` is a subtree of a tree: the whole tree, or a subtree of one below the root. -/
inductive Subtree (t : Expr α) : Expr α → Prop where
  | refl : Subtree t t
  | child {c e : Expr α} (hc : c ∈ e.children) (h : Subtree t c) : Subtree t e

/-- A subtree is the tree itself or lies below one of its children. -/
theorem subtree_iff {t e : Expr α} :
    Subtree t e ↔ t = e ∨ ∃ c ∈ e.children, Subtree t c := by
  constructor
  · intro h
    cases h with
    | refl => exact Or.inl rfl
    | child hc h => exact Or.inr ⟨_, hc, h⟩
  · rintro (rfl | ⟨c, hc, h⟩)
    · exact .refl
    · exact .child hc h

@[simp]
theorem subtree_const {t : Expr α} {value : α} : Subtree t (.const value) ↔ t = .const value := by
  rw [subtree_iff]
  simp [children]

@[simp]
theorem subtree_var {t : Expr α} {name : String} : Subtree t (.var name) ↔ t = .var name := by
  rw [subtree_iff]
  simp [children]

@[simp]
theorem subtree_unary {t a : Expr α} {op : UnaryOp} :
    Subtree t (.unary op a) ↔ t = .unary op a ∨ Subtree t a := by
  rw [subtree_iff]
  simp [children]

@[simp]
theorem subtree_binary {t a b : Expr α} {op : BinaryOp} :
    Subtree t (.binary op a b) ↔ t = .binary op a b ∨ Subtree t a ∨ Subtree t b := by
  rw [subtree_iff]
  simp [children]

@[simp]
theorem subtree_call {t a : Expr α} {name : String} :
    Subtree t (.call name [a]) ↔ t = .call name [a] ∨ Subtree t a := by
  rw [subtree_iff]
  simp [children]

theorem Subtree.trans {t u e : Expr α} (h : Subtree t u) (h' : Subtree u e) : Subtree t e := by
  induction h' with
  | refl => exact h
  | child hc _ ih => exact .child hc ih

/-- A subtree is the whole tree, or it stands directly below another subtree. -/
theorem Subtree.eq_or_parent {t e : Expr α} (h : Subtree t e) :
    t = e ∨ ∃ p, t ∈ p.children ∧ Subtree p e := by
  induction h with
  | refl => exact Or.inl rfl
  | @child c e hc _ ih =>
      right
      rcases ih with rfl | ⟨p, hp, hpc⟩
      · exact ⟨e, hc, .refl⟩
      · exact ⟨p, hp, .child hc hpc⟩

theorem Subtree.operand {op : UnaryOp} {a e : Expr α} (h : Subtree (.unary op a) e) :
    Subtree a e :=
  Subtree.trans (.child List.mem_cons_self .refl) h

theorem Subtree.left {op : BinaryOp} {a b e : Expr α} (h : Subtree (.binary op a b) e) :
    Subtree a e :=
  Subtree.trans (.child List.mem_cons_self .refl) h

theorem Subtree.right {op : BinaryOp} {a b e : Expr α} (h : Subtree (.binary op a b) e) :
    Subtree b e :=
  Subtree.trans (.child (List.mem_cons_of_mem a List.mem_cons_self) .refl) h

theorem Subtree.argument {name : String} {a e : Expr α} (h : Subtree (.call name [a]) e) :
    Subtree a e :=
  Subtree.trans (.child List.mem_cons_self .refl) h

theorem Standard.subtree {t e : Expr α} (he : e.Standard) (h : Subtree t e) : t.Standard := by
  induction h with
  | refl => exact he
  | child hc _ ih => exact ih (he.of_mem_children hc)

theorem size_le_sizeList {c : Expr α} {trees : List (Expr α)} (hc : c ∈ trees) :
    c.size ≤ sizeList trees := by
  induction trees with
  | nil => cases hc
  | cons a rest ih =>
      rw [sizeList]
      rcases List.mem_cons.mp hc with rfl | hrest
      · exact Nat.le_add_right _ _
      · exact Nat.le_trans (ih hrest) (Nat.le_add_left _ _)

theorem size_lt_of_mem_children {c e : Expr α} (hc : c ∈ e.children) : c.size < e.size := by
  rw [← sizeList_children e]
  exact Nat.lt_succ_of_le (size_le_sizeList hc)

theorem Subtree.size_le {t e : Expr α} (h : Subtree t e) : t.size ≤ e.size := by
  induction h with
  | refl => exact Nat.le_refl _
  | child hc _ ih => exact Nat.le_trans ih (Nat.le_of_lt (size_lt_of_mem_children hc))

theorem dependsOnAny_eq_any (x : String) (args : List (Expr α)) :
    dependsOnAny x args = args.any (dependsOn x) := by
  induction args with
  | nil => rfl
  | cons a args ih => rw [dependsOnAny, ih, List.any_cons]

theorem dependsOn_of_mem_children {x : String} {c e : Expr α} (hc : c ∈ e.children)
    (h : c.dependsOn x = true) : e.dependsOn x = true := by
  cases e with
  | const value => cases hc
  | var name => cases hc
  | unary op a =>
      obtain rfl := List.mem_singleton.mp hc
      exact h
  | binary op a b =>
      rw [dependsOn, Bool.or_eq_true]
      rcases List.mem_pair.mp hc with rfl | rfl
      · exact Or.inl h
      · exact Or.inr h
  | call name args =>
      rw [dependsOn, dependsOnAny_eq_any, List.any_eq_true]
      exact ⟨c, hc, h⟩

/-- A tree mentions the variables of its subtrees. -/
theorem Subtree.dependsOn {x : String} {t e : Expr α} (h : Subtree t e)
    (ht : t.dependsOn x = true) : e.dependsOn x = true := by
  induction h with
  | refl => exact ht
  | child hc _ ih => exact dependsOn_of_mem_children hc ih

theorem dependsOn_iff_children {x : String} {e : Expr α} :
    e.dependsOn x = true ↔ e = .var x ∨ ∃ c ∈ e.children, c.dependsOn x = true := by
  cases e with
  | const value => simp [dependsOn, children]
  | var name => simp [dependsOn, children]
  | unary op a => simp [dependsOn, children]
  | binary op a b => simp [dependsOn, children]
  | call name args => simp [dependsOn, children, dependsOnAny_eq_any]

/-- The variables of a tree are the names at its leaves. -/
theorem dependsOn_iff_subtree {x : String} {e : Expr α} :
    e.dependsOn x = true ↔ Subtree (.var x) e := by
  constructor
  · intro h
    induction hsize : e.size using Nat.strongRecOn generalizing e with
    | ind size ih =>
        rcases dependsOn_iff_children.mp h with rfl | ⟨c, hc, hdepends⟩
        · exact .refl
        · have hsmaller : c.size < size := hsize ▸ size_lt_of_mem_children hc
          exact .child hc (ih _ hsmaller hdepends rfl)
  · intro h
    exact h.dependsOn (by simp [Expr.dependsOn])

mutual
theorem mem_variablesOnto (y : String) : ∀ (e : Expr α) (names : List String),
    y ∈ e.variablesOnto names ↔ e.dependsOn y = true ∨ y ∈ names
  | .const _, _ => by simp [variablesOnto, dependsOn]
  | .var name, _ => by simp [variablesOnto, dependsOn, eq_comm (a := y)]
  | .unary _ a, names => mem_variablesOnto y a names
  | .binary _ a b, names => by
      rw [variablesOnto, mem_variablesOnto y a, mem_variablesOnto y b, dependsOn, Bool.or_eq_true,
        or_assoc]
  | .call _ args, names => mem_variablesOntoList y args names

theorem mem_variablesOntoList (y : String) : ∀ (args : List (Expr α)) (names : List String),
    y ∈ variablesOntoList args names ↔ dependsOnAny y args = true ∨ y ∈ names
  | [], _ => by simp [variablesOntoList, dependsOnAny]
  | a :: as, names => by
      rw [variablesOntoList, mem_variablesOnto y a, mem_variablesOntoList y as, dependsOnAny,
        Bool.or_eq_true, or_assoc]
end

theorem mem_freeVariables {y : String} {e : Expr α} :
    y ∈ e.freeVariables ↔ e.dependsOn y = true := by
  rw [freeVariables, mem_sortedNames, variableNames, mem_variablesOnto]
  exact or_iff_left List.not_mem_nil

/-! ## Heights -/

theorem height_eq_heightList_children (e : Expr α) :
    e.height = heightList e.children + 1 := by
  cases e <;> simp [height, heightList, children]

theorem height_le_heightList {c : Expr α} {trees : List (Expr α)} (hc : c ∈ trees) :
    c.height ≤ heightList trees := by
  induction trees with
  | nil => cases hc
  | cons a rest ih =>
      rw [heightList]
      rcases List.mem_cons.mp hc with rfl | hrest
      · exact Nat.le_max_left _ _
      · exact Nat.le_trans (ih hrest) (Nat.le_max_right _ _)

/-- A tree takes at least one level. -/
theorem levels_of_height_le {e : Expr α} {levels : Nat} (h : e.height ≤ levels) :
    ∃ below, levels = below + 1 := by
  rw [height_eq_heightList_children] at h
  exact ⟨levels - 1, by omega⟩

/-- The deepest level below the trees of a work list. -/
def pendingDepth (deepest : Nat) (pending : List (Expr α × Nat)) : Nat :=
  pending.foldr (fun entry below => max (entry.2 + heightList entry.1.children) below) deepest

theorem pendingDepth_max (deepest level : Nat) (pending : List (Expr α × Nat)) :
    pendingDepth (max deepest level) pending = max level (pendingDepth deepest pending) := by
  induction pending with
  | nil => exact Nat.max_comm deepest level
  | cons entry rest ih =>
      simp only [pendingDepth, List.foldr_cons] at ih ⊢
      rw [ih, Nat.max_left_comm]

/-- Putting the children of a node on the work list reaches as deep as the node. -/
theorem pendingDepth_children (deepest level : Nat) (children : List (Expr α))
    (rest : List (Expr α × Nat)) (hlevel : level ≤ pendingDepth deepest rest) :
    pendingDepth deepest (children.map (fun child => (child, level + 1)) ++ rest) =
      max (level + heightList children) (pendingDepth deepest rest) := by
  induction children with
  | nil => simp [heightList, hlevel]
  | cons child others ih =>
      simp only [pendingDepth, List.map_cons, List.cons_append, List.foldr_cons] at ih ⊢
      rw [ih, heightList, height_eq_heightList_children]
      omega

theorem heightList_append (as bs : List (Expr α)) :
    heightList (as ++ bs) = max (heightList as) (heightList bs) := by
  induction as with
  | nil => exact (Nat.zero_max _).symm
  | cons a as ih => rw [List.cons_append, heightList, heightList, ih, Nat.max_assoc]

theorem heightList_reverse (as : List (Expr α)) : heightList as.reverse = heightList as := by
  induction as with
  | nil => rfl
  | cons a as ih =>
      rw [List.reverse_cons, heightList_append, ih, heightList, heightList, heightList,
        Nat.max_zero, Nat.max_comm]

/-- What is put on the work list for a node reaches as deep as the node did. -/
theorem pendingDepth_push (deepest : Nat) (e : Expr α) (level : Nat)
    (rest : List (Expr α × Nat)) :
    pendingDepth (max deepest level) (push e level rest) =
      pendingDepth deepest ((e, level) :: rest) := by
  have hlevel : level ≤ pendingDepth (max deepest level) rest := by
    rw [pendingDepth_max]
    exact Nat.le_max_left _ _
  rw [push, pendingDepth_children _ _ _ _ hlevel, heightList_reverse, pendingDepth_max]
  simp only [pendingDepth, List.foldr_cons]
  omega

/-- The walk finds the deepest level below its work list. -/
theorem deepestOf_eq_pendingDepth (deepest : Nat) (pending : List (Expr α × Nat)) :
    deepestOf deepest pending = pendingDepth deepest pending := by
  induction deepest, pending using deepestOf.induct with
  | case1 deepest => simp [deepestOf, pendingDepth]
  | case2 deepest e level rest ih => rw [deepestOf, ih, pendingDepth_push]

/-- The walk finds the number of levels of the tree. -/
theorem depth_eq_height (e : Expr α) : e.depth = e.height := by
  rw [depth, deepestOf_eq_pendingDepth, height_eq_heightList_children]
  simp only [pendingDepth, List.foldr_cons, List.foldr_nil]
  omega

end Expr

end Fluxion
