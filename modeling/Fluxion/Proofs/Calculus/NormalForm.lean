import Fluxion.Proofs.Calculus.Closure

/-!
# Derivatives of folded trees

A tree is folded if no node of it folds any further: `Folded`.  Rebuilding a tree from the
leaves up changes nothing exactly if it is folded, since folding never makes a tree larger
and only the node itself is larger than its operands: `folded_iff_normalize_eq`.

Whatever folding makes of folded trees is folded again.  Hence the derivative of a folded
tree is folded, in both modes: `normalize_differentiate`.
-/

namespace Fluxion.Calculus

open Fluxion.Expr

variable {α : Type} [Scalar α] {op : BinaryOp} {a b t e d : Expr α}

/-! ## Sizes -/

omit [Scalar α] in
theorem one_le_size (e : Expr α) : 1 ≤ e.size := by
  rw [← sizeList_children e]
  exact Nat.le_add_left _ _

theorem size_neg_le (a : Expr α) : (Fold.neg a).size ≤ a.size + 1 := by
  rcases neg_cases a with ⟨c, hc⟩ | ⟨b, rfl, hb⟩ | hnode
  · rw [hc]
    exact Nat.le_add_left _ _
  · rw [hb, size]
    omega
  · rw [hnode, size]

/-- Only the node is larger than both operands together. -/
theorem Folds.size_le_or_eq_node (h : Folds op a b t) :
    t.size ≤ a.size + b.size ∨ t = .binary op a b ∧ Fold.binary op a b = .binary op a b := by
  have ha := one_le_size a
  have hb := one_le_size b
  cases h with
  | const c =>
      rw [size]
      exact .inl (by omega)
  | left => exact .inl (Nat.le_add_right _ _)
  | right => exact .inl (Nat.le_add_left _ _)
  | negLeft =>
      have hneg := size_neg_le a
      exact .inl (by omega)
  | negRight =>
      have hneg := size_neg_le b
      exact .inl (by omega)
  | node h => exact .inr ⟨rfl, h⟩

/-- Folding makes nothing larger than the node that it avoids. -/
theorem Folds.size_le (h : Folds op a b t) : t.size ≤ a.size + b.size + 1 := by
  rcases h.size_le_or_eq_node with hle | ⟨rfl, -⟩
  · exact Nat.le_succ_of_le hle
  · rw [size]

theorem normalize_call (name : String) (a : Expr α) :
    normalize (.call name [a]) = .call name [normalize a] := by
  rw [normalize, List.map_singleton]

/-- Rebuilding makes no tree larger. -/
theorem size_normalize_le (he : e.Standard) : (normalize e).size ≤ e.size := by
  induction he with
  | const c => exact Nat.le_of_eq (by rw [normalize])
  | var name => exact Nat.le_of_eq (by rw [normalize])
  | @neg a _ ih =>
      rw [normalize, size]
      exact Nat.le_trans (size_neg_le (normalize a)) (Nat.succ_le_succ ih)
  | @binary op a b _ _ _ iha ihb =>
      have hfolds := (folds_binary op (normalize a) (normalize b)).size_le
      rw [normalize, size]
      omega
  | call f _ ih =>
      rw [normalize_call, size, size, sizeList, sizeList, sizeList]
      omega

/-! ## Folded trees -/

/-- A tree without a node that folds any further. -/
inductive Folded : Expr α → Prop where
  | const (c : α) : Folded (.const c)
  | var (name : String) : Folded (.var name)
  | neg {a : Expr α} (ha : Folded a) (h : Fold.neg a = .unary .neg a) : Folded (.unary .neg a)
  | binary {op : BinaryOp} {a b : Expr α} (ha : Folded a) (hb : Folded b)
      (h : Fold.binary op a b = .binary op a b) : Folded (.binary op a b)
  | call (name : String) {a : Expr α} (ha : Folded a) : Folded (.call name [a])

theorem Folded.normalize_eq (h : Folded e) : normalize e = e := by
  induction h with
  | const c => rw [normalize]
  | var name => rw [normalize]
  | neg _ h ih =>
      rw [normalize, ih]
      exact h
  | binary _ _ h iha ihb => rw [normalize, iha, ihb, h]
  | call name _ ih => rw [normalize_call, ih]

theorem Folded.of_mem_children {c : Expr α} (h : Folded e) (hc : c ∈ e.children) : Folded c := by
  cases h with
  | const value => cases hc
  | var name => cases hc
  | neg ha _ => exact List.mem_singleton.mp hc ▸ ha
  | binary ha hb _ =>
      rcases List.mem_pair.mp hc with rfl | rfl
      · exact ha
      · exact hb
  | call name ha => exact List.mem_singleton.mp hc ▸ ha

theorem Folded.subtree (h : Folded e) (ht : Subtree t e) : Folded t := by
  induction ht with
  | refl => exact h
  | child hc _ ih => exact ih (h.of_mem_children hc)

/-- A tree that rebuilding leaves as it is was folded before. -/
theorem folded_of_normalize_eq (he : e.Standard) (h : normalize e = e) : Folded e := by
  induction he with
  | const c => exact .const c
  | var name => exact .var name
  | @neg a ha ih =>
      have hneg : Fold.neg (normalize a) = .unary .neg a := by rwa [normalize] at h
      have hsize := size_normalize_le ha
      rcases neg_cases (normalize a) with ⟨c, hc⟩ | ⟨b, hb, hoperand⟩ | hnode
      · rw [hc] at hneg
        cases hneg
      · rw [hb, ← hoperand, hneg, size, size] at hsize
        omega
      · have hoperand : normalize a = a := by
          rw [hnode] at hneg
          exact (unary.inj hneg).2
        exact .neg (ih hoperand) (hoperand ▸ hnode)
  | @binary op a b _ ha hb iha ihb =>
      have hfold : Fold.binary op (normalize a) (normalize b) = .binary op a b := by
        rwa [normalize] at h
      have hfolds : Folds op (normalize a) (normalize b) (.binary op a b) :=
        hfold ▸ folds_binary op (normalize a) (normalize b)
      have hleft := size_normalize_le ha
      have hright := size_normalize_le hb
      have hlarge : ¬ (Expr.binary op a b).size ≤ (normalize a).size + (normalize b).size := by
        rw [size]
        omega
      obtain ⟨hnode, hkept⟩ := hfolds.size_le_or_eq_node.resolve_left hlarge
      obtain ⟨-, hleft, hright⟩ := binary.inj hnode
      rw [← hleft, ← hright] at hkept
      exact .binary (iha hleft.symm) (ihb hright.symm) hkept
  | call f _ ih =>
      rw [normalize_call] at h
      exact .call f.name (ih (List.cons.inj (call.inj h).2).1)

/-- A tree is left alone by `normalize` exactly if no node of it folds. -/
theorem folded_iff_normalize_eq (he : e.Standard) : Folded e ↔ normalize e = e :=
  ⟨Folded.normalize_eq, folded_of_normalize_eq he⟩

theorem folded_neg (ha : Folded a) : Folded (Fold.neg a) := by
  rcases neg_cases a with ⟨c, hc⟩ | ⟨b, rfl, hb⟩ | hnode
  · exact hc ▸ .const c
  · exact hb ▸ ha.of_mem_children (List.mem_singleton_self b)
  · exact hnode ▸ .neg ha hnode

/-- Folding folded trees leads to folded trees. -/
theorem foldClosed_folded : FoldClosed (fun _ => True) (Folded : Expr α → Prop) :=
  .of_nodes .const folded_neg (fun _ _ ha hb h => .binary ha hb h) fun f => .call f.name

/-- The derivative of a tree that rebuilding leaves as it is is such a tree as well. -/
theorem normalize_differentiate [Stack] (mode : Mode) {x : String} (he : e.Arithmetic)
    (hnormal : normalize e = e) (h : differentiate mode x e = .ok d) : normalize d = d := by
  obtain ⟨hcheck, -⟩ := differentiate_eq_ok h
  have hstandard : e.Standard := standard_of_checkCalls he hcheck
  have hfolded : Folded e := (folded_iff_normalize_eq hstandard).mpr hnormal
  exact (foldClosed_folded.differentiate hstandard (fun _ ht => hfolded.subtree ht)
    (fun _ _ => trivial) h).normalize_eq

/-- The tree of `sin(2 * x) / -x`. -/
def sineQuotient : Expr Float :=
  .binary .div (.call "sin" [.binary .mul (.const 2.0) (.var "x")]) (.unary .neg (.var "x"))

/-- The tree of `(cos(2 * x) * 2 * -x - -sin(2 * x)) / (-x) ^ 2`. -/
def sineQuotientForward : Expr Float :=
  .binary .div
    (.binary .sub
      (.binary .mul
        (.binary .mul (.call "cos" [.binary .mul (.const 2.0) (.var "x")]) (.const 2.0))
        (.unary .neg (.var "x")))
      (.unary .neg (.call "sin" [.binary .mul (.const 2.0) (.var "x")])))
    (.binary .pow (.unary .neg (.var "x")) (.const 2.0))

theorem arithmetic_sineQuotient : sineQuotient.Arithmetic :=
  .binary rfl (.call (List.forall_mem_singleton.mpr (.binary rfl (.const 2.0) (.var "x"))))
    (.neg (.var "x"))

theorem folded_sineQuotient : Folded sineQuotient :=
  .binary (.call "sin" (.binary (.const 2.0) (.var "x") rfl)) (.neg (.var "x") rfl) rfl

/-- The derivative of `sin(2 * x) / -x` has two changes of sign in its numerator, which stay
as they are. -/
theorem normalize_differentiate_sineQuotient :
    sineQuotient.Arithmetic ∧ normalize sineQuotient = sineQuotient ∧
      differentiate .forward "x" sineQuotient = .ok sineQuotientForward ∧
      normalize sineQuotientForward = sineQuotientForward := by
  have hnormal : normalize sineQuotient = sineQuotient := folded_sineQuotient.normalize_eq
  have hderivative : differentiate .forward "x" sineQuotient = .ok sineQuotientForward := by rfl
  exact ⟨arithmetic_sineQuotient, hnormal, hderivative,
    normalize_differentiate .forward arithmetic_sineQuotient hnormal hderivative⟩

end Fluxion.Calculus
