import Fluxion.Calculus.Derivative
import Fluxion.Proofs.Expr.Shape
import Fluxion.Proofs.Outcome
import Mathlib.Data.Fintype.EquivFin
import Mathlib.Logic.Equiv.Basic
import Mathlib.Tactic.Common

/-!
# Renaming variables

Names of variables are compared and nothing else, so a renaming that keeps different names
apart goes through everything that differentiation does: the tests for the variable, the
rules, the search for an equal tree on the tape and the sweep.  What one run does with the
renamed tree is what the other run does with the tree, renamed.

The main statement is `differentiate_rename_eq_map`.  Since it holds for every renaming, the
derivative of a tree in one variable is one in that variable:
`eq_of_dependsOn_differentiate`.
-/

namespace Fluxion

namespace Expr

variable {α : Type}

mutual
def rename (r : String → String) : Expr α → Expr α
  | .const c => .const c
  | .var name => .var (r name)
  | .unary op a => .unary op (rename r a)
  | .binary op a b => .binary op (rename r a) (rename r b)
  | .call name args => .call name (renameList r args)

def renameList (r : String → String) : List (Expr α) → List (Expr α)
  | [] => []
  | a :: as => rename r a :: renameList r as
end

variable {r : String → String}

theorem renameList_eq_map (args : List (Expr α)) : renameList r args = args.map (rename r) := by
  induction args with
  | nil => rfl
  | cons a as ih => rw [renameList, ih, List.map_cons]

theorem children_rename (e : Expr α) : (e.rename r).children = e.children.map (rename r) := by
  cases e with
  | call name args => exact renameList_eq_map args
  | const | var | unary | binary => rfl

@[simp]
theorem length_renameList (args : List (Expr α)) : (renameList r args).length = args.length := by
  rw [renameList_eq_map, List.length_map]

mutual
theorem dependsOn_rename (hr : Function.Injective r) (x : String) :
    ∀ e : Expr α, (e.rename r).dependsOn (r x) = e.dependsOn x
  | .const _ => rfl
  | .var name => by simp [rename, dependsOn, hr.eq_iff]
  | .unary _ a => dependsOn_rename hr x a
  | .binary _ a b => by
      rw [rename, dependsOn, dependsOn, dependsOn_rename hr x a, dependsOn_rename hr x b]
  | .call _ args => dependsOnAny_renameList hr x args

theorem dependsOnAny_renameList (hr : Function.Injective r) (x : String) :
    ∀ args : List (Expr α), dependsOnAny (r x) (renameList r args) = dependsOnAny x args
  | [] => rfl
  | a :: as => by
      rw [renameList, dependsOnAny, dependsOnAny, dependsOn_rename hr x a,
        dependsOnAny_renameList hr x as]
end

mutual
theorem height_rename : ∀ e : Expr α, (e.rename r).height = e.height
  | .const _ => rfl
  | .var _ => rfl
  | .unary _ a => by rw [rename, height, height, height_rename a]
  | .binary _ a b => by rw [rename, height, height, height_rename a, height_rename b]
  | .call _ args => by rw [rename, height, height, heightList_renameList args]

theorem heightList_renameList :
    ∀ args : List (Expr α), heightList (renameList r args) = heightList args
  | [] => rfl
  | a :: as => by
      rw [renameList, heightList, heightList, height_rename a, heightList_renameList as]
end

mutual
/-- A renaming that keeps the names of a tree leaves it as it is. -/
theorem rename_eq_self : ∀ e : Expr α, (∀ y, e.dependsOn y = true → r y = y) → e.rename r = e
  | .const _, _ => rfl
  | .var name, h => by rw [rename, h name (by simp [dependsOn])]
  | .unary _ a, h => by rw [rename, rename_eq_self a h]
  | .binary _ a b, h => by
      rw [rename, rename_eq_self a fun y hy => h y (by rw [dependsOn, hy, Bool.true_or]),
        rename_eq_self b fun y hy => h y (by rw [dependsOn, hy, Bool.or_true])]
  | .call _ args, h => by rw [rename, renameList_eq_self args h]

theorem renameList_eq_self :
    ∀ args : List (Expr α), (∀ y, dependsOnAny y args = true → r y = y) → renameList r args = args
  | [], _ => rfl
  | a :: as, h => by
      rw [renameList, rename_eq_self a fun y hy => h y (by rw [dependsOnAny, hy, Bool.true_or]),
        renameList_eq_self as fun y hy => h y (by rw [dependsOnAny, hy, Bool.or_true])]
end

end Expr

namespace Calculus

open Fluxion.Expr

variable {α : Type} {r : String → String} {x : String}

/-! ## The checks -/

mutual
/-- Whether calls are admitted has nothing to do with variables. -/
theorem checkCalls_rename :
    ∀ (levels : Nat) (e : Expr α), checkCalls levels (e.rename r) = checkCalls levels e
  | 0, _ => by rw [checkCalls, checkCalls]
  | _ + 1, .const _ => rfl
  | _ + 1, .var _ => rfl
  | levels + 1, .unary _ a => checkCalls_rename levels a
  | levels + 1, .binary _ a b => by
      rw [rename, checkCalls, checkCalls, checkCalls_rename levels a, checkCalls_rename levels b]
  | levels + 1, .call name args => by
      rw [rename, checkCalls, checkCalls, length_renameList, checkCallsList_renameList levels args]

theorem checkCallsList_renameList : ∀ (levels : Nat) (args : List (Expr α)),
    checkCallsList levels (renameList r args) = checkCallsList levels args
  | _, [] => rfl
  | levels, a :: as => by
      rw [renameList, checkCallsList, checkCallsList, checkCalls_rename levels a,
        checkCallsList_renameList levels as]
end

theorem checkLookups_rename [Stack] (mode : Mode) (e : Expr α) :
    checkLookups mode (e.rename r) = checkLookups mode e := by
  rw [checkLookups, checkLookups, height_rename]

variable [Scalar α]

/-! ## Equal trees -/

mutual
theorem sameTree_rename (hr : Function.Injective r) :
    ∀ a b : Expr α, sameTree (a.rename r) (b.rename r) = sameTree a b
  | .const _, b => by cases b <;> rfl
  | .var name, b => by
      cases b with
      | var name' => simp [rename, sameTree, hr.eq_iff]
      | _ => rfl
  | .unary op a, b => by
      cases b with
      | unary op' a' => rw [rename, rename, sameTree, sameTree, sameTree_rename hr a a']
      | _ => rfl
  | .binary op a b, c => by
      cases c with
      | binary op' a' b' =>
          rw [rename, rename, sameTree, sameTree, sameTree_rename hr a a', sameTree_rename hr b b']
      | _ => rfl
  | .call name args, b => by
      cases b with
      | call name' args' =>
          rw [rename, rename, sameTree, sameTree, sameTrees_renameList hr args args']
      | _ => rfl

theorem sameTrees_renameList (hr : Function.Injective r) :
    ∀ as bs : List (Expr α), sameTrees (renameList r as) (renameList r bs) = sameTrees as bs
  | [], [] => rfl
  | [], _ :: _ => rfl
  | _ :: _, [] => rfl
  | a :: as, b :: bs => by
      rw [renameList, renameList, sameTrees, sameTrees, sameTree_rename hr a b,
        sameTrees_renameList hr as bs]
end

/-! ## Folding -/

section Fold

variable (r) (a b : Expr α)

@[simp]
theorem isConst_rename (c : α) : Fold.isConst c (a.rename r) = Fold.isConst c a := by
  cases a <;> rfl

omit [Scalar α] in
@[simp]
theorem constants?_rename : Fold.constants? (a.rename r) (b.rename r) = Fold.constants? a b := by
  cases a <;> cases b <;> rfl

omit [Scalar α] in
@[simp]
theorem rename_const (c : α) : (Expr.const c).rename r = .const c := rfl

@[simp]
theorem rename_zero : (Fold.zero : Expr α).rename r = Fold.zero := rfl

@[simp]
theorem rename_one : (Fold.one : Expr α).rename r = Fold.one := rfl

@[simp]
theorem rename_two : (Fold.two : Expr α).rename r = Fold.two := rfl

@[simp]
theorem rename_minusOne : (Fold.minusOne : Expr α).rename r = Fold.minusOne := rfl

omit [Scalar α] in
@[simp]
theorem rename_foldCall (f : Function) : (Fold.call f a).rename r = Fold.call f (a.rename r) := rfl

@[simp]
theorem rename_foldNeg : (Fold.neg a).rename r = Fold.neg (a.rename r) := by
  cases a with
  | unary op a => cases op <;> rfl
  | _ => rfl

@[simp]
theorem rename_foldAdd : (Fold.add a b).rename r = Fold.add (a.rename r) (b.rename r) := by
  rw [Fold.add, Fold.add, constants?_rename, isConst_rename, isConst_rename]
  cases Fold.constants? a b with
  | some constants => rfl
  | none => dsimp only; split_ifs <;> rfl

@[simp]
theorem rename_foldSub : (Fold.sub a b).rename r = Fold.sub (a.rename r) (b.rename r) := by
  rw [Fold.sub, Fold.sub, constants?_rename, isConst_rename, isConst_rename]
  cases Fold.constants? a b with
  | some constants => rfl
  | none => dsimp only; split_ifs <;> first | rfl | exact rename_foldNeg r b

@[simp]
theorem rename_foldMul : (Fold.mul a b).rename r = Fold.mul (a.rename r) (b.rename r) := by
  rw [Fold.mul, Fold.mul, constants?_rename]
  simp only [isConst_rename]
  cases Fold.constants? a b with
  | some constants => rfl
  | none => dsimp only; split_ifs <;> first | rfl | exact rename_foldNeg r _

@[simp]
theorem rename_foldDiv : (Fold.div a b).rename r = Fold.div (a.rename r) (b.rename r) := by
  have hnode : (Fold.divNode a b).rename r = Fold.divNode (a.rename r) (b.rename r) := by
    rw [Fold.divNode, Fold.divNode]
    simp only [isConst_rename]
    split_ifs <;> rfl
  rw [Fold.div, Fold.div, constants?_rename]
  cases Fold.constants? a b with
  | some constants => dsimp only; split_ifs <;> first | rfl | exact hnode
  | none => exact hnode

@[simp]
theorem rename_foldPow : (Fold.pow a b).rename r = Fold.pow (a.rename r) (b.rename r) := by
  rw [Fold.pow, Fold.pow, constants?_rename, isConst_rename, isConst_rename]
  cases Fold.constants? a b with
  | some constants => dsimp only; cases Scalar.power? constants.1 constants.2 <;> rfl
  | none => dsimp only; split_ifs <;> rfl

end Fold

/-! ## Rules -/

theorem constantValue?_rename : ∀ e : Expr α, constantValue? (e.rename r) = constantValue? e
  | .const _ => rfl
  | .var _ => rfl
  | .unary _ a => by rw [rename, constantValue?, constantValue?, constantValue?_rename a]
  | .binary _ a b => by
      rw [rename, constantValue?, constantValue?, constantValue?_rename a, constantValue?_rename b]
  | .call _ [a] => by
      rw [rename, renameList, renameList, constantValue?, constantValue?, constantValue?_rename a]
  | .call _ [] => rfl
  | .call _ (_ :: _ :: _) => rfl

theorem guardDenominator_rename (v : Expr α) :
    guardDenominator (v.rename r) = guardDenominator v := by
  rw [guardDenominator, guardDenominator, foldsToZero, foldsToZero, constantValue?_rename]

theorem functionDerivative_rename (f : Function) (u : Expr α) :
    functionDerivative f (u.rename r) = rename r <$> functionDerivative f u := by
  cases f <;> simp [functionDerivative]

/-! ## Forward mode -/

theorem powerRule_rename (u v du dv : Expr α) (baseDepends exponentDepends : Bool) :
    powerRule (u.rename r) (v.rename r) (du.rename r) (dv.rename r) baseDepends exponentDepends =
      (powerRule u v du dv baseDepends exponentDepends).rename r := by
  rw [powerRule, powerRule]
  split_ifs <;> simp

theorem binaryRule_rename (hr : Function.Injective r) (op : BinaryOp) (u v du dv : Expr α) :
    binaryRule (r x) op (u.rename r) (v.rename r) (du.rename r) (dv.rename r) =
      rename r <$> binaryRule x op u v du dv := by
  cases op with
  | div => simp [binaryRule, guardDenominator_rename]
  | pow => simp [binaryRule, dependsOn_rename hr, powerRule_rename]
  | _ => simp [binaryRule]

/-- Forward mode differentiates a renamed tree to the renamed derivative, or fails with the same
error. -/
theorem forward_rename (hr : Function.Injective r) (e : Expr α) :
    forward (r x) (e.rename r) = rename r <$> forward x e := by
  induction e using forward.induct x with
  | case1 c => simp [rename, forward]
  | case2 name =>
      simp only [rename, forward, beq_iff_eq, hr.eq_iff]
      split_ifs <;> rfl
  | case3 op a hdep | case4 a hdep ih | case5 a hdep symbol | case6 op u v hdep =>
      simp_all [rename, forward, dependsOn_rename hr]
  | case7 op u v hdep ihu ihv =>
      simp only [rename, forward, dependsOn_rename hr, hdep, ihu, ihv, bind_map_left,
        binaryRule_rename hr]
      simp
  | case8 name a hdep | case9 name a hdep ih =>
      simp_all [rename, renameList, forward, dependsOn_rename hr, functionDerivative_rename]
  | case10 name => simp [rename, renameList, forward]
  | case11 name a b rest hdep | case12 name a b rest hdep =>
      have hargs := dependsOnAny_renameList hr x (a :: b :: rest)
      simp_all [rename, renameList, forward]

/-! ## The tape -/

def TapeNode.rename (r : String → String) (node : TapeNode α) : TapeNode α :=
  { node with expr := node.expr.rename r }

omit [Scalar α] in
@[simp]
theorem TapeNode.depends_rename (node : TapeNode α) : (node.rename r).depends = node.depends := rfl

omit [Scalar α] in
@[simp]
theorem TapeNode.inputs_rename (node : TapeNode α) : (node.rename r).inputs = node.inputs := rfl

def Nodes.rename (r : String → String) (nodes : Nodes α) : Nodes α :=
  nodes.map (TapeNode.rename r)

/-- A renamed tree is found where the tree was. -/
theorem Nodes.find?_rename (hr : Function.Injective r) (nodes : Nodes α) (e : Expr α) :
    (nodes.rename r).find? (e.rename r) = nodes.find? e := by
  have hnode : (fun node : TapeNode α => sameTree (e.rename r) node.expr) ∘ TapeNode.rename r =
      fun node => sameTree e node.expr := funext fun node => sameTree_rename hr e node.expr
  rw [Nodes.find?, Nodes.rename, Array.findIdx?_map, hnode, Nodes.find?]

omit [Scalar α] in
theorem Nodes.dependsAt_rename (nodes : Nodes α) (i : Nat) :
    (nodes.rename r).dependsAt i = nodes.dependsAt i := by
  rw [Nodes.dependsAt, Nodes.dependsAt, Nodes.rename, Array.getElem?_map]
  cases nodes[i]? <;> rfl

omit [Scalar α] in
/-- A new node for a renamed tree is the renamed node. -/
theorem Nodes.append_rename (hr : Function.Injective r) (nodes : Nodes α) (label : Label)
    (e : Expr α) (inputs : List Nat) (function? : Option Function) :
    (nodes.rename r).append (r x) label (e.rename r) inputs function? =
      Prod.map id (Nodes.rename r) (nodes.append x label e inputs function?) := by
  have hinputs : inputs.any (nodes.rename r).dependsAt = inputs.any nodes.dependsAt :=
    congrArg inputs.any (funext nodes.dependsAt_rename)
  have hvar : ∀ name, (r name == r x) = (name == x) := fun name => by simp [hr.eq_iff]
  cases label <;> cases e <;>
    simp [Nodes.append, Nodes.rename, Expr.rename, TapeNode.rename, ← hinputs, hvar]

/-- Recording renamed trees after renamed nodes leads to the same positions and to the
renamed nodes. -/
theorem Nodes.record_rename (hr : Function.Injective r) (e : Expr α) (nodes : Nodes α) :
    record (r x) (e.rename r) (nodes.rename r) =
      Prod.map id (Nodes.rename r) <$> record x e nodes := by
  have hfound : ∀ {e : Expr α} {nodes : Nodes α} {result : Option Nat},
      nodes.find? e = result → (nodes.rename r).find? (e.rename r) = result :=
    fun h => (Nodes.find?_rename hr _ _).trans h
  have happend := fun (nodes : Nodes α) => nodes.append_rename (x := x) hr
  induction e, nodes using Nodes.record.induct with
  | case1 c nodes i hfind | case3 name nodes i hfind | case5 op a nodes i hfind
  | case7 op a b nodes i hfind | case9 name a nodes i hfind | case11 name nodes i hfind
  | case13 name a b rest nodes i hfind =>
      have hrenamed := hfound hfind
      simp_all [Expr.rename, renameList, record]
  | case2 c nodes hfind =>
      have hrenamed := hfound hfind
      have hnode := happend nodes .const (.const c) [] none
      simp_all [Expr.rename, record]
  | case4 name nodes hfind =>
      have hrenamed := hfound hfind
      have hnode := happend nodes .var (.var name) [] none
      simp_all [Expr.rename, record]
  | case6 op a nodes hfind ih =>
      have hrenamed := hfound hfind
      have hnode := fun nodes i => happend nodes (.ofUnary op) (.unary op a) [i] none
      simp_all [Expr.rename, record]
  | case8 op a b nodes hfind iha ihb =>
      have hrenamed := hfound hfind
      have hnode := fun nodes i j => happend nodes (.ofBinary op) (.binary op a b) [i, j] none
      simp_all [Expr.rename, record]
  | case10 name a nodes hfind ih =>
      have hrenamed := hfound hfind
      have hnode := fun nodes i f => happend nodes .call (.call name [a]) [i] (some f)
      simp_all [Expr.rename, renameList, record]
  | case12 name nodes hfind =>
      have hrenamed := hfound hfind
      have hnode := fun nodes f => happend nodes .call (.call name []) [] (some f)
      simp_all [Expr.rename, renameList, record]
  | case14 name a b rest nodes hfind =>
      have hrenamed := hfound hfind
      have hnode := fun nodes f => happend nodes .call (.call name (a :: b :: rest)) [] (some f)
      simp_all [Expr.rename, renameList, record]

def Tape.rename (r : String → String) (tape : Tape α) : Tape α :=
  { tape with nodes := tape.nodes.rename r, x := r tape.x }

/-- The tape of a renamed tree is the renamed tape: no two subtrees become equal. -/
theorem Tape.ofExpr_rename (hr : Function.Injective r) (e : Expr α) :
    Tape.ofExpr (r x) (e.rename r) = Tape.rename r <$> Tape.ofExpr x e := by
  have hstart : Nodes.rename r (#[] : Nodes α) = #[] := by simp [Nodes.rename]
  have hrecord := Nodes.record_rename (x := x) hr e #[]
  have hleaf := fun nodes : Nodes α => Nodes.find?_rename hr nodes (.var x)
  rw [hstart] at hrecord
  rw [Expr.rename] at hleaf
  simp [Tape.ofExpr, Tape.rename, hrecord, hleaf]

/-! ## Reverse mode -/

theorem quotientPartials_rename (u v : Expr α) (i j : Nat) (uDepends vDepends : Bool) :
    quotientPartials (u.rename r) (v.rename r) i j uDepends vDepends =
      List.map (Prod.map id (rename r)) <$> quotientPartials u v i j uDepends vDepends := by
  cases uDepends <;> cases vDepends <;> simp [quotientPartials, guardDenominator_rename]

theorem powerPartials_rename (u v : Expr α) (i j : Nat) (uDepends vDepends : Bool) :
    powerPartials (u.rename r) (v.rename r) i j uDepends vDepends =
      (powerPartials u v i j uDepends vDepends).map (Prod.map id (rename r)) := by
  cases uDepends <;> cases vDepends <;> simp [powerPartials]

theorem binaryPartials_rename (label : Label) (u v : Expr α) (i j : Nat)
    (uDepends vDepends : Bool) :
    binaryPartials label (u.rename r) (v.rename r) i j uDepends vDepends =
      List.map (Prod.map id (rename r)) <$> binaryPartials label u v i j uDepends vDepends := by
  cases label with
  | div => exact quotientPartials_rename u v i j uDepends vDepends
  | pow => exact congrArg Except.ok (powerPartials_rename u v i j uDepends vDepends)
  | _ => simp [binaryPartials]

theorem localPartials_rename (nodes : Nodes α) (node : TapeNode α) :
    localPartials (nodes.rename r) (node.rename r) =
      List.map (Prod.map id (rename r)) <$> localPartials nodes node := by
  have hnode : ∀ i, (nodes.rename r)[i]? = nodes[i]?.map (TapeNode.rename r) :=
    fun i => Array.getElem?_map
  -- one goal for each way through the labels and the operands that are there
  fun_cases localPartials nodes node
  all_goals
    simp_all [localPartials, TapeNode.rename, functionDerivative_rename, binaryPartials_rename]

def Adjoints.rename (r : String → String) (adjoints : Adjoints α) : Adjoints α :=
  adjoints.map (Option.map (Expr.rename r))

theorem contribute_rename (nodes : Nodes α) (adjoint : Expr α) (adjoints : Adjoints α)
    (entry : Nat × Expr α) :
    contribute (nodes.rename r) (adjoint.rename r) (adjoints.rename r)
      (Prod.map id (rename r) entry) = (contribute nodes adjoint adjoints entry).rename r := by
  obtain ⟨i, p⟩ := entry
  have hadjoint : (adjoints.rename r)[i]? = adjoints[i]?.map (Option.map (rename r)) :=
    Array.getElem?_map
  simp only [contribute, Prod.map, id, Nodes.dependsAt_rename, hadjoint]
  split_ifs
  · cases adjoints[i]? with
    | none => simp [Adjoints.rename]
    | some adjoint? => cases adjoint? <;> simp [Adjoints.rename]
  · rfl

theorem foldl_contribute_rename (nodes : Nodes α) (adjoint : Expr α)
    (partials : List (Nat × Expr α)) (adjoints : Adjoints α) :
    (partials.map (Prod.map id (rename r))).foldl
      (contribute (nodes.rename r) (adjoint.rename r)) (adjoints.rename r) =
      (partials.foldl (contribute nodes adjoint) adjoints).rename r := by
  induction partials generalizing adjoints with
  | nil => rfl
  | cons entry rest ih =>
      rw [List.map_cons, List.foldl_cons, List.foldl_cons, contribute_rename, ih]

/-- One step of the sweep. -/
theorem propagate_rename (nodes : Nodes α) (adjoints : Adjoints α) (i : Nat) :
    propagate (nodes.rename r) (adjoints.rename r) i =
      Adjoints.rename r <$> propagate nodes adjoints i := by
  have hnode : (nodes.rename r)[i]? = nodes[i]?.map (TapeNode.rename r) := Array.getElem?_map
  have hadjoint : (adjoints.rename r)[i]? = adjoints[i]?.map (Option.map (rename r)) :=
    Array.getElem?_map
  rw [propagate, propagate, hnode, hadjoint]
  cases nodes[i]? with
  | none => rfl
  | some node =>
      cases adjoints[i]? with
      | none => rfl
      | some adjoint? =>
          cases adjoint? with
          | none => rfl
          | some adjoint =>
              cases hskip : !node.depends || node.inputs.isEmpty <;>
                simp [hskip, localPartials_rename, foldl_contribute_rename]

/-- The whole sweep. -/
theorem sweep_rename (nodes : Nodes α) (count : Nat) (adjoints : Adjoints α) :
    sweep (nodes.rename r) count (adjoints.rename r) =
      Adjoints.rename r <$> sweep nodes count adjoints := by
  induction count generalizing adjoints with
  | zero => rfl
  | succ count ih => simp [sweep, propagate_rename, ih]

theorem leafAdjoint_rename (adjoints : Adjoints α) (leaf : Nat) :
    leafAdjoint (adjoints.rename r) leaf = (leafAdjoint adjoints leaf).rename r := by
  rw [leafAdjoint, leafAdjoint, Adjoints.rename, Array.getElem?_map]
  cases adjoints[leaf]? with
  | none => rfl
  | some adjoint? => cases adjoint? <;> rfl

theorem Tape.derivative_rename (tape : Tape α) :
    (tape.rename r).derivative = Expr.rename r <$> tape.derivative := by
  have hsize : (tape.nodes.rename r).size = tape.nodes.size := Array.size_map
  have hstart : Adjoints.rename r ((Array.replicate tape.nodes.size none).setIfInBounds
      tape.output (some (Fold.one : Expr α))) =
      (Array.replicate tape.nodes.size none).setIfInBounds tape.output (some Fold.one) := by
    simp [Adjoints.rename]
  have hsweep := sweep_rename (r := r) tape.nodes tape.nodes.size
    ((Array.replicate tape.nodes.size none).setIfInBounds tape.output (some Fold.one))
  rw [hstart] at hsweep
  rw [Tape.derivative, Tape.derivative, Tape.rename]
  dsimp only
  cases tape.leaf? with
  | none => rfl
  | some leaf => simp [hsize, hsweep, leafAdjoint_rename]

/-- Reverse mode differentiates a renamed tree to the renamed derivative, or fails with the same
error. -/
theorem reverse_rename (hr : Function.Injective r) (e : Expr α) :
    reverse (r x) (e.rename r) = rename r <$> reverse x e := by
  simp [reverse, Tape.ofExpr_rename hr, Tape.derivative_rename]

/-! ## Both modes -/

/-- The derivative of the renamed tree is the renamed derivative, and what fails for the one
fails for the other. -/
theorem differentiate_rename_eq_map [Stack] (hr : Function.Injective r) (mode : Mode) (x : String)
    (e : Expr α) :
    differentiate mode (r x) (e.rename r) = rename r <$> differentiate mode x e := by
  have hmode : derivativeBy mode (r x) (e.rename r) = rename r <$> derivativeBy mode x e := by
    cases mode with
    | forward => exact forward_rename hr e
    | reverse => exact reverse_rename hr e
  simp [differentiate, checkCalls_rename, checkLookups_rename, hmode]

/-- The derivative of a tree without other variables has no other variables. -/
theorem eq_of_dependsOn_differentiate [Stack] {mode : Mode} {e d : Expr α}
    (he : ∀ y, e.dependsOn y = true → y = x) (h : differentiate mode x e = .ok d) {y : String}
    (hy : d.dependsOn y = true) : y = x := by
  by_contra hne
  -- A name that the derivative does not have takes the place of `y`.  The tree does not
  -- change by that, and so neither does its derivative.
  obtain ⟨z, hz⟩ := Infinite.exists_notMem_finset (x :: d.variableNames).toFinset
  rw [List.mem_toFinset, List.mem_cons, not_or, variableNames, mem_variablesOnto] at hz
  have hx : Equiv.swap y z x = x := Equiv.swap_apply_of_ne_of_ne (Ne.symm hne) (Ne.symm hz.1)
  have htree : e.rename (Equiv.swap y z) = e :=
    rename_eq_self e fun name hname => by rw [he name hname, hx]
  have hrenamed := differentiate_rename_eq_map (Equiv.swap y z).injective mode x e
  rw [htree, hx, h] at hrenamed
  have hderivative : d = d.rename (Equiv.swap y z) := Except.ok.inj hrenamed
  have hmoved := dependsOn_rename (Equiv.swap y z).injective y d
  rw [← hderivative, Equiv.swap_apply_left, hy] at hmoved
  exact hz.2 (.inl hmoved)

end Calculus

end Fluxion
