import Fluxion.Proofs.Calculus.Tape
import Fluxion.Proofs.Number.Bits

/-!
# The tape is the graph of its tree

Nodes are shared by comparing trees, and constants are compared as numbers.  Where that
tells the constants of a tree apart, every node stands for the very tree that it was
recorded for, and the tape is the tree with equal subtrees drawn once:

* every subtree has one node, and every node stands for a subtree;
* the inputs of a node are earlier nodes, those of its operands, in order;
* the last node stands for the whole tree, which can be read back from it.

`Tape.Faithful` says all of this, together with what the tape tells about the variable.
-/

namespace Fluxion.Calculus

variable {α : Type} [Scalar α]

/-! ## Constants that are told apart -/

/-- The constants of a tree are found equal to themselves and to no other of its
constants. -/
structure Discrete (e : Expr α) : Prop where
  same_self : ∀ c, Expr.Subtree (.const c) e → Scalar.same c c = true
  eq_of_same : ∀ c d, Expr.Subtree (.const c) e → Expr.Subtree (.const d) e →
    Scalar.same c d = true → c = d

namespace Discrete

variable {e t u : Expr α}

theorem sameTree_self (h : Discrete e) (ht : t.Standard) (hsub : Expr.Subtree t e) :
    sameTree t t = true := by
  induction ht with
  | const c => simpa [sameTree] using h.same_self c hsub
  | var name => simp [sameTree]
  | neg ha ih => simp [sameTree, ih hsub.operand]
  | binary hop ha hb iha ihb => simp [sameTree, iha hsub.left, ihb hsub.right]
  | call f ha ih => simp [sameTree, sameTrees, ih hsub.argument]

/-- Subtrees that share a node are equal. -/
theorem eq_of_sameTree (h : Discrete e) (ht : t.Standard) (htsub : Expr.Subtree t e)
    (husub : Expr.Subtree u e) (hsame : sameTree t u = true) : t = u := by
  induction ht generalizing u with
  | const c =>
      obtain ⟨d, rfl, hcd⟩ := sameTree_const hsame
      rw [h.eq_of_same c d htsub husub hcd]
  | var name => rw [sameTree_var hsame]
  | neg ha ih =>
      obtain ⟨a', rfl, ha'⟩ := sameTree_unary hsame
      rw [ih htsub.operand husub.operand ha']
  | binary hop ha hb iha ihb =>
      obtain ⟨u', v', rfl, hu, hv⟩ := sameTree_binary hsame
      rw [iha htsub.left husub.left hu, ihb htsub.right husub.right hv]
  | call f ha ih =>
      obtain ⟨a', rfl, ha'⟩ := sameTree_call hsame
      rw [ih htsub.argument husub.argument ha']

/-- In a tree whose constants are told apart, sharing is equality. -/
theorem eq_of_shared (h : Discrete e) (ht : t.Standard) (htsub : Expr.Subtree t e)
    (husub : Expr.Subtree u e) (hshared : Shared t u) : u = t := by
  rcases hshared with heq | hsame
  · exact heq
  · exact (h.eq_of_sameTree ht htsub husub hsame).symm

end Discrete

/-! ## What a faithful tape is -/

def Nodes.Holds (nodes : Nodes α) (i : Nat) (t : Expr α) : Prop :=
  ∃ node, nodes[i]? = some node ∧ node.expr = t

def Label.of : Expr α → Label
  | .const _ => .const
  | .var _ => .var
  | .unary op _ => .ofUnary op
  | .binary op _ _ => .ofBinary op
  | .call _ _ => .call

def calledFunction? : Expr α → Option Function
  | .call name _ => Function.ofName? name
  | _ => none

/-- The tape is the graph of the tree `e`, equal subtrees drawn once. -/
structure Tape.Faithful (tape : Tape α) (e : Expr α) : Prop where
  /-- The number of a node is its position. -/
  id_eq : ∀ (i : Nat) (node : TapeNode α), tape.nodes[i]? = some node → node.id = i
  /-- A node does what the root of its tree does. -/
  label_eq : ∀ (i : Nat) (node : TapeNode α), tape.nodes[i]? = some node →
    node.label = .of node.expr ∧ node.function? = calledFunction? node.expr
  /-- The inputs are earlier nodes, those of the operands, in order. -/
  operands : ∀ (i : Nat) (node : TapeNode α), tape.nodes[i]? = some node →
    List.Forall₂ (fun j operand => j < i ∧ tape.nodes.Holds j operand) node.inputs
      node.expr.children
  /-- No two nodes hold equal trees. -/
  distinct : ∀ i j t, tape.nodes.Holds i t → tape.nodes.Holds j t → i = j
  /-- The nodes hold the subtrees of the tree. -/
  subtree_iff : ∀ t, Expr.Subtree t e ↔ ∃ i, tape.nodes.Holds i t
  /-- A node depends on the variable if its tree mentions it. -/
  depends_eq : ∀ (i : Nat) (node : TapeNode α), tape.nodes[i]? = some node →
    node.depends = node.expr.dependsOn tape.x
  /-- The leaf is the node of the variable. -/
  leaf_eq_some_iff : ∀ i, tape.leaf? = some i ↔ tape.nodes.Holds i (.var tape.x)
  leaf_eq_none_iff : tape.leaf? = none ↔ e.dependsOn tape.x = false
  /-- The output is the last node. -/
  size_eq : tape.nodes.size = tape.output + 1
  /-- The tree can be read back from the output. -/
  unfold_eq : tape.unfold = some e

/-! ## Shared nodes -/

/-- Lists that are related member by member: each member on the right has a partner. -/
theorem exists_of_forall₂ {β γ : Type} {R : β → γ → Prop} {bs : List β} {cs : List γ}
    (h : List.Forall₂ R bs cs) {c : γ} (hc : c ∈ cs) : ∃ b ∈ bs, R b c := by
  induction h with
  | nil => cases hc
  | @cons b _ _ _ hhead _ ih =>
      rcases List.mem_cons.mp hc with rfl | hrest
      · exact ⟨b, List.mem_cons_self, hhead⟩
      · obtain ⟨b', hb', hR⟩ := ih hrest
        exact ⟨b', List.mem_cons_of_mem b hb', hR⟩

/-- The nodes of the subtrees of a tree whose constants are told apart. -/
structure Nodes.Shares (nodes : Nodes α) (x : String) (e : Expr α) : Prop where
  standard : e.Standard
  discrete : Discrete e
  wellFormed : nodes.WellFormed x
  within : ∀ (i : Nat) (m : TapeNode α), nodes[i]? = some m → Expr.Subtree m.expr e

namespace Nodes.Shares

variable {nodes : Nodes α} {x : String} {e : Expr α} {i : Nat} {node : TapeNode α}

/-- What stands for an operand is the operand. -/
theorem eq_of_shared (h : nodes.Shares x e) {t : Expr α} (ht : Expr.Subtree t e)
    (hnode : nodes[i]? = some node) (hshared : Shared t node.expr) : node.expr = t :=
  h.discrete.eq_of_shared (h.standard.subtree ht) ht (h.within i node hnode) hshared

/-- The inputs of a node are earlier nodes that stand for its operands, in order. -/
theorem operands (h : nodes.Shares x e) (hnode : nodes[i]? = some node) :
    List.Forall₂ (fun j operand => j < i ∧ nodes.Holds j operand) node.inputs
      node.expr.children := by
  have hsub := h.within i node hnode
  cases h.wellFormed.entry i node hnode with
  | const c => exact .nil
  | var name => exact .nil
  | neg ha hj hu hau => exact .cons ⟨hj, _, hu, h.eq_of_shared hsub.operand hu hau⟩ .nil
  | binary hop ha hb hj hk hu hv hau hbv =>
      exact .cons ⟨hj, _, hu, h.eq_of_shared hsub.left hu hau⟩
        (.cons ⟨hk, _, hv, h.eq_of_shared hsub.right hv hbv⟩ .nil)
  | call f ha hj hu hau => exact .cons ⟨hj, _, hu, h.eq_of_shared hsub.argument hu hau⟩ .nil

/-- No tree has two nodes. -/
theorem distinct (h : nodes.Shares x e) {j : Nat} {t : Expr α} (hi : nodes.Holds i t)
    (hj : nodes.Holds j t) : i = j := by
  -- The later of two nodes would have been found in the earlier one.
  have hearlier {i j : Nat} (hi : nodes.Holds i t) (hj : nodes.Holds j t) : ¬ i < j := by
    intro hlt
    obtain ⟨m, hm, hmt⟩ := hi
    obtain ⟨n, hn, hnt⟩ := hj
    have hsub := h.within j n hn
    have hself := h.discrete.sameTree_self (h.standard.subtree hsub) hsub
    have hdistinct := h.wellFormed.distinct i j m n hlt hm hn
    rw [hmt, ← hnt, hself] at hdistinct
    cases hdistinct
  have hij := hearlier hi hj
  have hji := hearlier hj hi
  omega

/-- With a tree its subtrees have nodes. -/
theorem holds_of_subtree (h : nodes.Shares x e) {t u : Expr α} (hsub : Expr.Subtree t u)
    (hu : ∃ i, nodes.Holds i u) : ∃ i, nodes.Holds i t := by
  induction hsub with
  | refl => exact hu
  | child hc _ ih =>
      obtain ⟨i, node, hnode, rfl⟩ := hu
      apply ih
      obtain ⟨j, -, -, hj⟩ := exists_of_forall₂ (h.operands hnode) hc
      exact ⟨j, hj⟩

/-- A node carries its position, and the label and the function of its tree. -/
theorem fits (h : nodes.Shares x e) (hnode : nodes[i]? = some node) :
    node.id = i ∧ node.label = .of node.expr ∧ node.function? = calledFunction? node.expr := by
  cases h.wellFormed.entry i node hnode with
  | const c => exact ⟨rfl, rfl, rfl⟩
  | var name => exact ⟨rfl, rfl, rfl⟩
  | neg => exact ⟨rfl, rfl, rfl⟩
  | binary => exact ⟨rfl, rfl, rfl⟩
  | call f => exact ⟨rfl, rfl, (Function.ofName?_name f).symm⟩

/-- The node that is found for the variable is the one that holds it. -/
theorem find?_var_eq_some_iff (h : nodes.Shares x e) {name : String} :
    nodes.find? (.var name) = some i ↔ nodes.Holds i (.var name) := by
  have hfound {j : Nat} (hfind : nodes.find? (.var name) = some j) :
      nodes.Holds j (.var name) := by
    obtain ⟨m, hm, hsame⟩ := Nodes.find?_eq_some hfind
    exact ⟨m, hm, sameTree_var hsame⟩
  refine ⟨hfound, fun hholds => ?_⟩
  cases hfind : nodes.find? (.var name) with
  | some j => rw [h.distinct (hfound hfind) hholds]
  | none =>
      obtain ⟨m, hm, hvar⟩ := hholds
      have hsame := Nodes.find?_eq_none hfind i m hm
      simp [hvar, sameTree] at hsame

/-- Reading a tree back from its node needs no more steps than there are nodes before. -/
theorem unfoldFrom_eq {tape : Tape α} (h : tape.nodes.Shares x e) {left : Nat} (hleft : i ≤ left)
    (hnode : tape.nodes[i]? = some node) : tape.unfoldFrom left i = some node.expr := by
  induction i using Nat.strongRecOn generalizing left node with
  | ind i ih =>
      have hsub := h.within i node hnode
      rw [Tape.unfoldFrom, hnode]
      -- Inputs are earlier nodes: for an operation a step is left, and one less is enough
      -- for each of its operands.
      cases h.wellFormed.entry i node hnode with
      | const c => rfl
      | var name => rfl
      | @neg a j u ha hj hu hau =>
          obtain ⟨below, rfl⟩ : ∃ below, left = below + 1 := ⟨left - 1, by omega⟩
          have hoperand : tape.unfoldFrom below j = some u.expr := ih j hj (by omega) hu
          rw [h.eq_of_shared hsub.operand hu hau] at hoperand
          simp [hoperand]
      | @binary op a b j k u v hop ha hb hj hk hu hv hau hbv =>
          obtain ⟨below, rfl⟩ : ∃ below, left = below + 1 := ⟨left - 1, by omega⟩
          have hfirst : tape.unfoldFrom below j = some u.expr := ih j hj (by omega) hu
          have hsecond : tape.unfoldFrom below k = some v.expr := ih k hk (by omega) hv
          rw [h.eq_of_shared hsub.left hu hau] at hfirst
          rw [h.eq_of_shared hsub.right hv hbv] at hsecond
          simp [hfirst, hsecond]
      | @call f a j u ha hj hu hau =>
          obtain ⟨below, rfl⟩ : ∃ below, left = below + 1 := ⟨left - 1, by omega⟩
          have hargument : tape.unfoldFrom below j = some u.expr := ih j hj (by omega) hu
          rw [h.eq_of_shared hsub.argument hu hau] at hargument
          simp [hargument]

/-- Nodes that end in the whole tree are a faithful tape. -/
theorem faithful (h : nodes.Shares x e) {output : Nat} (houtput : nodes.Holds output e)
    (hsize : nodes.size = output + 1) :
    Tape.Faithful ⟨nodes, output, x, nodes.find? (.var x)⟩ e where
  id_eq := fun _ _ hnode => (h.fits hnode).1
  label_eq := fun _ _ hnode => (h.fits hnode).2
  operands := fun _ _ hnode => h.operands hnode
  distinct := fun _ _ _ hi hj => h.distinct hi hj
  subtree_iff := by
    intro t
    constructor
    · intro hsub
      exact h.holds_of_subtree hsub ⟨output, houtput⟩
    · rintro ⟨i, node, hnode, rfl⟩
      exact h.within i node hnode
  depends_eq := fun _ _ hnode => h.wellFormed.depends_eq hnode
  leaf_eq_some_iff := fun _ => h.find?_var_eq_some_iff
  leaf_eq_none_iff := by
    obtain ⟨last, hlast, hlaste⟩ := houtput
    constructor
    · intro hnone
      rw [← hlaste, ← h.wellFormed.depends_eq hlast]
      exact h.wellFormed.not_depends hnone hlast
    · intro hnot
      by_contra hleaf
      obtain ⟨i, hi⟩ := Option.ne_none_iff_exists'.mp hleaf
      obtain ⟨node, hnode, hvar⟩ := h.find?_var_eq_some_iff.mp hi
      have hdepends : e.dependsOn x = true :=
        (h.within i node hnode).dependsOn (by simp [hvar, Expr.dependsOn])
      rw [hnot] at hdepends
      cases hdepends
  size_eq := hsize
  unfold_eq := by
    obtain ⟨last, hlast, hlaste⟩ := houtput
    rw [Tape.unfold, ← hlaste]
    exact unfoldFrom_eq h (Nat.le_refl output) hlast

end Nodes.Shares

/-! ## Recording succeeds -/

/-- Trees that the rules know are recorded. -/
theorem record_of_standard (x : String) {e : Expr α} (he : e.Standard) (nodes : Nodes α) :
    ∃ i nodes', Nodes.record x e nodes = .ok (i, nodes') := by
  induction he generalizing nodes with
  | const c =>
      rw [Nodes.record]
      cases nodes.find? (.const c) with
      | some i => exact ⟨i, nodes, rfl⟩
      | none => exact ⟨_, _, rfl⟩
  | var name =>
      rw [Nodes.record]
      cases nodes.find? (.var name) with
      | some i => exact ⟨i, nodes, rfl⟩
      | none => exact ⟨_, _, rfl⟩
  | neg ha ih =>
      rw [Nodes.record]
      cases nodes.find? _ with
      | some i => exact ⟨i, nodes, rfl⟩
      | none =>
          obtain ⟨i, nodes₁, hrecord⟩ := ih nodes
          exact ⟨_, _, bind_eq_ok.mpr ⟨_, hrecord, rfl⟩⟩
  | binary hop ha hb iha ihb =>
      rw [Nodes.record]
      cases nodes.find? _ with
      | some i => exact ⟨i, nodes, rfl⟩
      | none =>
          obtain ⟨i, nodes₁, hleft⟩ := iha nodes
          obtain ⟨j, nodes₂, hright⟩ := ihb nodes₁
          exact ⟨_, _, bind_eq_ok.mpr ⟨_, hleft, bind_eq_ok.mpr ⟨_, hright, rfl⟩⟩⟩
  | call f ha ih =>
      rw [Nodes.record]
      cases nodes.find? _ with
      | some i => exact ⟨i, nodes, rfl⟩
      | none =>
          obtain ⟨i, nodes₁, hrecord⟩ := ih nodes
          have hresolve : resolve f.name 1 = .ok f := by simp [resolve, Function.arity]
          exact ⟨_, _, bind_eq_ok.mpr ⟨_, hresolve, bind_eq_ok.mpr ⟨_, hrecord, rfl⟩⟩⟩

/-! ## The tape of a tree -/

/-- Recording a tree whose constants are told apart gives the nodes of its subtrees, the
last of which is that of the tree. -/
theorem shares_of_discrete (x : String) {e : Expr α} (he : e.Standard) (hdiscrete : Discrete e) :
    ∃ output nodes, Nodes.record x e #[] = .ok (output, nodes) ∧ nodes.Shares x e ∧
      nodes.Holds output e ∧ nodes.size = output + 1 := by
  obtain ⟨output, nodes, hrecord⟩ := record_of_standard x he #[]
  have hrec := recorded_of_record he (Nodes.wellFormed_empty x) hrecord
  have hshares : nodes.Shares x e := by
    refine ⟨he, hdiscrete, hrec.wellFormed, fun i m hm => ?_⟩
    rcases hrec.added i m hm with hold | hsub
    · simp at hold
    · exact hsub
  obtain ⟨last, hlast, hshared⟩ := hrec.found
  have houtput : nodes.Holds output e := ⟨last, hlast, hshares.eq_of_shared .refl hlast hshared⟩
  have hsize : nodes.size = output + 1 := hrec.last (by simp [Nodes.find?])
  exact ⟨output, nodes, hrecord, hshares, houtput, hsize⟩

/-- Where the constants are told apart, the tape of a tree is its graph. -/
theorem faithful_of_discrete (x : String) {e : Expr α} (he : e.Standard) (hdiscrete : Discrete e) :
    ∃ tape, Tape.ofExpr x e = .ok tape ∧ tape.x = x ∧ tape.Faithful e := by
  obtain ⟨output, nodes, hrecord, hshares, houtput, hsize⟩ := shares_of_discrete x he hdiscrete
  exact ⟨_, bind_eq_ok.mpr ⟨_, hrecord, rfl⟩, rfl, hshares.faithful houtput hsize⟩

/-- Numbers other than the negative zero are told apart by comparing them. -/
theorem discrete_of_numbers {e : Expr Float}
    (hconst : ∀ c, Expr.Subtree (.const c) e → c.isNaN = false ∧ c ≠ -0.0) : Discrete e where
  same_self := fun c hc => Number.beq_self_of_number (hconst c hc).1
  eq_of_same := fun c d hc hd hsame =>
    Number.float_eq_of_beq (hconst c hc).2 (hconst d hd).2 hsame

/-- A tree over the operators and functions that have rules has a tape, which is its graph:
one node for each distinct subtree, operands before the nodes that use them, and the tree
readable from the last node. -/
theorem tape_faithful (x : String) {e : Expr Float} (he : e.Standard)
    (hconst : ∀ c, Expr.Subtree (.const c) e → c.isNaN = false ∧ c ≠ -0.0) :
    ∃ tape, Tape.ofExpr x e = .ok tape ∧ tape.x = x ∧ tape.Faithful e :=
  faithful_of_discrete x he (discrete_of_numbers hconst)

/-- The tree `sin x * (sin x + 2)`, in which a call occurs twice. -/
def repeatedCall : Expr Float :=
  .binary .mul (.call Function.sin.name [.var "x"])
    (.binary .add (.call Function.sin.name [.var "x"]) (.const 2.0))

theorem repeatedCall_standard : repeatedCall.Standard :=
  .binary rfl (.call .sin (.var "x")) (.binary rfl (.call .sin (.var "x")) (.const 2.0))

theorem repeatedCall_numbers (c : Float) (hc : Expr.Subtree (.const c) repeatedCall) :
    c.isNaN = false ∧ c ≠ -0.0 := by
  obtain rfl : c = 2.0 := by simpa [repeatedCall] using hc
  decide

theorem tape_faithful_repeatedCall :
    repeatedCall.Standard ∧
      (∀ c, Expr.Subtree (.const c) repeatedCall → c.isNaN = false ∧ c ≠ -0.0) ∧
      ∃ tape, Tape.ofExpr "x" repeatedCall = .ok tape ∧ tape.x = "x" ∧
        tape.Faithful repeatedCall :=
  ⟨repeatedCall_standard, repeatedCall_numbers,
    tape_faithful "x" repeatedCall_standard repeatedCall_numbers⟩

end Fluxion.Calculus
