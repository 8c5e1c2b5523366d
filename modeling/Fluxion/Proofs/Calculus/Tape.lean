import Fluxion.Calculus.Tape
import Fluxion.Proofs.Outcome
import Fluxion.Proofs.Expr.Shape
import Mathlib.Tactic.Common

/-!
# What a tape holds

Recording keeps one invariant: every node stands for its subtree, its inputs are
earlier nodes that stand for the operands, it depends on the variable exactly if
an operand does, and no tree is recorded a second time.

* `Entry` says what may stand at a position.
* `Nodes.WellFormed` is the invariant of the whole tape.
* `Recorded` is what one call of `Nodes.record` achieves.
-/

namespace Fluxion.Calculus

variable {α : Type} [Scalar α]

/-! ## Trees that share a node -/

theorem sameTree_const {c : α} {b : Expr α} (h : sameTree (.const c) b = true) :
    ∃ d, b = .const d ∧ Scalar.same c d = true := by
  cases b with
  | const d => exact ⟨d, rfl, by simpa [sameTree] using h⟩
  | _ => simp [sameTree] at h

theorem sameTree_var {name : String} {b : Expr α} (h : sameTree (.var name) b = true) :
    b = .var name := by
  cases b with
  | var other =>
      have hname : name = other := by simpa [sameTree] using h
      rw [hname]
  | _ => simp [sameTree] at h

theorem sameTree_unary {op : UnaryOp} {a b : Expr α} (h : sameTree (.unary op a) b = true) :
    ∃ a', b = .unary op a' ∧ sameTree a a' = true := by
  cases b with
  | unary op' a' =>
      obtain ⟨rfl, ha⟩ : op = op' ∧ sameTree a a' = true := by simpa [sameTree] using h
      exact ⟨a', rfl, ha⟩
  | _ => simp [sameTree] at h

theorem sameTree_binary {op : BinaryOp} {u v b : Expr α}
    (h : sameTree (.binary op u v) b = true) :
    ∃ u' v', b = .binary op u' v' ∧ sameTree u u' = true ∧ sameTree v v' = true := by
  cases b with
  | binary op' u' v' =>
      obtain ⟨⟨rfl, hu⟩, hv⟩ : (op = op' ∧ sameTree u u' = true) ∧ sameTree v v' = true := by
        simpa [sameTree] using h
      exact ⟨u', v', rfl, hu, hv⟩
  | _ => simp [sameTree] at h

theorem sameTree_call {name : String} {a b : Expr α}
    (h : sameTree (.call name [a]) b = true) :
    ∃ a', b = .call name [a'] ∧ sameTree a a' = true := by
  cases b with
  | call name' args =>
      match args with
      | [] => simp [sameTree, sameTrees] at h
      | [a'] =>
          obtain ⟨rfl, ha⟩ : name = name' ∧ sameTree a a' = true := by
            simpa [sameTree, sameTrees] using h
          exact ⟨a', rfl, ha⟩
      | _ :: _ :: _ => simp [sameTree, sameTrees] at h
  | _ => simp [sameTree] at h

/-- Trees that share a node have the same number of nodes. -/
theorem size_eq_of_sameTree {a b : Expr α} (ha : a.Standard) (h : sameTree a b = true) :
    a.size = b.size := by
  induction ha generalizing b with
  | const c =>
      obtain ⟨d, rfl, _⟩ := sameTree_const h
      rfl
  | var name => rw [sameTree_var h]
  | neg ha ih =>
      obtain ⟨a', rfl, ha'⟩ := sameTree_unary h
      simp only [Expr.size, ih ha']
  | binary hop ha hb iha ihb =>
      obtain ⟨u', v', rfl, hu, hv⟩ := sameTree_binary h
      simp only [Expr.size, iha hu, ihb hv]
  | call f ha ih =>
      obtain ⟨a', rfl, ha'⟩ := sameTree_call h
      simp only [Expr.size, Expr.sizeList, ih ha']

/-- Trees that share a node mention the same variables. -/
theorem dependsOn_eq_of_sameTree {x : String} {a b : Expr α} (ha : a.Standard)
    (h : sameTree a b = true) : a.dependsOn x = b.dependsOn x := by
  induction ha generalizing b with
  | const c =>
      obtain ⟨d, rfl, _⟩ := sameTree_const h
      rfl
  | var name => rw [sameTree_var h]
  | neg ha ih =>
      obtain ⟨a', rfl, ha'⟩ := sameTree_unary h
      simp only [Expr.dependsOn, ih ha']
  | binary hop ha hb iha ihb =>
      obtain ⟨u', v', rfl, hu, hv⟩ := sameTree_binary h
      simp only [Expr.dependsOn, iha hu, ihb hv]
  | call f ha ih =>
      obtain ⟨a', rfl, ha'⟩ := sameTree_call h
      simp only [Expr.dependsOn, Expr.dependsOnAny, ih ha']

/-- The tree `b` of a node stands for the tree `a`.  A constant that is not equal
to itself still stands for itself where it was recorded. -/
def Shared (a b : Expr α) : Prop :=
  b = a ∨ sameTree a b = true

/-- Trees that share a node mention the same variables. -/
theorem Shared.dependsOn_eq {x : String} {a b : Expr α} (ha : a.Standard) (h : Shared a b) :
    a.dependsOn x = b.dependsOn x := by
  rcases h with rfl | h
  · rfl
  · exact dependsOn_eq_of_sameTree ha h

/-! ## The invariant -/

/-- What may stand at position `i` of a tape, under the number `i`: a leaf, or an
operation whose inputs are earlier nodes that stand for its operands. -/
inductive Entry (nodes : Nodes α) (x : String) (i : Nat) : TapeNode α → Prop where
  | const (c : α) : Entry nodes x i ⟨i, .const, .const c, [], false, none⟩
  | var (name : String) : Entry nodes x i ⟨i, .var, .var name, [], name == x, none⟩
  | neg {a : Expr α} {j : Nat} {u : TapeNode α} (ha : a.Standard) (hj : j < i)
      (hu : nodes[j]? = some u) (hau : Shared a u.expr) :
      Entry nodes x i ⟨i, .neg, .unary .neg a, [j], u.depends, none⟩
  | binary {op : BinaryOp} {a b : Expr α} {j k : Nat} {u v : TapeNode α}
      (hop : op.known = true) (ha : a.Standard) (hb : b.Standard) (hj : j < i) (hk : k < i)
      (hu : nodes[j]? = some u) (hv : nodes[k]? = some v)
      (hau : Shared a u.expr) (hbv : Shared b v.expr) :
      Entry nodes x i
        ⟨i, Label.ofBinary op, .binary op a b, [j, k], u.depends || v.depends, none⟩
  | call (f : Function) {a : Expr α} {j : Nat} {u : TapeNode α} (ha : a.Standard) (hj : j < i)
      (hu : nodes[j]? = some u) (hau : Shared a u.expr) :
      Entry nodes x i ⟨i, .call, .call f.name [a], [j], u.depends, some f⟩

theorem Entry.standard {nodes : Nodes α} {x : String} {i : Nat} {node : TapeNode α}
    (h : Entry nodes x i node) : node.expr.Standard := by
  cases h with
  | const c => exact .const c
  | var name => exact .var name
  | neg ha => exact .neg ha
  | binary hop ha hb => exact .binary hop ha hb
  | call f ha => exact .call f ha

theorem Entry.lt_of_mem_inputs {nodes : Nodes α} {x : String} {i j : Nat} {node : TapeNode α}
    (h : Entry nodes x i node) (hj : j ∈ node.inputs) : j < i := by
  cases h with
  | const c => cases hj
  | var name => cases hj
  | neg ha hj' => exact List.mem_singleton.mp hj ▸ hj'
  | binary hop ha hb hleft hright =>
      rcases List.mem_pair.mp hj with rfl | rfl
      · exact hleft
      · exact hright
  | call f ha hj' => exact List.mem_singleton.mp hj ▸ hj'

/-- A leaf depends on the variable only if it is the variable. -/
theorem Entry.not_depends_of_inputs_eq_nil {nodes : Nodes α} {x : String} {i : Nat}
    {node : TapeNode α} (h : Entry nodes x i node) (hnil : node.inputs = [])
    (hvar : node.expr ≠ .var x) : node.depends = false := by
  cases h with
  | const c => rfl
  | var name =>
      have hname : name ≠ x := by simpa using hvar
      simpa using hname
  | neg => simp at hnil
  | binary => simp at hnil
  | call => simp at hnil

/-- Later nodes do not touch the earlier ones. -/
def Nodes.Extends (nodes nodes' : Nodes α) : Prop :=
  ∀ (i : Nat) (m : TapeNode α), nodes[i]? = some m → nodes'[i]? = some m

/-- Appending nodes leaves the earlier entries valid. -/
theorem Entry.mono {nodes nodes' : Nodes α} {x : String} {i : Nat} {node : TapeNode α}
    (hext : nodes.Extends nodes') (h : Entry nodes x i node) : Entry nodes' x i node := by
  cases h with
  | const c => exact .const c
  | var name => exact .var name
  | neg ha hj hu hau => exact .neg ha hj (hext _ _ hu) hau
  | binary hop ha hb hj hk hu hv hau hbv =>
      exact .binary hop ha hb hj hk (hext _ _ hu) (hext _ _ hv) hau hbv
  | call f ha hj hu hau => exact .call f ha hj (hext _ _ hu) hau

/-- Every position holds an entry, and no later node repeats an earlier tree. -/
structure Nodes.WellFormed (nodes : Nodes α) (x : String) : Prop where
  entry : ∀ (i : Nat) (m : TapeNode α), nodes[i]? = some m → Entry nodes x i m
  distinct : ∀ (i j : Nat) (m n : TapeNode α), i < j →
    nodes[i]? = some m → nodes[j]? = some n → sameTree n.expr m.expr = false

namespace Nodes

theorem wellFormed_empty (x : String) : WellFormed (#[] : Nodes α) x where
  entry := by simp
  distinct := by simp

omit [Scalar α] in
theorem Extends.refl (nodes : Nodes α) : nodes.Extends nodes := fun _ _ h => h

omit [Scalar α] in
theorem Extends.trans {nodes nodes' nodes'' : Nodes α} (h : nodes.Extends nodes')
    (h' : nodes'.Extends nodes'') : nodes.Extends nodes'' :=
  fun i m hm => h' i m (h i m hm)

omit [Scalar α] in
theorem lt_size_of_getElem? {nodes : Nodes α} {i : Nat} {m : TapeNode α}
    (h : nodes[i]? = some m) : i < nodes.size :=
  (Array.getElem?_eq_some_iff.mp h).1

omit [Scalar α] in
/-- A position of the longer tape holds an old node or the new one. -/
theorem getElem?_push_cases {nodes : Nodes α} {node m : TapeNode α} {i : Nat}
    (h : (nodes.push node)[i]? = some m) :
    nodes[i]? = some m ∨ (i = nodes.size ∧ m = node) := by
  rw [Array.getElem?_push] at h
  split_ifs at h with hi
  · exact Or.inr ⟨hi, (Option.some.inj h).symm⟩
  · exact Or.inl h

omit [Scalar α] in
theorem extends_push (nodes : Nodes α) (node : TapeNode α) :
    nodes.Extends (nodes.push node) := by
  intro i m h
  have hi : i ≠ nodes.size := Nat.ne_of_lt (lt_size_of_getElem? h)
  rw [Array.getElem?_push, if_neg hi, h]

/-- A new entry whose tree has no node yet keeps the invariant. -/
theorem WellFormed.push {nodes : Nodes α} {x : String} {node : TapeNode α}
    (hw : nodes.WellFormed x) (hentry : Entry nodes x nodes.size node)
    (hnew : ∀ (i : Nat) (m : TapeNode α), nodes[i]? = some m →
      sameTree node.expr m.expr = false) :
    WellFormed (nodes.push node) x where
  entry := by
    intro i m hm
    rcases getElem?_push_cases hm with hm | ⟨rfl, rfl⟩
    · exact (hw.entry i m hm).mono (extends_push nodes node)
    · exact hentry.mono (extends_push nodes m)
  distinct := by
    intro i j m n hij hm hn
    rcases getElem?_push_cases hn with hn | ⟨rfl, rfl⟩
    · have hj : j < nodes.size := lt_size_of_getElem? hn
      rcases getElem?_push_cases hm with hm | ⟨rfl, rfl⟩
      · exact hw.distinct i j m n hij hm hn
      · omega
    · rcases getElem?_push_cases hm with hm | ⟨rfl, rfl⟩
      · exact hnew i m hm
      · omega

omit [Scalar α] in
/-- A new operation depends on the variable if one of its inputs does. -/
theorem append_of_ne_var {nodes : Nodes α} {x : String} {label : Label} (hlabel : label ≠ .var)
    (e : Expr α) (inputs : List Nat) (function? : Option Function) :
    nodes.append x label e inputs function? =
      (nodes.size,
        nodes.push ⟨nodes.size, label, e, inputs, inputs.any nodes.dependsAt, function?⟩) := by
  cases label <;> simp_all [append]

/-- The node that is found stands for the tree. -/
theorem find?_eq_some {nodes : Nodes α} {e : Expr α} {i : Nat}
    (h : nodes.find? e = some i) :
    ∃ m, nodes[i]? = some m ∧ sameTree e m.expr = true := by
  obtain ⟨hi, hm, _⟩ := Array.findIdx?_eq_some_iff_getElem.mp h
  exact ⟨nodes[i], by simp [hi], hm⟩

theorem find?_eq_none {nodes : Nodes α} {e : Expr α} (h : nodes.find? e = none)
    (i : Nat) (m : TapeNode α) (hm : nodes[i]? = some m) : sameTree e m.expr = false := by
  have hmem : m ∈ nodes := Array.mem_of_getElem? hm
  simpa using Array.findIdx?_eq_none_iff.mp h m hmem

omit [Scalar α] in
theorem dependsAt_eq {nodes : Nodes α} {i : Nat} {m : TapeNode α} (h : nodes[i]? = some m) :
    nodes.dependsAt i = m.depends := by
  simp [dependsAt, h]

end Nodes

/-! ## Recording -/

/-- What recording the tree `e` achieves: the invariant is kept, the old nodes
stay, the position that is returned stands for `e` and is the last one if `e` had no
node, and what was added are subtrees of `e`. -/
structure Recorded (x : String) (e : Expr α) (nodes : Nodes α) (i : Nat)
    (nodes' : Nodes α) : Prop where
  wellFormed : nodes'.WellFormed x
  kept : nodes.Extends nodes'
  found : ∃ m, nodes'[i]? = some m ∧ Shared e m.expr
  last : nodes.find? e = none → nodes'.size = i + 1
  added : ∀ (k : Nat) (m : TapeNode α), nodes'[k]? = some m → nodes[k]? = some m ∨
    Expr.Subtree m.expr e

/-- A tree that has a node is not recorded again. -/
theorem record_of_find? {x : String} {e : Expr α} {nodes : Nodes α} {i : Nat}
    (h : nodes.find? e = some i) : Nodes.record x e nodes = .ok (i, nodes) := by
  match e with
  | .const _ | .var _ | .unary _ _ | .binary _ _ _ => rw [Nodes.record, h]
  | .call _ [] | .call _ [_] | .call _ (_ :: _ :: _) => rw [Nodes.record, h]

/-- A tree that has a node is recorded by doing nothing. -/
theorem recorded_of_find? {x : String} {e : Expr α} {nodes nodes' : Nodes α} {i j : Nat}
    (hw : nodes.WellFormed x) (hfind : nodes.find? e = some j)
    (h : Nodes.record x e nodes = .ok (i, nodes')) : Recorded x e nodes i nodes' := by
  rw [record_of_find? hfind] at h
  obtain ⟨rfl, rfl⟩ : j = i ∧ nodes = nodes' := by simpa using h
  obtain ⟨m, hm, hsame⟩ := Nodes.find?_eq_some hfind
  exact ⟨hw, .refl nodes, ⟨m, hm, Or.inr hsame⟩, fun hnone => by simp [hnone] at hfind,
    fun _ _ hm => Or.inl hm⟩

/-- A tree is below the root of another one. -/
def Below (t e : Expr α) : Prop :=
  ∃ c ∈ e.children, Expr.Subtree t c

omit [Scalar α] in
theorem Below.size_lt {t e : Expr α} (h : Below t e) : t.size < e.size := by
  obtain ⟨c, hc, hsub⟩ := h
  exact Nat.lt_of_le_of_lt hsub.size_le (Expr.size_lt_of_mem_children hc)

omit [Scalar α] in
theorem Below.subtree {t e : Expr α} (h : Below t e) : Expr.Subtree t e := by
  obtain ⟨c, hc, hsub⟩ := h
  exact .child hc hsub

/-- What recording an operand adds is below the root of the tree. -/
theorem Recorded.added_below {x : String} {a e : Expr α} {nodes nodes' : Nodes α} {i : Nat}
    (h : Recorded x a nodes i nodes') (ha : a ∈ e.children) (k : Nat) (m : TapeNode α)
    (hm : nodes'[k]? = some m) : nodes[k]? = some m ∨ Below m.expr e :=
  (h.added k m hm).imp_right fun hsub => ⟨a, ha, hsub⟩

/-- Once the operands are recorded, a tree that had no node before gets one at the
end. -/
theorem recorded_push {x : String} {nodes nodes' : Nodes α} {node : TapeNode α}
    (hnone : nodes.find? node.expr = none) (hw : nodes'.WellFormed x)
    (hkept : nodes.Extends nodes')
    (hadded : ∀ (k : Nat) (m : TapeNode α), nodes'[k]? = some m → nodes[k]? = some m ∨
      Below m.expr node.expr)
    (hentry : Entry nodes' x nodes'.size node) :
    Recorded x node.expr nodes nodes'.size (nodes'.push node) where
  wellFormed := by
    apply hw.push hentry
    intro k m hm
    rcases hadded k m hm with hold | hbelow
    · exact Nodes.find?_eq_none hnone k m hold
    · by_contra hsame
      have hsize := size_eq_of_sameTree hentry.standard (by simpa using hsame)
      exact Nat.ne_of_gt hbelow.size_lt hsize
  kept := hkept.trans (Nodes.extends_push nodes' node)
  found := ⟨node, by simp, Or.inl rfl⟩
  last := fun _ => Array.size_push _
  added := by
    intro k m hm
    rcases Nodes.getElem?_push_cases hm with hm | ⟨rfl, rfl⟩
    · exact (hadded k m hm).imp_right Below.subtree
    · exact Or.inr .refl

theorem ofBinary_ne_var {op : BinaryOp} (hop : op.known = true) : Label.ofBinary op ≠ .var := by
  cases op <;> simp_all [Label.ofBinary, BinaryOp.known]

/-- Recording succeeds only with the invariant kept, one case for each kind of
node; the operands are recorded first. -/
theorem recorded_of_record {x : String} {e : Expr α} (he : e.Standard) {nodes nodes' : Nodes α}
    {i : Nat} (hw : nodes.WellFormed x) (h : Nodes.record x e nodes = .ok (i, nodes')) :
    Recorded x e nodes i nodes' := by
  induction he generalizing nodes i nodes' with
  | const c =>
      cases hfind : nodes.find? (.const c) with
      | some j => exact recorded_of_find? hw hfind h
      | none =>
          simp only [Nodes.record, hfind, Nodes.append, Except.ok.injEq, Prod.mk.injEq] at h
          obtain ⟨rfl, rfl⟩ := h
          exact recorded_push hfind hw (.refl nodes) (fun _ _ hm => Or.inl hm) (.const c)
  | var name =>
      cases hfind : nodes.find? (.var name) with
      | some j => exact recorded_of_find? hw hfind h
      | none =>
          simp only [Nodes.record, hfind, Nodes.append, Except.ok.injEq, Prod.mk.injEq] at h
          obtain ⟨rfl, rfl⟩ := h
          exact recorded_push hfind hw (.refl nodes) (fun _ _ hm => Or.inl hm) (.var name)
  | @neg a ha ih =>
      cases hfind : nodes.find? (.unary .neg a) with
      | some j => exact recorded_of_find? hw hfind h
      | none =>
          simp only [Nodes.record, hfind] at h
          obtain ⟨⟨j, nodes₁⟩, hrecord, hpush⟩ := bind_eq_ok.mp h
          have hrec := ih hw hrecord
          obtain ⟨u, hu, hau⟩ := hrec.found
          obtain ⟨rfl, rfl⟩ : nodes₁.size = i ∧
              nodes₁.push ⟨nodes₁.size, .neg, .unary .neg a, [j], u.depends, none⟩ = nodes' := by
            simpa [Nodes.append_of_ne_var, Label.ofUnary, Nodes.dependsAt_eq hu, pure,
              Except.pure] using hpush
          exact recorded_push hfind hrec.wellFormed hrec.kept
            (hrec.added_below List.mem_cons_self)
            (.neg ha (Nodes.lt_size_of_getElem? hu) hu hau)
  | @binary op a b hop ha hb iha ihb =>
      cases hfind : nodes.find? (.binary op a b) with
      | some j => exact recorded_of_find? hw hfind h
      | none =>
          simp only [Nodes.record, hfind] at h
          obtain ⟨⟨j, nodes₁⟩, hleft, hrest⟩ := bind_eq_ok.mp h
          obtain ⟨⟨k, nodes₂⟩, hright, hpush⟩ := bind_eq_ok.mp hrest
          have hreca := iha hw hleft
          have hrecb := ihb hreca.wellFormed hright
          obtain ⟨u, hu₁, hau⟩ := hreca.found
          have hu : nodes₂[j]? = some u := hrecb.kept j u hu₁
          obtain ⟨v, hv, hbv⟩ := hrecb.found
          obtain ⟨rfl, rfl⟩ : nodes₂.size = i ∧
              nodes₂.push ⟨nodes₂.size, Label.ofBinary op, .binary op a b, [j, k],
                u.depends || v.depends, none⟩ = nodes' := by
            simpa [Nodes.append_of_ne_var (ofBinary_ne_var hop), Nodes.dependsAt_eq hu,
              Nodes.dependsAt_eq hv, pure, Except.pure] using hpush
          have hadded : ∀ (l : Nat) (m : TapeNode α), nodes₂[l]? = some m →
              nodes[l]? = some m ∨ Below m.expr (.binary op a b) := by
            intro l m hm
            have hmem : b ∈ (Expr.binary op a b).children := List.mem_pair.mpr (Or.inr rfl)
            rcases hrecb.added_below hmem l m hm with hm | hbelow
            · exact hreca.added_below List.mem_cons_self l m hm
            · exact Or.inr hbelow
          exact recorded_push hfind hrecb.wellFormed (hreca.kept.trans hrecb.kept) hadded
            (.binary hop ha hb (Nodes.lt_size_of_getElem? hu) (Nodes.lt_size_of_getElem? hv)
              hu hv hau hbv)
  | @call f a ha ih =>
      cases hfind : nodes.find? (.call f.name [a]) with
      | some j => exact recorded_of_find? hw hfind h
      | none =>
          simp only [Nodes.record, hfind] at h
          obtain ⟨g, hg, hrest⟩ := bind_eq_ok.mp h
          obtain rfl : f = g := by simpa [resolve, Function.arity] using hg
          obtain ⟨⟨j, nodes₁⟩, hrecord, hpush⟩ := bind_eq_ok.mp hrest
          have hrec := ih hw hrecord
          obtain ⟨u, hu, hau⟩ := hrec.found
          obtain ⟨rfl, rfl⟩ : nodes₁.size = i ∧
              nodes₁.push ⟨nodes₁.size, .call, .call f.name [a], [j], u.depends, some f⟩ = nodes' := by
            simpa [Nodes.append_of_ne_var, Nodes.dependsAt_eq hu, pure, Except.pure] using hpush
          exact recorded_push hfind hrec.wellFormed hrec.kept
            (hrec.added_below List.mem_cons_self)
            (.call f ha (Nodes.lt_size_of_getElem? hu) hu hau)

/-! ## Finished tapes -/

/-- A node depends on the variable exactly if its tree mentions it. -/
theorem Nodes.WellFormed.depends_eq {nodes : Nodes α} {x : String} (hw : nodes.WellFormed x)
    {i : Nat} {m : TapeNode α} (hm : nodes[i]? = some m) : m.depends = m.expr.dependsOn x := by
  induction i using Nat.strongRecOn generalizing m with
  | ind i ih =>
      cases hw.entry i m hm with
      | const c => rfl
      | var name => rfl
      | neg ha hj hu hau => exact (ih _ hj hu).trans (hau.dependsOn_eq ha).symm
      | binary hop ha hb hj hk hu hv hau hbv =>
          simp only [Expr.dependsOn, ih _ hj hu, ih _ hk hv, hau.dependsOn_eq ha,
            hbv.dependsOn_eq hb]
      | call f ha hj hu hau =>
          simp only [Expr.dependsOn, Expr.dependsOnAny, Bool.or_false, ih _ hj hu,
            hau.dependsOn_eq ha]

/-- The variable of the tape has a single node. -/
theorem Nodes.WellFormed.var_unique {nodes : Nodes α} {x : String} (hw : nodes.WellFormed x)
    {i j : Nat} {m n : TapeNode α} (hm : nodes[i]? = some m) (hn : nodes[j]? = some n)
    {name : String} (hmx : m.expr = .var name) (hnx : n.expr = .var name) : i = j := by
  rcases Nat.lt_trichotomy i j with hlt | heq | hgt
  · have hdistinct := hw.distinct i j m n hlt hm hn
    simp [hmx, hnx, sameTree] at hdistinct
  · exact heq
  · have hdistinct := hw.distinct j i n m hgt hn hm
    simp [hmx, hnx, sameTree] at hdistinct

/-- If no node stands for the variable, no node depends on it. -/
theorem Nodes.WellFormed.not_depends {nodes : Nodes α} {x : String} (hw : nodes.WellFormed x)
    (hleaf : nodes.find? (.var x) = none) {i : Nat} {m : TapeNode α}
    (hm : nodes[i]? = some m) : m.depends = false := by
  induction i using Nat.strongRecOn generalizing m with
  | ind i ih =>
      have hvar := find?_eq_none hleaf i m hm
      cases hw.entry i m hm with
      | const c => rfl
      | var name =>
          have hname : x ≠ name := by simpa [sameTree] using hvar
          simpa using hname.symm
      | neg ha hj hu hau => simp only [ih _ hj hu]
      | binary hop ha hb hj hk hu hv hau hbv => simp only [ih _ hj hu, ih _ hk hv, Bool.or_false]
      | call f ha hj hu hau => simp only [ih _ hj hu]

/-- The tape of an expression keeps the invariant, and its output stands for the
expression. -/
theorem Tape.ofExpr_recorded {x : String} {e : Expr α} (he : e.Standard) {tape : Tape α}
    (h : Tape.ofExpr x e = .ok tape) :
    Recorded x e #[] tape.output tape.nodes ∧ tape.leaf? = tape.nodes.find? (.var x) := by
  obtain ⟨⟨output, nodes⟩, hrecord, htape⟩ := bind_eq_ok.mp h
  obtain rfl : (⟨nodes, output, x, nodes.find? (.var x)⟩ : Tape α) = tape := by
    simpa [pure, Except.pure] using htape
  exact ⟨recorded_of_record he (Nodes.wellFormed_empty x) hrecord, rfl⟩

end Fluxion.Calculus
