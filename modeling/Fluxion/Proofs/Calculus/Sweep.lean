import Fluxion.Proofs.Calculus.Slope
import Fluxion.Proofs.Calculus.Tape
import Mathlib.Algebra.BigOperators.Intervals
import Mathlib.Tactic.FieldSimp
import Mathlib.Tactic.Ring

/-!
# The backward sweep

The sweep keeps a weighted sum: the adjoints of the nodes that are still to be
visited, each times the slope of its node, together with the adjoint of the
variable once it has been passed, add up to the slope of the output.  A step
moves the summand of one node to its inputs, because the partial derivatives of
the node, each times the slope of its input, add up to the slope of the node.

* `slope_eq_sum_localPartials` is that fact about a single node.
* `total_propagate` is what a step preserves, `adjointAt_sweep` what the whole
  sweep does.
-/

namespace Fluxion.Calculus

open Finset

variable {α : Type} [Scalar α]

/-! ## Partial derivatives -/

/-- The operands of a binary node are the trees of its inputs. -/
theorem localPartials_binary {nodes : Nodes α} {op : BinaryOp} (hop : op.known = true)
    {e : Expr α} {n j k : Nat} {depends : Bool} {u v : TapeNode α} (hu : nodes[j]? = some u)
    (hv : nodes[k]? = some v) :
    localPartials nodes ⟨n, Label.ofBinary op, e, [j, k], depends, none⟩ =
      binaryPartials (Label.ofBinary op) u.expr v.expr j k u.depends v.depends := by
  cases op <;> simp_all [localPartials, Label.ofBinary, BinaryOp.known]

theorem positions_quotientPartials {u v : Expr α} {i j : Nat} {uDepends vDepends : Bool}
    {partials : List (Nat × Expr α)}
    (h : quotientPartials u v i j uDepends vDepends = .ok partials) :
    (partials.map Prod.fst).Sublist [i, j] := by
  have hpartials : (if uDepends then [(i, Fold.div Fold.one v)] else []) ++
      (if vDepends then [(j, Fold.neg (Fold.div u (Fold.pow v Fold.two)))] else []) =
        partials := by
    cases uDepends with
    | false => simpa [quotientPartials, pure, Except.pure] using h
    | true =>
        obtain ⟨_, _, hrest⟩ := bind_eq_ok.mp h
        simpa [pure, Except.pure] using hrest
  subst hpartials
  cases uDepends <;> cases vDepends <;> simp

theorem positions_powerPartials (u v : Expr α) (i j : Nat) (uDepends vDepends : Bool) :
    ((powerPartials u v i j uDepends vDepends).map Prod.fst).Sublist [i, j] := by
  rw [powerPartials]
  split_ifs <;> simp

theorem positions_binaryPartials {op : BinaryOp} (hop : op.known = true) {u v : Expr α}
    {i j : Nat} {uDepends vDepends : Bool} {partials : List (Nat × Expr α)}
    (h : binaryPartials (Label.ofBinary op) u v i j uDepends vDepends = .ok partials) :
    (partials.map Prod.fst).Sublist [i, j] := by
  cases op with
  | add =>
      cases h
      exact .refl _
  | sub =>
      cases h
      exact .refl _
  | mul =>
      cases h
      exact .refl _
  | div => exact positions_quotientPartials h
  | pow =>
      cases h
      exact positions_powerPartials u v i j uDepends vDepends
  | other s => simp [BinaryOp.known] at hop

/-- The partial derivatives of a node are by its inputs, in order. -/
theorem positions_localPartials {nodes : Nodes α} {x : String} {n : Nat} {node : TapeNode α}
    (hentry : Entry nodes x n node) {partials : List (Nat × Expr α)}
    (h : localPartials nodes node = .ok partials) :
    (partials.map Prod.fst).Sublist node.inputs := by
  cases hentry with
  | const c => simp [localPartials] at h
  | var name => simp [localPartials] at h
  | @neg a j u ha hj hu hau =>
      obtain rfl : [(j, Fold.minusOne)] = partials := by simpa [localPartials] using h
      exact .refl _
  | @binary op a b j k u v hop ha hb hj hk hu hv hau hbv =>
      rw [localPartials_binary hop hu hv] at h
      exact positions_binaryPartials hop h
  | @call f a j u ha hj hu hau =>
      simp only [localPartials, hu] at h
      obtain ⟨outer, _, hpartials⟩ := bind_eq_ok.mp h
      obtain rfl : [(j, outer)] = partials := by simpa [pure, Except.pure] using hpartials
      exact .refl _

/-- The partial derivatives of a node are by earlier nodes. -/
theorem lt_of_mem_localPartials {nodes : Nodes α} {x : String} (hw : nodes.WellFormed x)
    {n : Nat} {node : TapeNode α} (hn : nodes[n]? = some node)
    {partials : List (Nat × Expr α)} (h : localPartials nodes node = .ok partials)
    {entry : Nat × Expr α} (hentry : entry ∈ partials) : entry.1 < n := by
  have hposition : entry.1 ∈ partials.map Prod.fst := List.mem_map_of_mem hentry
  exact (hw.entry n node hn).lt_of_mem_inputs
    ((positions_localPartials (hw.entry n node hn) h).subset hposition)

variable {K : Type*} [Field K]

namespace Reading

variable (R : Reading α K) (env : String → K) (x : String)

/-! ## Slopes of nodes -/

/-- Trees that share a node are the same dual number. -/
theorem dual_eq_of_sameTree {a b : Expr α} (ha : a.Standard) (h : sameTree a b = true) :
    R.dual env x a = R.dual env x b := by
  induction ha generalizing b with
  | const c =>
      obtain ⟨d, rfl, hsame⟩ := sameTree_const h
      simp only [dual, R.value_same c d hsame]
  | var name => rw [sameTree_var h]
  | neg ha ih =>
      obtain ⟨a', rfl, ha'⟩ := sameTree_unary h
      simp only [dual, ih ha']
  | binary hop ha hb iha ihb =>
      obtain ⟨u', v', rfl, hu, hv⟩ := sameTree_binary h
      simp only [dual, iha hu, ihb hv, dependsOn_eq_of_sameTree ha hu,
        dependsOn_eq_of_sameTree hb hv]
  | call f ha ih =>
      obtain ⟨a', rfl, ha'⟩ := sameTree_call h
      simp only [dual, ih ha']

/-- Trees that share a node have the same value and slope. -/
theorem dual_eq_of_shared {a b : Expr α} (ha : a.Standard) (h : Shared a b) :
    R.dual env x a = R.dual env x b := by
  rcases h with rfl | h
  · rfl
  · exact R.dual_eq_of_sameTree env x ha h

def slopeAt (nodes : Nodes α) (i : Nat) : K :=
  match nodes[i]? with
  | some m => (R.dual env x m.expr).slope
  | none => 0

variable {x} in
theorem slopeAt_eq {nodes : Nodes α} {i : Nat} {m : TapeNode α} (h : nodes[i]? = some m) :
    R.slopeAt env x nodes i = (R.dual env x m.expr).slope := by
  simp [slopeAt, h]

variable {x} in
/-- A node that does not depend on the variable has slope zero. -/
theorem slopeAt_eq_zero {nodes : Nodes α} (hw : nodes.WellFormed x) {i : Nat}
    (h : nodes.dependsAt i = false) : R.slopeAt env x nodes i = 0 := by
  cases hm : nodes[i]? with
  | none => simp [slopeAt, hm]
  | some m =>
      have hdepends : m.expr.dependsOn x = false := by
        rw [← hw.depends_eq hm, ← Nodes.dependsAt_eq hm, h]
      rw [R.slopeAt_eq env hm, R.slope_eq_zero env x (hw.entry i m hm).standard hdepends]

/-- Partial derivatives by inputs, each times the slope of its input, added up. -/
def chainSum (nodes : Nodes α) (partials : List (Nat × Expr α)) : K :=
  (partials.map fun entry => R.eval env entry.2 * R.slopeAt env x nodes entry.1).sum

@[simp]
theorem chainSum_nil (nodes : Nodes α) : R.chainSum env x nodes [] = 0 := rfl

@[simp]
theorem chainSum_cons (nodes : Nodes α) (i : Nat) (a : Expr α)
    (rest : List (Nat × Expr α)) :
    R.chainSum env x nodes ((i, a) :: rest) =
      R.eval env a * R.slopeAt env x nodes i + R.chainSum env x nodes rest := by
  simp [chainSum]

/-- The quotient rule, split by operand.  It holds for a zero denominator as well,
where every quotient is zero. -/
theorem quotient_split (u v du dv : K) :
    1 / v * du + -(u / (v * v)) * dv = (du * v - u * dv) / v ^ 2 := by
  by_cases hv : v = 0
  · simp [hv]
  · field_simp
    ring

variable {x} in
theorem chainSum_quotientPartials {nodes : Nodes α} {u v : Expr α} {i j : Nat}
    {partials : List (Nat × Expr α)} (hu : u.Standard) (hv : v.Standard)
    (hi : R.slopeAt env x nodes i = (R.dual env x u).slope)
    (hj : R.slopeAt env x nodes j = (R.dual env x v).slope)
    (h : quotientPartials u v i j (u.dependsOn x) (v.dependsOn x) = .ok partials) :
    R.chainSum env x nodes partials =
      ((R.dual env x u).slope * R.eval env v - R.eval env u * (R.dual env x v).slope) /
        R.eval env v ^ 2 := by
  rw [← quotient_split]
  rw [quotientPartials] at h
  cases hdu : u.dependsOn x with
  | false =>
      cases hdv : v.dependsOn x with
      | false =>
          obtain rfl : [] = partials := by simpa [hdu, hdv, pure, Except.pure] using h
          simp [R.slope_eq_zero env x hu hdu, R.slope_eq_zero env x hv hdv]
      | true =>
          obtain rfl : [(j, Fold.neg (Fold.div u (Fold.pow v Fold.two)))] = partials := by
            simpa [hdu, hdv, pure, Except.pure] using h
          simp [R.slope_eq_zero env x hu hdu, R.power_two, hj]
  | true =>
      simp only [hdu, if_true] at h
      obtain ⟨_, _, hpartials⟩ := bind_eq_ok.mp h
      cases hdv : v.dependsOn x with
      | false =>
          obtain rfl : [(i, Fold.div Fold.one v)] = partials := by
            simpa [hdv, pure, Except.pure] using hpartials
          simp [R.slope_eq_zero env x hv hdv, hi]
      | true =>
          obtain rfl : [(i, Fold.div Fold.one v),
              (j, Fold.neg (Fold.div u (Fold.pow v Fold.two)))] = partials := by
            simpa [hdv, pure, Except.pure] using hpartials
          simp [R.power_two, hi, hj]

variable {x} in
theorem chainSum_powerPartials {nodes : Nodes α} {u v : Expr α} {i j : Nat}
    (hdep : (u.dependsOn x || v.dependsOn x) = true)
    (hi : R.slopeAt env x nodes i = (R.dual env x u).slope)
    (hj : R.slopeAt env x nodes j = (R.dual env x v).slope) :
    R.chainSum env x nodes (powerPartials u v i j (u.dependsOn x) (v.dependsOn x)) =
      R.powerSlope (u.dependsOn x) (v.dependsOn x) (R.dual env x u) (R.dual env x v) := by
  cases hdv : v.dependsOn x with
  | false =>
      have hdu : u.dependsOn x = true := by simpa [hdv] using hdep
      simp [powerPartials, powerSlope, hdu, hi]
  | true =>
      cases hdu : u.dependsOn x with
      | false => simp [powerPartials, powerSlope, hj]
      | true =>
          simp only [powerPartials, powerSlope, Bool.not_true, Bool.and_false, Bool.false_eq_true,
            if_false, chainSum_cons, chainSum_nil, add_zero, eval_div, eval_mul, eval_pow,
            eval_call, hi, hj, value_dual]
          ring

variable {x} in
/-- The partial derivatives of an operation, each times the slope of its operand, add up to the
slope of the node. -/
theorem chainSum_binaryPartials {nodes : Nodes α} {op : BinaryOp} {u v : Expr α} {i j : Nat}
    {partials : List (Nat × Expr α)} (hop : op.known = true) (hu : u.Standard) (hv : v.Standard)
    (hdep : (u.dependsOn x || v.dependsOn x) = true)
    (hi : R.slopeAt env x nodes i = (R.dual env x u).slope)
    (hj : R.slopeAt env x nodes j = (R.dual env x v).slope)
    (h : binaryPartials (Label.ofBinary op) u v i j (u.dependsOn x) (v.dependsOn x) =
      .ok partials) :
    R.chainSum env x nodes partials =
      R.binarySlope op (u.dependsOn x) (v.dependsOn x) (R.dual env x u) (R.dual env x v) := by
  cases op with
  | add =>
      obtain rfl : [(i, Fold.one), (j, Fold.one)] = partials := by
        simpa [binaryPartials, Label.ofBinary] using h
      simp [binarySlope, hi, hj]
  | sub =>
      obtain rfl : [(i, Fold.one), (j, Fold.minusOne)] = partials := by
        simpa [binaryPartials, Label.ofBinary] using h
      simp [binarySlope, hi, hj, sub_eq_add_neg]
  | mul =>
      obtain rfl : [(i, v), (j, u)] = partials := by
        simpa [binaryPartials, Label.ofBinary] using h
      simp [binarySlope, hi, hj, mul_comm]
  | div =>
      simpa [binarySlope] using R.chainSum_quotientPartials env hu hv hi hj h
  | pow =>
      obtain rfl : powerPartials u v i j (u.dependsOn x) (v.dependsOn x) = partials := by
        simpa [binaryPartials, Label.ofBinary] using h
      exact R.chainSum_powerPartials env hdep hi hj
  | other s => simp [BinaryOp.known] at hop

variable {x} in
/-- The chain rule at a node: its partial derivatives, each times the slope of its
input, add up to its own slope. -/
theorem slope_eq_sum_localPartials {nodes : Nodes α} (hw : nodes.WellFormed x) {n : Nat}
    {node : TapeNode α} (hn : nodes[n]? = some node) (hdep : node.depends = true)
    {partials : List (Nat × Expr α)} (h : localPartials nodes node = .ok partials) :
    R.chainSum env x nodes partials = R.slopeAt env x nodes n := by
  rw [R.slopeAt_eq env hn]
  cases hw.entry n node hn with
  | const c => simp at hdep
  | var name => simp [localPartials] at h
  | @neg a j u ha hj hu hau =>
      obtain rfl : [(j, Fold.minusOne)] = partials := by simpa [localPartials] using h
      simp [dual, R.slopeAt_eq env hu, R.dual_eq_of_shared env x ha hau]
  | @binary op a b j k u v hop ha hb hj hk hu hv hau hbv =>
      rw [localPartials_binary hop hu hv, hw.depends_eq hu, hw.depends_eq hv] at h
      simp only [hw.depends_eq hu, hw.depends_eq hv] at hdep
      rw [slope_binary, hau.dependsOn_eq ha, hbv.dependsOn_eq hb,
        R.dual_eq_of_shared env x ha hau, R.dual_eq_of_shared env x hb hbv]
      exact R.chainSum_binaryPartials env hop (hw.entry j u hu).standard
        (hw.entry k v hv).standard hdep (R.slopeAt_eq env hu) (R.slopeAt_eq env hv) h
  | @call f a j u ha hj hu hau =>
      simp only [localPartials, hu] at h
      obtain ⟨outer, houter, hpartials⟩ := bind_eq_ok.mp h
      obtain rfl : [(j, outer)] = partials := by simpa [pure, Except.pure] using hpartials
      have hdual : R.dual env x a = R.dual env x u.expr := R.dual_eq_of_shared env x ha hau
      have hvalue : R.eval env a = R.eval env u.expr := by
        rw [← R.value_dual env x a, hdual, R.value_dual]
      simp [slope_call, R.slopeAt_eq env hu, R.eval_functionDerivative env houter, hdual, hvalue]

end Reading

/-! ## Adjoints -/

namespace Reading

variable (R : Reading α K) (env : String → K)

/-- The value of the adjoint of a node, zero for a node that has none. -/
def adjointAt (adjoints : Adjoints α) (i : Nat) : K :=
  match adjoints[i]? with
  | some (some a) => R.eval env a
  | _ => 0

theorem eval_leafAdjoint (adjoints : Adjoints α) (leaf : Nat) :
    R.eval env (leafAdjoint adjoints leaf) = R.adjointAt env adjoints leaf := by
  rw [leafAdjoint, adjointAt]
  cases adjoints[leaf]? with
  | none => exact R.eval_zero env
  | some entry =>
      cases entry with
      | none => exact R.eval_zero env
      | some a => rfl

end Reading

@[simp]
theorem size_contribute (nodes : Nodes α) (adjoint : Expr α) (adjoints : Adjoints α)
    (entry : Nat × Expr α) :
    (contribute nodes adjoint adjoints entry).size = adjoints.size := by
  rw [contribute]
  dsimp only
  split_ifs
  · split <;> simp
  · rfl

namespace Reading

variable (R : Reading α K) (env : String → K)

/-- Setting an adjoint changes no other. -/
theorem adjointAt_setIfInBounds (adjoints : Adjoints α) {i : Nat} (hi : i < adjoints.size)
    (a : Expr α) (j : Nat) :
    R.adjointAt env (adjoints.setIfInBounds i (some a)) j =
      if j = i then R.eval env a else R.adjointAt env adjoints j := by
  by_cases hij : j = i
  · subst hij
    simp [adjointAt, hi]
  · simp [adjointAt, Ne.symm hij, hij]

/-- A contribution is added to the adjoint of its input, provided that the input
depends on the variable. -/
theorem adjointAt_contribute {nodes : Nodes α} (adjoint : Expr α) {adjoints : Adjoints α}
    {i : Nat} (hi : i < adjoints.size) (a : Expr α) (j : Nat) :
    R.adjointAt env (contribute nodes adjoint adjoints (i, a)) j =
      R.adjointAt env adjoints j +
        if j = i ∧ nodes.dependsAt i = true then R.eval env adjoint * R.eval env a else 0 := by
  cases hdep : nodes.dependsAt i with
  | false => simp [contribute, hdep]
  | true =>
      have hset : R.adjointAt env (contribute nodes adjoint adjoints (i, a)) j =
          if j = i then R.adjointAt env adjoints i + R.eval env adjoint * R.eval env a
          else R.adjointAt env adjoints j := by
        rw [contribute]
        simp only [hdep, if_true]
        split
        · next previous hprevious =>
            rw [R.adjointAt_setIfInBounds env adjoints hi]
            simp [adjointAt, hprevious]
        · next hnone =>
            have hzero : R.adjointAt env adjoints i = 0 := by
              rw [adjointAt]
              split
              · next previous hprevious => exact absurd hprevious (hnone previous)
              · rfl
            rw [R.adjointAt_setIfInBounds env adjoints hi, hzero, zero_add, eval_mul]
      rw [hset]
      by_cases hj : j = i
      · simp [hj]
      · simp [hj]

variable (x : String)

/-- The adjoints of the first `n` nodes, each times the slope of its node, added
up. -/
def total (nodes : Nodes α) (adjoints : Adjoints α) (n : Nat) : K :=
  ∑ j ∈ range n, R.adjointAt env adjoints j * R.slopeAt env x nodes j

variable {x} in
/-- A contribution by an input below `n` adds its product with the slope of the
input. -/
theorem total_contribute {nodes : Nodes α} (hw : nodes.WellFormed x) (adjoint : Expr α)
    {adjoints : Adjoints α} {i n : Nat} (hi : i < adjoints.size) (hin : i < n) (a : Expr α) :
    R.total env x nodes (contribute nodes adjoint adjoints (i, a)) n =
      R.total env x nodes adjoints n +
        R.eval env adjoint * (R.eval env a * R.slopeAt env x nodes i) := by
  simp only [total, R.adjointAt_contribute env adjoint hi, add_mul, sum_add_distrib, ite_mul,
    zero_mul]
  congr 1
  cases hdep : nodes.dependsAt i with
  | false => simp [R.slopeAt_eq_zero env hw hdep]
  | true => simp [hin, mul_assoc]

/-- Passing on an adjoint leaves the number of adjoints as it is. -/
@[simp]
theorem size_foldl_contribute (nodes : Nodes α) (adjoint : Expr α)
    (partials : List (Nat × Expr α)) (adjoints : Adjoints α) :
    (partials.foldl (contribute nodes adjoint) adjoints).size = adjoints.size := by
  induction partials generalizing adjoints with
  | nil => rfl
  | cons entry rest ih => rw [List.foldl_cons, ih, size_contribute]

variable {x} in
/-- All contributions of a node together add the adjoint times the sum of the
chain rule. -/
theorem total_foldl_contribute {nodes : Nodes α} (hw : nodes.WellFormed x) (adjoint : Expr α)
    {n : Nat} {partials : List (Nat × Expr α)} {adjoints : Adjoints α}
    (hn : n ≤ adjoints.size) (hpartials : ∀ entry ∈ partials, entry.1 < n) :
    R.total env x nodes (partials.foldl (contribute nodes adjoint) adjoints) n =
      R.total env x nodes adjoints n +
        R.eval env adjoint * R.chainSum env x nodes partials := by
  induction partials generalizing adjoints with
  | nil => simp
  | cons entry rest ih =>
      obtain ⟨i, a⟩ := entry
      have hi : i < n := hpartials (i, a) (by simp)
      have hrest : ∀ entry ∈ rest, entry.1 < n := fun entry hentry =>
        hpartials entry (List.mem_cons_of_mem _ hentry)
      rw [List.foldl_cons, ih (by simpa using hn) hrest,
        R.total_contribute env hw adjoint (hi.trans_le hn) hi, chainSum_cons]
      ring

/-- Contributions by inputs below `n` do not touch the other adjoints. -/
theorem adjointAt_foldl_contribute {nodes : Nodes α} (adjoint : Expr α) {n j : Nat} (hj : n ≤ j)
    {partials : List (Nat × Expr α)} {adjoints : Adjoints α}
    (hn : n ≤ adjoints.size) (hpartials : ∀ entry ∈ partials, entry.1 < n) :
    R.adjointAt env (partials.foldl (contribute nodes adjoint) adjoints) j =
      R.adjointAt env adjoints j := by
  induction partials generalizing adjoints with
  | nil => rfl
  | cons entry rest ih =>
      obtain ⟨i, a⟩ := entry
      have hi : i < n := hpartials (i, a) (by simp)
      have hrest : ∀ entry ∈ rest, entry.1 < n := fun entry hentry =>
        hpartials entry (List.mem_cons_of_mem _ hentry)
      have hji : j ≠ i := by omega
      rw [List.foldl_cons, ih (by simpa using hn) hrest,
        R.adjointAt_contribute env adjoint (hi.trans_le hn)]
      simp [hji]

end Reading

/-! ## The sweep -/

/-- What a step can do: nothing, at a node without an adjoint, without the variable
or without inputs, or pass the adjoint of the node on to its inputs. -/
theorem propagate_cases {nodes : Nodes α} {adjoints adjoints' : Adjoints α} {n : Nat}
    (h : propagate nodes adjoints n = .ok adjoints') :
    (adjoints' = adjoints ∧ ∀ node a, nodes[n]? = some node → adjoints[n]? = some (some a) →
      node.depends = false ∨ node.inputs = []) ∨
    ∃ node a partials, nodes[n]? = some node ∧ adjoints[n]? = some (some a) ∧
      node.depends = true ∧ localPartials nodes node = .ok partials ∧
      adjoints' = partials.foldl (contribute nodes a) adjoints := by
  rw [propagate] at h
  split at h
  · next node a hnode ha =>
      split_ifs at h with hskip
      · refine Or.inl ⟨(Except.ok.inj h).symm, ?_⟩
        intro node' a' hnode' _
        obtain rfl : node = node' := Option.some.inj (hnode.symm.trans hnode')
        simpa using hskip
      · obtain ⟨partials, hpartials, hfold⟩ := bind_eq_ok.mp h
        have hdepends : node.depends = true := by
          cases hd : node.depends with
          | false => simp [hd] at hskip
          | true => rfl
        exact Or.inr ⟨node, a, partials, hnode, ha, hdepends, hpartials,
          (Except.ok.inj hfold).symm⟩
  · next hnone =>
      refine Or.inl ⟨(Except.ok.inj h).symm, ?_⟩
      intro node a hnode ha
      exact absurd ha (hnone node a hnode)

/-- Nothing is passed on at the variable. -/
theorem propagate_var {nodes : Nodes α} {x : String} (hw : nodes.WellFormed x)
    {adjoints adjoints' : Adjoints α} {n : Nat} {node : TapeNode α}
    (hnode : nodes[n]? = some node) (hvar : node.expr = .var x)
    (h : propagate nodes adjoints n = .ok adjoints') : adjoints' = adjoints := by
  rcases propagate_cases h with
    ⟨heq, _⟩ | ⟨node', a, partials, hnode', _, _, hpartials, _⟩
  · exact heq
  · obtain rfl : node = node' := Option.some.inj (hnode.symm.trans hnode')
    cases hw.entry n node hnode with
    | var name => simp [localPartials] at hpartials
    | const | neg | binary | call => simp at hvar

namespace Reading

variable (R : Reading α K) (env : String → K) {x : String}

/-- A step touches the adjoints of earlier nodes only. -/
theorem adjointAt_propagate {nodes : Nodes α} (hw : nodes.WellFormed x)
    {adjoints adjoints' : Adjoints α} {n : Nat} (hn : n ≤ adjoints.size)
    (h : propagate nodes adjoints n = .ok adjoints') :
    adjoints'.size = adjoints.size ∧
      ∀ j, n ≤ j → R.adjointAt env adjoints' j = R.adjointAt env adjoints j := by
  rcases propagate_cases h with ⟨rfl, _⟩ | ⟨node, a, partials, hnode, _, _, hpartials, rfl⟩
  · exact ⟨rfl, fun _ _ => rfl⟩
  · refine ⟨size_foldl_contribute _ _ _ _, fun j hj => ?_⟩
    exact R.adjointAt_foldl_contribute env a hj hn fun entry hentry =>
      lt_of_mem_localPartials hw hnode hpartials hentry

/-- A step at a node other than the variable keeps the sum: the summand of the
node moves to its inputs. -/
theorem total_propagate {nodes : Nodes α} (hw : nodes.WellFormed x)
    {adjoints adjoints' : Adjoints α} {n : Nat} {node : TapeNode α}
    (hnode : nodes[n]? = some node) (hvar : node.expr ≠ .var x) (hn : n ≤ adjoints.size)
    (h : propagate nodes adjoints n = .ok adjoints') :
    R.total env x nodes adjoints' n = R.total env x nodes adjoints (n + 1) := by
  have hsplit : R.total env x nodes adjoints (n + 1) = R.total env x nodes adjoints n +
      R.adjointAt env adjoints n * R.slopeAt env x nodes n := sum_range_succ _ n
  rw [hsplit]
  rcases propagate_cases h with
    ⟨rfl, hskip⟩ | ⟨node', a, partials, hnode', ha, hdep, hpartials, rfl⟩
  · have hzero : R.adjointAt env adjoints' n * R.slopeAt env x nodes n = 0 := by
      cases hadjoint : adjoints'[n]? with
      | none => simp [adjointAt, hadjoint]
      | some entry =>
          cases entry with
          | none => simp [adjointAt, hadjoint]
          | some a =>
              have hdep : node.depends = false :=
                (hskip node a hnode hadjoint).elim id fun hnil =>
                  (hw.entry n node hnode).not_depends_of_inputs_eq_nil hnil hvar
              have hdepAt : nodes.dependsAt n = false := by rw [Nodes.dependsAt_eq hnode, hdep]
              rw [R.slopeAt_eq_zero env hw hdepAt, mul_zero]
    rw [hzero, add_zero]
  · obtain rfl : node = node' := Option.some.inj (hnode.symm.trans hnode')
    rw [R.total_foldl_contribute env hw a hn fun entry hentry =>
        lt_of_mem_localPartials hw hnode hpartials hentry,
      R.slope_eq_sum_localPartials env hw hnode hdep hpartials]
    simp [adjointAt, ha]

/-- The node of the variable has slope one. -/
theorem slopeAt_var {nodes : Nodes α} {leaf : Nat} {node : TapeNode α}
    (hleaf : nodes[leaf]? = some node) (hvar : node.expr = .var x) :
    R.slopeAt env x nodes leaf = 1 := by
  simp [R.slopeAt_eq env hleaf, hvar, dual]

/-- The whole sweep over the first `count` nodes turns their sum into the adjoint of
the variable; if the variable stands behind them, its adjoint stays. -/
theorem adjointAt_sweep {nodes : Nodes α} (hw : nodes.WellFormed x) {leaf : Nat}
    {node : TapeNode α} (hleaf : nodes[leaf]? = some node) (hvar : node.expr = .var x)
    {count : Nat} (hcount : count ≤ nodes.size) {adjoints adjoints' : Adjoints α}
    (hsize : adjoints.size = nodes.size) (h : sweep nodes count adjoints = .ok adjoints') :
    R.adjointAt env adjoints' leaf = R.total env x nodes adjoints count +
      if leaf < count then 0 else R.adjointAt env adjoints leaf := by
  induction count generalizing adjoints with
  | zero =>
      obtain rfl : adjoints = adjoints' := by simpa [sweep] using h
      simp [total]
  | succ count ih =>
      obtain ⟨adjoints₁, hstep, hrest⟩ := bind_eq_ok.mp h
      have hn : count ≤ adjoints.size := by omega
      obtain ⟨hsize₁, hframe⟩ := R.adjointAt_propagate env hw hn hstep
      rw [ih (by omega) (hsize₁.trans hsize) hrest]
      by_cases heq : count = leaf
      · -- The variable passes nothing on; its summand becomes its adjoint.
        subst heq
        obtain rfl : adjoints₁ = adjoints := propagate_var hw hleaf hvar hstep
        have hsplit : R.total env x nodes adjoints₁ (count + 1) =
            R.total env x nodes adjoints₁ count +
              R.adjointAt env adjoints₁ count * R.slopeAt env x nodes count :=
          sum_range_succ _ count
        rw [hsplit, R.slopeAt_var env hleaf hvar]
        simp
      · have hlt : count < nodes.size := by omega
        have hcurrent : nodes[count]? = some nodes[count] := by simp [hlt]
        have hother : nodes[count].expr ≠ .var x := fun h =>
          heq (hw.var_unique hcurrent hleaf h hvar)
        rw [R.total_propagate env hw hcurrent hother hn hstep]
        congr 1
        by_cases hbehind : leaf < count
        · rw [if_pos hbehind, if_pos (by omega)]
        · rw [if_neg hbehind, if_neg (by omega), hframe leaf (by omega)]

/-- At the start only the output has an adjoint, which is one. -/
theorem total_start {nodes : Nodes α} {output : Nat} {node : TapeNode α}
    (hnode : nodes[output]? = some node) :
    R.total env x nodes
        ((Array.replicate nodes.size none).setIfInBounds output (some Fold.one)) nodes.size =
      (R.dual env x node.expr).slope := by
  have houtput : output < nodes.size := Nodes.lt_size_of_getElem? hnode
  have hadjoint : ∀ j, R.adjointAt env
      ((Array.replicate nodes.size none).setIfInBounds output (some Fold.one)) j =
        if j = output then 1 else 0 := by
    intro j
    rw [R.adjointAt_setIfInBounds env _ (by simpa using houtput), eval_one]
    congr 1
    simp only [adjointAt, Array.getElem?_replicate]
    split_ifs <;> rfl
  simp only [total, hadjoint, ite_mul, one_mul, zero_mul, sum_ite_eq', mem_range, houtput,
    if_true, R.slopeAt_eq env hnode]

/-- The value of the derivative that a tape gives is the slope of its output. -/
theorem eval_derivative {tape : Tape α} (hw : tape.nodes.WellFormed x)
    (hleaf : tape.leaf? = tape.nodes.find? (.var x)) {node : TapeNode α}
    (hnode : tape.nodes[tape.output]? = some node) {d : Expr α}
    (h : tape.derivative = .ok d) :
    R.eval env d = (R.dual env x node.expr).slope := by
  rw [Tape.derivative] at h
  cases hfind : tape.nodes.find? (.var x) with
  | none =>
      rw [hleaf, hfind] at h
      obtain rfl : Fold.zero = d := by simpa using h
      have hdep : node.expr.dependsOn x = false := by
        rw [← hw.depends_eq hnode, hw.not_depends hfind hnode]
      rw [eval_zero, R.slope_eq_zero env x (hw.entry _ node hnode).standard hdep]
  | some leaf =>
      rw [hleaf, hfind] at h
      obtain ⟨adjoints, hsweep, hd⟩ := bind_eq_ok.mp h
      obtain rfl : leafAdjoint adjoints leaf = d := by simpa [pure, Except.pure] using hd
      obtain ⟨m, hm, hsame⟩ := Nodes.find?_eq_some hfind
      have hvar : m.expr = .var x := sameTree_var hsame
      have hleafsize : leaf < tape.nodes.size := Nodes.lt_size_of_getElem? hm
      rw [eval_leafAdjoint, R.adjointAt_sweep env hw hm hvar le_rfl (by simp) hsweep,
        if_pos hleafsize, add_zero, R.total_start env hnode]

/-- The derivative that reverse mode finds has the slope of the tree over dual
numbers as its value. -/
theorem eval_reverse {e d : Expr α} (he : e.Standard) (h : reverse x e = .ok d) :
    R.eval env d = (R.dual env x e).slope := by
  obtain ⟨tape, htape, hd⟩ := bind_eq_ok.mp h
  obtain ⟨hrecorded, hleaf⟩ := Tape.ofExpr_recorded he htape
  obtain ⟨node, hnode, hshared⟩ := hrecorded.found
  rw [R.eval_derivative env hrecorded.wellFormed hleaf hnode hd,
    R.dual_eq_of_shared env x he hshared]

/-- Both modes give derivatives of the same value: whenever they succeed, every
assignment evaluates the two trees to the same element of the field. -/
theorem eval_differentiate_forward_eq_reverse [Stack] {e d d' : Expr α} (he : e.Standard)
    (hforward : differentiate .forward x e = .ok d)
    (hreverse : differentiate .reverse x e = .ok d') : R.eval env d = R.eval env d' := by
  obtain ⟨-, hd⟩ := differentiate_eq_ok hforward
  obtain ⟨-, hd'⟩ := differentiate_eq_ok hreverse
  rw [R.eval_forward env x he hd, R.eval_reverse env he hd']

/-- The two derivatives of `abs(x) * x ^ 2` are different trees, and both have the
value `-27` at `-3`. -/
theorem eval_differentiate_forward_eq_reverse_absCube :
    letI := rationals
    absCube.Standard ∧ differentiate .forward "x" absCube = .ok absCubeForward ∧
      differentiate .reverse "x" absCube = .ok absCubeReverse ∧
      rationalReading.eval (fun _ => -3) absCubeForward =
        rationalReading.eval (fun _ => -3) absCubeReverse ∧
      rationalReading.eval (fun _ => -3) absCubeReverse = -27 := by
  let _ : Scalar ℚ := rationals
  have hforward : differentiate .forward "x" absCube = .ok absCubeForward := by cbv
  have hreverse : differentiate .reverse "x" absCube = .ok absCubeReverse := by cbv
  refine ⟨standard_absCube, hforward, hreverse, ?_, by with_unfolding_all rfl⟩
  exact rationalReading.eval_differentiate_forward_eq_reverse (fun _ => -3) standard_absCube
    hforward hreverse

end Reading

end Fluxion.Calculus
