import Fluxion.Proofs.Calculus.Faults
import Fluxion.Proofs.Calculus.Sharing
import Fluxion.Session.Error

/-!
# The sweep reaches what the recursion reaches

Reverse mode skips nodes that have no adjoint, so a fault could hide behind a node that the
sweep never fills in.  It does not: a node that depends on the variable is the output or an
input of such a node, which passes its adjoint on, be it a constant zero.  `Ready` says
this of the nodes that were used so far, `Ready.propagate` is what a step preserves, and
`localPartials_of_sweep` what the whole sweep has done.

Hence both modes fail on the same trees, those with a fault: `differentiate_fails_iff`.
-/

namespace Fluxion.Calculus

open Fluxion.Expr

variable {α : Type} [Scalar α] {x : String} {e t : Expr α} {err : DerivativeError}
  {nodes : Nodes α} {adjoints adjoints' : Adjoints α} {n i output : Nat} {node : TapeNode α}

/-! ## The rule of a node -/

section Partials

variable {u v : Expr α} {j : Nat} {uDepends vDepends : Bool} {partials : List (Nat × Expr α)}

/-- The partial derivatives of a quotient fail at a denominator that is known to be zero, but only
if the numerator depends on the variable. -/
theorem quotientPartials_eq_error_iff :
    quotientPartials u v i j uDepends vDepends = .error err ↔
      uDepends = true ∧ foldsToZero v = true ∧ .zeroDenominator = err := by
  rw [quotientPartials, ← guardDenominator_eq_error_iff]
  cases uDepends with
  | false => simp [pure, Except.pure]
  | true => cases guardDenominator v <;> simp [bind, Except.bind, pure, Except.pure]

/-- An operand that depends on the variable has a partial derivative. -/
theorem mem_positions_of_quotientPartials
    (h : quotientPartials u v i j uDepends vDepends = .ok partials) {k : Nat}
    (hk : k = i ∧ uDepends = true ∨ k = j ∧ vDepends = true) : k ∈ partials.map Prod.fst := by
  have hpartials : (if uDepends then [(i, Fold.div Fold.one v)] else []) ++
      (if vDepends then [(j, Fold.neg (Fold.div u (Fold.pow v Fold.two)))] else []) =
        partials := by
    cases uDepends with
    | false => exact Except.ok.inj h
    | true =>
        obtain ⟨_, _, hrest⟩ := bind_eq_ok.mp h
        exact Except.ok.inj hrest
  subst hpartials
  rcases hk with ⟨rfl, rfl⟩ | ⟨rfl, rfl⟩ <;> simp

theorem mem_positions_of_powerPartials {k : Nat}
    (hk : k = i ∧ uDepends = true ∨ k = j ∧ vDepends = true) :
    k ∈ (powerPartials u v i j uDepends vDepends).map Prod.fst := by
  rw [powerPartials]
  rcases hk with ⟨rfl, rfl⟩ | ⟨rfl, rfl⟩
  · cases vDepends <;> simp
  · cases uDepends <;> simp

theorem mem_positions_of_binaryPartials {op : BinaryOp} (hop : op.known = true)
    (h : binaryPartials (Label.ofBinary op) u v i j uDepends vDepends = .ok partials) {k : Nat}
    (hk : k = i ∧ uDepends = true ∨ k = j ∧ vDepends = true) : k ∈ partials.map Prod.fst := by
  have hinput : k ∈ [i, j] := List.mem_pair.mpr (hk.imp And.left And.left)
  cases op with
  | add | sub | mul =>
      obtain rfl := Except.ok.inj h
      exact hinput
  | div => exact mem_positions_of_quotientPartials h hk
  | pow =>
      obtain rfl := Except.ok.inj h
      exact mem_positions_of_powerPartials hk
  | other symbol => cases hop

/-- The partial derivatives of an operation fail exactly at a fault of its node. -/
theorem binaryPartials_eq_error_iff {op : BinaryOp} (hop : op.known = true)
    (hv : v.Standard) (hdep : (u.dependsOn x || v.dependsOn x) = true) :
    binaryPartials (Label.ofBinary op) u v i j (u.dependsOn x) (v.dependsOn x) = .error err ↔
      Fault x err (.binary op u v) := by
  cases op with
  | add | sub | mul | pow => exact ⟨fun h => (by cases h), fun h => (by cases h)⟩
  | div =>
      rw [Label.ofBinary, binaryPartials, quotientPartials_eq_error_iff]
      constructor
      · rintro ⟨_, hzero, rfl⟩
        obtain ⟨c, hvalue, hsame⟩ := foldsToZero_iff.mp hzero
        exact .zeroDenominator hdep hvalue hsame
      · intro hfault
        cases hfault with
        | zeroDenominator hdep hvalue hsame =>
            rw [not_dependsOn_of_constantValue? hv hvalue, Bool.or_false] at hdep
            exact ⟨hdep, foldsToZero_iff.mpr ⟨_, hvalue, hsame⟩, rfl⟩
  | other symbol => cases hop

end Partials

namespace Nodes.Shares

theorem dependsAt_eq_dependsOn (h : nodes.Shares x e) (hi : nodes.Holds i t) :
    nodes.dependsAt i = t.dependsOn x := by
  obtain ⟨node, hnode, rfl⟩ := hi
  rw [Nodes.dependsAt_eq hnode, h.wellFormed.depends_eq hnode]

/-- The rule of an operation that depends on the variable fails at a fault, and only there. -/
theorem localPartials_eq_error_iff (h : nodes.Shares x e) (hnode : nodes[n]? = some node)
    (hdep : node.depends = true) (hinputs : node.inputs ≠ []) :
    localPartials nodes node = .error err ↔ Fault x err node.expr := by
  have hsub := h.within n node hnode
  rw [h.wellFormed.depends_eq hnode] at hdep
  cases h.wellFormed.entry n node hnode with
  | const c => exact absurd rfl hinputs
  | var name => exact absurd rfl hinputs
  | neg ha hj hu hau =>
      refine ⟨fun hfails => ?_, fun hfault => by cases hfault⟩
      simp [localPartials] at hfails
  | @binary op a b j k u v hop ha hb hj hk hu hv hau hbv =>
      have hua := h.eq_of_shared hsub.left hu hau
      have hvb := h.eq_of_shared hsub.right hv hbv
      rw [localPartials_binary hop hu hv, h.wellFormed.depends_eq hu, h.wellFormed.depends_eq hv,
        hua, hvb]
      exact binaryPartials_eq_error_iff hop hb hdep
  | @call f a j u ha hj hu hau =>
      have hua := h.eq_of_shared hsub.argument hu hau
      have hargument : a.dependsOn x = true := by
        simpa [Expr.dependsOn, dependsOnAny] using hdep
      have hpartials : localPartials nodes ⟨n, .call, .call f.name [a], [j], u.depends, some f⟩ =
          (functionDerivative f a >>= fun byArgument => .ok [(j, byArgument)]) := by
        simp only [localPartials, hu, hua]
        rfl
      rw [hpartials, fault_call_iff, ← functionDerivative_eq_error_iff (u := a), bind_eq_error]
      simp [hargument]

/-- A node passes its adjoint on to every input that depends on the variable. -/
theorem mem_positions (h : nodes.Shares x e) (hnode : nodes[n]? = some node)
    {partials : List (Nat × Expr α)} (hpartials : localPartials nodes node = .ok partials)
    (hi : i ∈ node.inputs) (hdep : nodes.dependsAt i = true) : i ∈ partials.map Prod.fst := by
  cases h.wellFormed.entry n node hnode with
  | const c => cases hi
  | var name => cases hi
  | @neg a j u ha hj hu hau =>
      obtain rfl : [(j, Fold.minusOne)] = partials := by simpa [localPartials] using hpartials
      exact hi
  | @binary op a b j k u v hop ha hb hj hk hu hv hau hbv =>
      rw [localPartials_binary hop hu hv] at hpartials
      apply mem_positions_of_binaryPartials hop hpartials
      rcases List.mem_pair.mp hi with rfl | rfl
      · exact Or.inl ⟨rfl, by rwa [Nodes.dependsAt_eq hu] at hdep⟩
      · exact Or.inr ⟨rfl, by rwa [Nodes.dependsAt_eq hv] at hdep⟩
  | @call f a j u ha hj hu hau =>
      simp only [localPartials, hu] at hpartials
      obtain ⟨outer, _, hrest⟩ := bind_eq_ok.mp hpartials
      obtain rfl := Except.ok.inj hrest
      exact hi

/-- A node that depends on the variable is used by a later one that does, unless it holds
the whole tree. -/
theorem used (h : nodes.Shares x e) (houtput : nodes.Holds output e)
    (hn : nodes.dependsAt n = true) :
    n = output ∨ ∃ m node, n < m ∧ nodes[m]? = some node ∧ node.depends = true ∧
      n ∈ node.inputs := by
  cases hnode : nodes[n]? with
  | none => simp [Nodes.dependsAt, hnode] at hn
  | some node =>
      have hholds : nodes.Holds n node.expr := ⟨node, hnode, rfl⟩
      have hdep : node.expr.dependsOn x = true := by rw [← h.dependsAt_eq_dependsOn hholds, hn]
      rcases (h.within n node hnode).eq_or_parent with heq | ⟨p, hp, hpe⟩
      · exact Or.inl (h.distinct hholds (heq ▸ houtput))
      · obtain ⟨m, parent, hparent, rfl⟩ := h.holds_of_subtree hpe ⟨output, houtput⟩
        obtain ⟨j, hj, hlt, hjholds⟩ := exists_of_forall₂ (h.operands hparent) hp
        obtain rfl := h.distinct hholds hjholds
        refine Or.inr ⟨m, parent, hlt, hparent, ?_, hj⟩
        rw [h.wellFormed.depends_eq hparent]
        exact dependsOn_of_mem_children hp hdep

end Nodes.Shares

/-! ## Adjoints that are there -/

def Adjoints.Has (adjoints : Adjoints α) (i : Nat) : Prop :=
  ∃ a, adjoints[i]? = some (some a)

omit [Scalar α] in
theorem has_setIfInBounds (h : adjoints.Has i) (j : Nat) (a : Expr α) :
    Adjoints.Has (adjoints.setIfInBounds j (some a)) i := by
  obtain ⟨b, hb⟩ := h
  by_cases hj : j = i
  · subst hj
    obtain ⟨hlt, _⟩ := Array.getElem?_eq_some_iff.mp hb
    exact ⟨a, by rw [Array.getElem?_setIfInBounds_self, if_pos hlt]⟩
  · exact ⟨b, by rw [Array.getElem?_setIfInBounds_ne hj, hb]⟩

/-- Contributions take no adjoint away. -/
theorem Adjoints.Has.contribute (h : adjoints.Has i) (a : Expr α) (entry : Nat × Expr α) :
    Adjoints.Has (contribute nodes a adjoints entry) i := by
  rw [Calculus.contribute]
  dsimp only
  split_ifs
  · split <;> exact has_setIfInBounds h _ _
  · exact h

theorem Adjoints.Has.foldl_contribute (h : adjoints.Has i) (a : Expr α)
    (partials : List (Nat × Expr α)) :
    Adjoints.Has (partials.foldl (Calculus.contribute nodes a) adjoints) i := by
  induction partials generalizing adjoints with
  | nil => exact h
  | cons entry rest ih => exact ih (h.contribute a entry)

/-- An input that depends on the variable has an adjoint once something was contributed. -/
theorem has_contribute (hi : i < adjoints.size) (hdep : nodes.dependsAt i = true)
    (a b : Expr α) : Adjoints.Has (contribute nodes a adjoints (i, b)) i := by
  simp only [contribute, hdep, if_true]
  split
  · exact ⟨_, by rw [Array.getElem?_setIfInBounds_self, if_pos hi]⟩
  · exact ⟨_, by rw [Array.getElem?_setIfInBounds_self, if_pos hi]⟩

/-- An input that some partial derivative belongs to has an adjoint afterwards. -/
theorem has_foldl_contribute (hi : i < adjoints.size) (hdep : nodes.dependsAt i = true)
    (a : Expr α) {partials : List (Nat × Expr α)} (hmem : i ∈ partials.map Prod.fst) :
    Adjoints.Has (partials.foldl (contribute nodes a) adjoints) i := by
  induction partials generalizing adjoints with
  | nil => cases hmem
  | cons entry rest ih =>
      rw [List.foldl_cons]
      rcases List.mem_cons.mp hmem with rfl | hrest
      · exact (has_contribute hi hdep a entry.2).foldl_contribute a rest
      · exact ih (by rwa [size_contribute]) hrest

/-! ## The sweep -/

/-- Every node that depends on the variable and is the output or an input of a node from
position `n` on, where those nodes depend on it as well, has its adjoint. -/
structure Ready (nodes : Nodes α) (output n : Nat) (adjoints : Adjoints α) : Prop where
  size_eq : adjoints.size = nodes.size
  has_output : adjoints.Has output
  has_input : ∀ {i m : Nat} {node : TapeNode α}, n ≤ m → nodes[m]? = some node →
    node.depends = true → i ∈ node.inputs → nodes.dependsAt i = true → adjoints.Has i

/-- The node to be visited next has its adjoint if it depends on the variable. -/
theorem Ready.has (h : Ready nodes output (n + 1) adjoints) (hs : nodes.Shares x e)
    (houtput : nodes.Holds output e) (hn : nodes.dependsAt n = true) : adjoints.Has n := by
  rcases hs.used houtput hn with rfl | ⟨m, node, hlt, hnode, hdep, hmem⟩
  · exact h.has_output
  · exact h.has_input hlt hnode hdep hmem hn

/-- A visit passes the adjoint on, so that the inputs of the node are ready as well. -/
theorem Ready.propagate (h : Ready nodes output (n + 1) adjoints) (hs : nodes.Shares x e)
    (houtput : nodes.Holds output e) (hstep : propagate nodes adjoints n = .ok adjoints') :
    Ready nodes output n adjoints' ∧
      ∀ node, nodes[n]? = some node → node.depends = true → node.inputs ≠ [] →
        ∃ partials, localPartials nodes node = .ok partials := by
  have hvisited : ∀ node, nodes[n]? = some node → node.depends = true →
      ∃ a, adjoints[n]? = some (some a) := fun node hnode hdep =>
    h.has hs houtput (by rw [Nodes.dependsAt_eq hnode, hdep])
  rcases propagate_cases hstep with ⟨rfl, hskip⟩ | ⟨visited, a, partials, hvisit, _, _, hok, rfl⟩
  · have hleaf : ∀ node, nodes[n]? = some node → node.depends = true → node.inputs = [] := by
      intro node hnode hdep
      obtain ⟨a, ha⟩ := hvisited node hnode hdep
      exact (hskip node a hnode ha).resolve_left (by simp [hdep])
    refine ⟨⟨h.size_eq, h.has_output, ?_⟩, fun node hnode hdep hinputs =>
      absurd (hleaf node hnode hdep) hinputs⟩
    intro i m node hm hnode hdep hi hidep
    rcases Nat.lt_or_eq_of_le hm with hlt | rfl
    · exact h.has_input hlt hnode hdep hi hidep
    · rw [hleaf node hnode hdep] at hi
      cases hi
  · refine ⟨⟨?_, h.has_output.foldl_contribute a partials, ?_⟩, ?_⟩
    · rw [Reading.size_foldl_contribute, h.size_eq]
    · intro i m node hm hnode hdep hi hidep
      rcases Nat.lt_or_eq_of_le hm with hlt | rfl
      · exact (h.has_input hlt hnode hdep hi hidep).foldl_contribute a partials
      · obtain rfl : visited = node := Option.some.inj (hvisit.symm.trans hnode)
        have hbound : i < nodes.size := Nat.lt_trans
          ((hs.wellFormed.entry n visited hnode).lt_of_mem_inputs hi)
          (Nodes.lt_size_of_getElem? hnode)
        exact has_foldl_contribute (h.size_eq ▸ hbound) hidep a (hs.mem_positions hnode hok hi hidep)
    · intro node hnode _ _
      obtain rfl : visited = node := Option.some.inj (hvisit.symm.trans hnode)
      exact ⟨partials, hok⟩

/-- A sweep that succeeds has found the partial derivatives of every operation below `n`
that depends on the variable. -/
theorem localPartials_of_sweep (hs : nodes.Shares x e) (houtput : nodes.Holds output e)
    (h : Ready nodes output n adjoints) (hsweep : sweep nodes n adjoints = .ok adjoints')
    (hi : i < n) (hnode : nodes[i]? = some node) (hdep : node.depends = true)
    (hinputs : node.inputs ≠ []) : ∃ partials, localPartials nodes node = .ok partials := by
  induction n generalizing adjoints with
  | zero => cases hi
  | succ n ih =>
      obtain ⟨middle, hstep, hrest⟩ := bind_eq_ok.mp hsweep
      obtain ⟨hready, hvisit⟩ := h.propagate hs houtput hstep
      rcases Nat.lt_succ_iff_lt_or_eq.mp hi with hlt | rfl
      · exact ih hready hrest hlt
      · exact hvisit node hnode hdep hinputs

/-- A sweep fails only where the rule of a node that depends on the variable fails. -/
theorem localPartials_of_sweep_error (hsweep : sweep nodes n adjoints = .error err) :
    ∃ (i : Nat) (node : TapeNode α), nodes[i]? = some node ∧ node.depends = true ∧
      node.inputs ≠ [] ∧ localPartials nodes node = .error err := by
  induction n generalizing adjoints with
  | zero => cases hsweep
  | succ n ih =>
      rcases bind_eq_error.mp hsweep with hstep | ⟨_, _, hrest⟩
      · rw [propagate] at hstep
        split at hstep
        · next node a hnode _ =>
            split_ifs at hstep with hskip
            obtain ⟨hdep, hinputs⟩ : node.depends = true ∧ node.inputs ≠ [] := by
              simpa using hskip
            exact ⟨n, node, hnode, hdep, hinputs, eq_error_of_bind_pure hstep⟩
        · cases hstep
      · exact ih hrest

/-! ## Reverse mode -/

/-- At the start only the output has been used. -/
theorem ready_start (hsize : nodes.size = output + 1) :
    Ready nodes output nodes.size
      ((Array.replicate nodes.size none).setIfInBounds output (some Fold.one)) where
  size_eq := by simp
  has_output := ⟨Fold.one, by simp [hsize]⟩
  has_input := fun hm hnode => absurd (Nodes.lt_size_of_getElem? hnode) (Nat.not_lt.mpr hm)

/-- Reverse mode fails only at a fault. -/
theorem faultIn_of_reverse (he : e.Standard) (hdiscrete : Discrete e)
    (h : reverse x e = .error err) : FaultIn x err e := by
  obtain ⟨output, nodes, hrecord, hs, houtput, hsize⟩ := shares_of_discrete x he hdiscrete
  have hderivative : Tape.derivative ⟨nodes, output, x, nodes.find? (.var x)⟩ = .error err := by
    rw [← h, reverse, Tape.ofExpr, hrecord]
    rfl
  rw [Tape.derivative] at hderivative
  split at hderivative
  · cases hderivative
  · obtain ⟨i, node, hnode, hdep, hinputs, hfails⟩ :=
      localPartials_of_sweep_error (eq_error_of_bind_pure hderivative)
    exact ⟨node.expr, hs.within i node hnode,
      (hs.localPartials_eq_error_iff hnode hdep hinputs).mp hfails⟩

/-- No fault escapes reverse mode. -/
theorem not_reverse_of_faultIn (he : e.Standard) (hdiscrete : Discrete e)
    (hfault : FaultIn x err e) (d : Expr α) : reverse x e ≠ .ok d := by
  intro h
  obtain ⟨output, nodes, hrecord, hs, houtput, hsize⟩ := shares_of_discrete x he hdiscrete
  obtain ⟨t, hsub, hfault⟩ := hfault
  have hstandard : t.Standard := he.subtree hsub
  obtain ⟨i, node, hnode, rfl⟩ := hs.holds_of_subtree hsub ⟨output, houtput⟩
  have hdep : node.depends = true := by
    rw [hs.wellFormed.depends_eq hnode, hfault.dependsOn hstandard]
  have hderivative : Tape.derivative ⟨nodes, output, x, nodes.find? (.var x)⟩ = .ok d := by
    rw [← h, reverse, Tape.ofExpr, hrecord]
    rfl
  rw [Tape.derivative] at hderivative
  split at hderivative
  · next hnone =>
      rw [hs.wellFormed.not_depends hnone hnode] at hdep
      cases hdep
  · obtain ⟨adjoints, hsweep, _⟩ := bind_eq_ok.mp hderivative
    have hinputs : node.inputs ≠ [] := by
      intro hnil
      have hchildren := hs.operands hnode
      rw [hnil] at hchildren
      exact hfault.children_ne_nil hstandard (List.forall₂_nil_left_iff.mp hchildren)
    obtain ⟨partials, hok⟩ := localPartials_of_sweep hs houtput (ready_start hsize) hsweep
      (Nodes.lt_size_of_getElem? hnode) hnode hdep hinputs
    rw [(hs.localPartials_eq_error_iff hnode hdep hinputs).mpr hfault] at hok
    cases hok

/-! ## Both modes -/

/-- A fault is reported by an error of the library. -/
theorem Fault.derivativeGrade_eq (h : Fault x err t) : Session.derivativeGrade err = .domain := by
  cases h <;> rfl

omit [Scalar α] in
/-- Only reverse mode can run out of room for the keys of its tape. -/
theorem checkLookups_eq_error_iff [Stack] {mode : Mode} :
    checkLookups mode e = .error err ↔
      (mode = .reverse ∧ Stack.lookups < e.height) ∧ err = .tooDeep := by
  rw [checkLookups]
  split_ifs with h
  · simp [h, eq_comm]
  · simp [h]

/-- A mode fails with an error that reports a fault of the tree, or for want of room. -/
theorem faultIn_of_differentiate [Stack] {mode : Mode} {x : String} {e : Expr Float}
    (he : e.Arithmetic) (hdiscrete : Discrete e) (h : differentiate mode x e = .error err) :
    FaultIn x err e ∨ err = .tooDeep ∧ ¬ FitsStack mode e := by
  rcases bind_eq_error.mp h with hcheck | ⟨_, hcheck, h⟩
  · exact (faultIn_of_checkCalls he hcheck).imp_right fun ⟨hdeep, hlt⟩ =>
      ⟨hdeep, fun hfits => absurd hfits.1 (Nat.not_le.mpr hlt)⟩
  rcases bind_eq_error.mp h with hlookups | ⟨_, -, hmode⟩
  · obtain ⟨⟨hreverse, hlt⟩, hdeep⟩ := checkLookups_eq_error_iff.mp hlookups
    exact Or.inr ⟨hdeep, fun hfits => absurd (hfits.2 hreverse) (Nat.not_le.mpr hlt)⟩
  · have hstandard : e.Standard := standard_of_checkCalls he hcheck
    cases mode with
    | forward => exact Or.inl (faultIn_of_forward hstandard hmode)
    | reverse => exact Or.inl (faultIn_of_reverse hstandard hdiscrete hmode)

/-- Where there is room for the tree, both modes fail on the trees that have a fault, whichever
fault each meets first, and with an error of the library that reports a fault of the tree. -/
theorem differentiate_fails_iff [Stack] (mode : Mode) (x : String) {e : Expr Float}
    (he : e.Arithmetic)
    (hconst : ∀ c, Subtree (.const c) e → c.isNaN = false ∧ c ≠ -0.0)
    (hfits : FitsStack mode e) :
    ((∃ err, differentiate mode x e = .error err) ↔ ∃ err, FaultIn x err e) ∧
      ∀ err, differentiate mode x e = .error err →
        FaultIn x err e ∧ Session.derivativeGrade err = .domain := by
  have hdiscrete : Discrete e := discrete_of_numbers hconst
  have hsound : ∀ err, differentiate mode x e = .error err → FaultIn x err e :=
    fun err herr => (faultIn_of_differentiate he hdiscrete herr).resolve_right
      fun hdeep => hdeep.2 hfits
  have hcomplete : ∀ err d, FaultIn x err e → differentiate mode x e ≠ .ok d := by
    intro err d hfault hok
    obtain ⟨hcheck, hmode⟩ := differentiate_eq_ok hok
    have hstandard : e.Standard := standard_of_checkCalls he hcheck
    cases mode with
    | forward =>
        obtain ⟨t, hsub, hfault⟩ := hfault
        have ht : t.Standard := hstandard.subtree hsub
        obtain ⟨dt, hdt⟩ := forward_of_subtree hstandard hsub (hfault.dependsOn ht) hmode
        exact not_forward_of_fault ht hfault dt hdt
    | reverse => exact not_reverse_of_faultIn hstandard hdiscrete hfault d hmode
  refine ⟨⟨fun ⟨err, herr⟩ => ⟨err, hsound err herr⟩, ?_⟩, fun err herr => ?_⟩
  · rintro ⟨err, hfault⟩
    cases hresult : differentiate mode x e with
    | error err' => exact ⟨err', rfl⟩
    | ok d => exact absurd hresult (hcomplete err d hfault)
  · obtain ⟨t, hsub, hroot⟩ := hsound err herr
    exact ⟨⟨t, hsub, hroot⟩, hroot.derivativeGrade_eq⟩

/-- The tree `0 * (x / (2 - 2))`: the quotient divides by zero below a product whose
derivative folds to zero in part. -/
def hiddenQuotient : Expr Float :=
  .binary .mul (.const 0.0)
    (.binary .div (.var "x") (.binary .sub (.const 2.0) (.const 2.0)))

theorem hiddenQuotient_arithmetic : hiddenQuotient.Arithmetic :=
  .binary rfl (.const 0.0)
    (.binary rfl (.var "x") (.binary rfl (.const 2.0) (.const 2.0)))

theorem hiddenQuotient_numbers (c : Float) (hc : Subtree (.const c) hiddenQuotient) :
    c.isNaN = false ∧ c ≠ -0.0 := by
  have hcases : c = 0.0 ∨ c = 2.0 := by simpa [hiddenQuotient] using hc
  rcases hcases with rfl | rfl <;> decide

theorem hiddenQuotient_fault : FaultIn "x" .zeroDenominator hiddenQuotient :=
  ⟨_, .child (List.mem_pair.mpr (Or.inr rfl)) .refl,
    .zeroDenominator rfl rfl (by decide)⟩

theorem differentiate_fails_iff_hiddenQuotient :
    (∀ mode, FitsStack mode hiddenQuotient) ∧ hiddenQuotient.Arithmetic ∧
      (∀ c, Subtree (.const c) hiddenQuotient → c.isNaN = false ∧ c ≠ -0.0) ∧
      (∃ err, differentiate .forward "x" hiddenQuotient = .error err) ∧
      ∃ err, differentiate .reverse "x" hiddenQuotient = .error err :=
  ⟨by rintro (_ | _) <;> decide, hiddenQuotient_arithmetic, hiddenQuotient_numbers,
    (differentiate_fails_iff .forward "x" hiddenQuotient_arithmetic hiddenQuotient_numbers
      (by decide)).1.mpr ⟨_, hiddenQuotient_fault⟩,
    (differentiate_fails_iff .reverse "x" hiddenQuotient_arithmetic hiddenQuotient_numbers
      (by decide)).1.mpr ⟨_, hiddenQuotient_fault⟩⟩

end Fluxion.Calculus
