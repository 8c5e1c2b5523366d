import Fluxion.Proofs.Calculus.Rules

/-!
# Properties of adjoints

An adjoint is built from contributions: the first one is stored, and each further one is
added to what is there.  `Kept` says what these two ways have to preserve for a property
of positions and their adjoints to hold after the whole sweep: `Kept.reverse`.

A position is read by the nodes that use it and, if it is the output, by the result.  No
two contributions come from the same reading, so a sum is made only where a position is
read twice.  Between two steps the readings are split in two: those by nodes that were
visited, which made all adjoints there are, and those by the nodes below.
-/

namespace Fluxion.Calculus

variable {α : Type} [Scalar α]

/-- The positions that the result and the nodes from a position on read. -/
def Tape.readsFrom (tape : Tape α) (first : Nat) : List Nat :=
  tape.output :: (tape.nodes.toList.drop first).flatMap TapeNode.inputs

/-- How often a position is read. -/
def Tape.uses (tape : Tape α) (i : Nat) : Nat :=
  (tape.readsFrom 0).count i

/-- A property of positions and adjoints that a contribution to an input has, alone and
together with what was there. -/
structure Kept (tape : Tape α) (x : String) (operand : Expr α → Prop)
    (P : Nat → Expr α → Prop) : Prop where
  first : ∀ {n i : Nat} {a p : Expr α}, tape.nodes.Passes x operand n i p → P n a →
    P i (Fold.mul a p)
  more : ∀ {n i : Nat} {a b p : Expr α}, tape.nodes.Passes x operand n i p → P n a →
    2 ≤ tape.uses i → P i b → P i (Fold.add b (Fold.mul a p))

/-- The adjoints that were found have the property, and belong to positions that were
read. -/
def Reached (seen : List Nat) (P : Nat → Expr α → Prop) (adjoints : Adjoints α) : Prop :=
  ∀ (i : Nat) (a : Expr α), adjoints[i]? = some (some a) → i ∈ seen ∧ P i a

section Sweep

variable {tape : Tape α} {operand : Expr α → Prop} {P : Nat → Expr α → Prop} {seen : List Nat}
  {x : String} {adjoints adjoints' : Adjoints α}

omit [Scalar α] in
theorem Reached.mono (h : Reached seen P adjoints) {seen' : List Nat} (hseen : seen ⊆ seen') :
    Reached seen' P adjoints :=
  fun i a ha => ⟨hseen (h i a ha).1, (h i a ha).2⟩

omit [Scalar α] in
theorem Reached.set (h : Reached seen P adjoints) {i : Nat} {a : Expr α} (ha : P i a) :
    Reached (i :: seen) P (adjoints.setIfInBounds i (some a)) := by
  intro k b hb
  by_cases hk : i = k
  · subst hk
    rw [Array.getElem?_setIfInBounds_self] at hb
    split_ifs at hb
    obtain rfl : a = b := by simpa using hb
    exact ⟨List.mem_cons_self, ha⟩
  · rw [Array.getElem?_setIfInBounds_ne hk] at hb
    exact ⟨List.mem_cons_of_mem i (h k b hb).1, (h k b hb).2⟩

/-- One contribution keeps the property. -/
theorem Kept.contribute (hP : Kept tape x operand P) (h : Reached seen P adjoints) {n : Nat}
    {a : Expr α} (ha : P n a) {entry : Nat × Expr α}
    (hentry : tape.nodes.Passes x operand n entry.1 entry.2)
    (huses : (entry.1 :: seen).count entry.1 ≤ tape.uses entry.1) :
    Reached (entry.1 :: seen) P (contribute tape.nodes a adjoints entry) := by
  rw [Calculus.contribute]
  dsimp only
  split_ifs
  · split
    · next previous hprevious =>
        obtain ⟨hseen, hb⟩ := h _ _ hprevious
        have hpositive : 0 < seen.count entry.1 := List.count_pos_iff.mpr hseen
        rw [List.count_cons_self] at huses
        exact h.set (hP.more hentry ha (by omega) hb)
    · exact h.set (hP.first hentry ha)
  · exact h.mono (List.subset_cons_self _ _)

/-- All contributions of a node keep the property. -/
theorem Kept.foldl_contribute (hP : Kept tape x operand P) {n : Nat} {a : Expr α} (ha : P n a)
    {partials : List (Nat × Expr α)}
    (hpartials : ∀ entry ∈ partials, tape.nodes.Passes x operand n entry.1 entry.2)
    (h : Reached seen P adjoints)
    (huses : ∀ i, (partials.map Prod.fst ++ seen).count i ≤ tape.uses i) :
    Reached (partials.map Prod.fst ++ seen) P
      (partials.foldl (Calculus.contribute tape.nodes a) adjoints) := by
  induction partials generalizing adjoints seen with
  | nil => exact h
  | cons entry rest ih =>
      obtain ⟨hentry, hrest⟩ := List.forall_mem_cons.mp hpartials
      have hperm : (rest.map Prod.fst ++ entry.1 :: seen).Perm
          ((entry :: rest).map Prod.fst ++ seen) := List.perm_middle
      have hmoved : ∀ i, (rest.map Prod.fst ++ entry.1 :: seen).count i ≤ tape.uses i :=
        fun i => hperm.count_eq i ▸ huses i
      have hone : (entry.1 :: seen).count entry.1 ≤ tape.uses entry.1 :=
        Nat.le_trans ((List.sublist_append_right _ _).count_le entry.1) (hmoved entry.1)
      rw [List.foldl_cons]
      exact (ih hrest (hP.contribute h ha hentry hone) hmoved).mono hperm.subset

omit [Scalar α] in
theorem readsFrom_count_le (tape : Tape α) (first i : Nat) :
    (tape.readsFrom first).count i ≤ tape.uses i := by
  have hsublist : (tape.readsFrom first).Sublist (tape.readsFrom 0) :=
    (((List.drop_sublist first _).flatMap _)).cons_cons _
  exact hsublist.count_le i

omit [Scalar α] in
/-- The readings from a position on are those of its node, and those behind it. -/
theorem readsFrom_perm {n : Nat} {node : TapeNode α} (hnode : tape.nodes[n]? = some node) :
    (node.inputs ++ tape.readsFrom (n + 1)).Perm (tape.readsFrom n) := by
  obtain ⟨hn, rfl⟩ := Array.getElem?_eq_some_iff.mp hnode
  have hdrop : tape.nodes.toList.drop n = tape.nodes[n] :: tape.nodes.toList.drop (n + 1) := by
    rw [List.drop_eq_getElem_cons (by simpa using hn), Array.getElem_toList]
  rw [Tape.readsFrom, Tape.readsFrom, hdrop, List.flatMap_cons]
  exact List.perm_middle

/-- One step of the sweep keeps the property. -/
theorem Kept.propagate (hP : Kept tape x operand P) (hw : tape.nodes.WellFormed x)
    (hoperand : ∀ (i : Nat) (node : TapeNode α), tape.nodes[i]? = some node → operand node.expr)
    {n : Nat} (h : Reached (tape.readsFrom (n + 1)) P adjoints)
    (hstep : propagate tape.nodes adjoints n = .ok adjoints') :
    Reached (tape.readsFrom n) P adjoints' := by
  have hsubset : tape.readsFrom (n + 1) ⊆ tape.readsFrom n := by
    rw [Tape.readsFrom, Tape.readsFrom, ← List.drop_drop]
    exact (((List.drop_sublist 1 _).flatMap _).cons_cons _).subset
  rcases propagate_cases hstep with ⟨rfl, _⟩ | ⟨node, a, partials, hnode, ha, hdepends, hpartials, rfl⟩
  · exact h.mono hsubset
  · have hpositions : (partials.map Prod.fst).Sublist node.inputs :=
      positions_localPartials (hw.entry n node hnode) hpartials
    have hreads := hpositions.append (List.Sublist.refl (tape.readsFrom (n + 1)))
    have hperm := readsFrom_perm hnode
    have huses : ∀ i, (partials.map Prod.fst ++ tape.readsFrom (n + 1)).count i ≤ tape.uses i :=
      fun i => (hreads.count_le i).trans
        (hperm.count_eq i ▸ readsFrom_count_le tape n i)
    have hpasses : ∀ entry ∈ partials, tape.nodes.Passes x operand n entry.1 entry.2 :=
      fun entry hentry => passes_of_mem_localPartials hw hoperand hnode hdepends hpartials hentry
    exact (hP.foldl_contribute (h n a ha).2 hpasses h huses).mono
      (List.Subset.trans hreads.subset hperm.subset)

/-- The whole sweep keeps the property. -/
theorem Kept.sweep (hP : Kept tape x operand P) (hw : tape.nodes.WellFormed x)
    (hoperand : ∀ (i : Nat) (node : TapeNode α), tape.nodes[i]? = some node → operand node.expr)
    {count : Nat} (h : Reached (tape.readsFrom count) P adjoints)
    (hsweep : sweep tape.nodes count adjoints = .ok adjoints') :
    Reached (tape.readsFrom 0) P adjoints' := by
  induction count generalizing adjoints with
  | zero =>
      obtain rfl := Except.ok.inj hsweep
      exact h
  | succ count ih =>
      obtain ⟨middle, hstep, hrest⟩ := bind_eq_ok.mp hsweep
      exact ih (hP.propagate hw hoperand h hstep) hrest

/-- The derivative that a tape gives is zero, or the adjoint of some position. -/
theorem Kept.derivative (hP : Kept tape x operand P) (hw : tape.nodes.WellFormed x)
    (hoperand : ∀ (i : Nat) (node : TapeNode α), tape.nodes[i]? = some node → operand node.expr)
    (hone : P tape.output Fold.one) {d : Expr α} (h : tape.derivative = .ok d) :
    d = Fold.zero ∨ ∃ i, P i d := by
  rw [Tape.derivative] at h
  split at h
  · exact .inl (Except.ok.inj h).symm
  · next leaf _ =>
      obtain ⟨adjoints, hsweep, hd⟩ := bind_eq_ok.mp h
      obtain rfl := Except.ok.inj hd
      have hnone : Reached [] P (Array.replicate tape.nodes.size none : Adjoints α) := by
        intro i a ha
        rw [Array.getElem?_replicate] at ha
        split_ifs at ha
        cases Option.some.inj ha
      have hresult : [tape.output] ⊆ tape.readsFrom tape.nodes.size :=
        List.cons_subset_cons tape.output (List.nil_subset _)
      have hall := hP.sweep hw hoperand ((hnone.set hone).mono hresult) hsweep
      rw [leafAdjoint]
      split
      · next adjoint hadjoint => exact .inr ⟨leaf, (hall leaf adjoint hadjoint).2⟩
      · exact .inl rfl

/-- The derivative of an expression is zero, or the adjoint of some position of its tape,
whose nodes stand for subtrees of the expression. -/
theorem Kept.reverse {e d : Expr α} (he : e.Standard) (htape : Tape.ofExpr x e = .ok tape)
    (hP : Kept tape x (Expr.Subtree · e) P) (hone : P tape.output Fold.one)
    (h : tape.derivative = .ok d) : d = Fold.zero ∨ ∃ i, P i d := by
  obtain ⟨hrecorded, -⟩ := Tape.ofExpr_recorded he htape
  refine hP.derivative hrecorded.wellFormed (fun i node hnode => ?_) hone h
  exact (hrecorded.added i node hnode).resolve_left (by simp)

end Sweep

end Fluxion.Calculus
