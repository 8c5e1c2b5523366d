import Fluxion.Proofs.Code.ForwardNesting
import Mathlib.Order.Interval.Finset.Nat

/-!
# The nesting of code by reverse mode

In reverse mode neither products nor sums have weights, apart from the sign of what is
subtracted.  But the adjoint of a node that is read twice is a sum, and the contributions
that are made from it put this sum in parentheses.  So the code gains a pair for each such
node, and the nodes are counted: `Tape.sharedFrom`.

The invariant of the sweep is `AdjointNests`.
-/

namespace Fluxion.Calculus

open Fluxion.Code Fluxion.Number

variable {α : Type}

/-- How many positions from one on are read twice. -/
def Tape.sharedFrom (tape : Tape α) (first : Nat) : Nat :=
  ((Finset.Ico first tape.nodes.size).filter fun i => 2 ≤ tape.uses i).card

theorem sharedFrom_anti (tape : Tape α) {i n : Nat} (h : i ≤ n) :
    tape.sharedFrom n ≤ tape.sharedFrom i :=
  Finset.card_le_card (Finset.filter_subset_filter _ (Finset.Ico_subset_Ico_left h))

/-- A position that is read twice counts up to there, and no longer behind it. -/
theorem sharedFrom_lt (tape : Tape α) {i n : Nat} (h : i < n) (hi : i < tape.nodes.size)
    (huses : 2 ≤ tape.uses i) : tape.sharedFrom n < tape.sharedFrom i := by
  refine Finset.card_lt_card ((Finset.ssubset_iff_of_subset
    (Finset.filter_subset_filter _ (Finset.Ico_subset_Ico_left h.le))).mpr ⟨i, ?_, ?_⟩)
  · simp [hi, huses]
  · simp [Nat.not_le.mpr h]

section Reverse

variable {x : String} {e d t a p adjoint : Expr Float} {m : Nat}

/-- Where a partial derivative may be -1, the operand weighs less than the tree. -/
theorem Partial.pathWeight_le {operand : Expr Float → Prop} (h : Partial x operand t a p)
    (hunsigned : ∀ c, operand (.const c) → Binary64.Unsigned c) :
    (Fold.isConst Scalar.minusOne p = false ∧ pathWeight .reverse a ≤ pathWeight .reverse t) ∨
      pathWeight .reverse a + 1 ≤ pathWeight .reverse t := by
  have hfactor : ∀ u, operand u → Fold.isConst Scalar.minusOne u = false := by
    intro u hu
    cases u with
    | const c => exact (hunsigned c hu).beq_minusOne
    | _ => rfl
  have hone : Fold.isConst Scalar.minusOne (Fold.one : Expr Float) = false :=
    Binary64.Unsigned.beq_minusOne (Or.inr ⟨4503599627370496, -52, by decide⟩)
  cases h with
  | neg a => exact .inr (by rw [pathWeight])
  | addLeft a b | subLeft a b =>
      rw [pathWeight, Mode.weights]
      exact .inl ⟨hone, by omega⟩
  | addRight a b =>
      rw [pathWeight, Mode.weights]
      exact .inl ⟨hone, by omega⟩
  | subRight a b =>
      rw [pathWeight, Mode.weights]
      exact .inr (by omega)
  | mulLeft hv =>
      rw [pathWeight, Mode.weights]
      exact .inl ⟨hfactor _ hv, by omega⟩
  | mulRight hu =>
      rw [pathWeight, Mode.weights]
      exact .inl ⟨hfactor _ hu, by omega⟩
  | numerator _ hv | denominator _ hu hv | base hu hv | exponent hu hv | power _ hu hv =>
      rw [pathWeight, Mode.weights]
      exact .inr (by omega)
  | call _ hu hp => exact .inr (by rw [pathWeight_call])

/-- A contribution nests no deeper than the adjoint that it is made from, apart from what
the operand weighs less than the tree. -/
theorem Partial.nesting_contribution {limit : Nat} (h : Partial x (Expr.Subtree · e) t a p)
    (hunsigned : ∀ c, Expr.Subtree (.const c) e → Binary64.Unsigned c)
    (hlimit : nesting 3 e + 4 + pathWeight .reverse a ≤ limit)
    (hadjoint : nesting 1 adjoint + pathWeight .reverse t ≤ limit) :
    nesting 1 (Fold.mul adjoint p) + pathWeight .reverse a ≤ limit := by
  have hp : nesting 3 p ≤ nesting 3 e + 4 := h.nesting_le fun u hu => nesting_le_of_subtree hu
  have hplace : nesting 3 adjoint ≤ nesting 1 adjoint + 1 :=
    nesting_le_succ adjoint (by decide) (by decide)
  have hproduct : nesting 1 (Fold.mul adjoint p) ≤ limit - pathWeight .reverse a := by
    rcases h.pathWeight_le hunsigned with ⟨hsign, hweight⟩ | hweight
    · exact nesting_foldMul (by omega) (by omega) (by omega) fun h => absurd (hsign ▸ h) (by simp)
    · exact nesting_foldMul (by omega) (by omega) (by omega) fun _ => by omega
  omega

/-- How deep an adjoint nests: what is left of the limit after the weight of the tree, and
one pair for each position behind it that is read twice.  The pair of the position itself
is kept for the sum that its adjoint may be. -/
def AdjointNests (tape : Tape Float) (limit i : Nat) (adjoint : Expr Float) : Prop :=
  ∃ node, tape.nodes[i]? = some node ∧
    nesting 1 adjoint + pathWeight .reverse node.expr ≤ limit + tape.sharedFrom i ∧
    (2 ≤ tape.uses i →
      nesting 0 adjoint + 1 + pathWeight .reverse node.expr ≤ limit + tape.sharedFrom i)

/-- A contribution keeps to the limit of the node that it comes from. -/
theorem AdjointNests.contribution {tape : Tape Float} {n i : Nat}
    (hnodes : ∀ (i : Nat) (node : TapeNode Float), tape.nodes[i]? = some node →
      Expr.Subtree node.expr e)
    (hunsigned : ∀ c, Expr.Subtree (.const c) e → Binary64.Unsigned c)
    (hpasses : tape.nodes.Passes x (Expr.Subtree · e) n i p)
    (h : AdjointNests tape (nesting 3 e + 4 + pathWeight .reverse e) n adjoint) :
    ∃ input, tape.nodes[i]? = some input ∧
      nesting 1 (Fold.mul adjoint p) + pathWeight .reverse input.expr ≤
        nesting 3 e + 4 + pathWeight .reverse e + tape.sharedFrom n := by
  obtain ⟨-, node, input, a, hnode, hinput, ha, hshared, hp⟩ := hpasses
  obtain ⟨node', hnode', hadjoint, -⟩ := h
  obtain rfl : node = node' := Option.some.inj (hnode.symm.trans hnode')
  have hweight : pathWeight .reverse input.expr ≤ pathWeight .reverse e :=
    pathWeight_le_of_subtree (hnodes i input hinput)
  refine ⟨input, hinput, ?_⟩
  rw [← hshared.pathWeight_eq ha] at hweight ⊢
  exact hp.nesting_contribution hunsigned (by omega) hadjoint

/-- The bound on adjoints is kept by every contribution: it loses the weight of the operation on
the way down, and a sum of contributions costs the pair that was kept for it. -/
theorem kept_adjointNests {tape : Tape Float}
    (hnodes : ∀ (i : Nat) (node : TapeNode Float), tape.nodes[i]? = some node →
      Expr.Subtree node.expr e)
    (hunsigned : ∀ c, Expr.Subtree (.const c) e → Binary64.Unsigned c) :
    Kept tape x (Expr.Subtree · e)
      (AdjointNests tape (nesting 3 e + 4 + pathWeight .reverse e)) := by
  constructor
  · intro n i adjoint p hpasses hadjoint
    obtain ⟨input, hinput, hproduct⟩ := hadjoint.contribution hnodes hunsigned hpasses
    have hbehind := sharedFrom_anti tape hpasses.lt.le
    refine ⟨input, hinput, by omega, fun huses => ?_⟩
    have hshared := sharedFrom_lt tape hpasses.lt (Nodes.lt_size_of_getElem? hinput) huses
    have hplaces := nesting_places (Fold.mul adjoint p)
    omega
  · intro n i adjoint b p hpasses hadjoint huses hb
    obtain ⟨input, hinput, hproduct⟩ := hadjoint.contribution hnodes hunsigned hpasses
    obtain ⟨input', hinput', -, hprevious⟩ := hb
    obtain rfl : input = input' := Option.some.inj (hinput.symm.trans hinput')
    have hprevious := hprevious huses
    have hshared := sharedFrom_lt tape hpasses.lt (Nodes.lt_size_of_getElem? hinput) huses
    have hweight : pathWeight .reverse input.expr ≤ pathWeight .reverse e :=
      pathWeight_le_of_subtree (hnodes i input hinput)
    have hsum : nesting 0 (Fold.add b (Fold.mul adjoint p)) ≤
        nesting 3 e + 4 + pathWeight .reverse e + tape.sharedFrom i - 1 -
          pathWeight .reverse input.expr :=
      nesting_foldAdd (by omega) (by omega) (by omega)
    have hplaces := nesting_places (Fold.add b (Fold.mul adjoint p))
    exact ⟨input, hinput, by omega, fun _ => by omega⟩

/-- What reverse mode builds nests deeper than the tree by four pairs, by the weights on the
way to a leaf, and by one pair for each node that is read twice. -/
theorem nesting_reverse {tape : Tape Float} (he : e.Standard)
    (hunsigned : ∀ c, Expr.Subtree (.const c) e → Binary64.Unsigned c)
    (htape : Tape.ofExpr x e = .ok tape) (hd : tape.derivative = .ok d) :
    nesting 0 d ≤ nesting 3 e + 4 + pathWeight .reverse e + tape.sharedFrom 0 := by
  obtain ⟨hrecorded, -⟩ := Tape.ofExpr_recorded he htape
  have hnodes : ∀ (i : Nat) (node : TapeNode Float), tape.nodes[i]? = some node →
      Expr.Subtree node.expr e :=
    fun i node hnode => (hrecorded.added i node hnode).resolve_left (by simp)
  obtain ⟨output, houtput, hshared⟩ := hrecorded.found
  have hstart : AdjointNests tape (nesting 3 e + 4 + pathWeight .reverse e) tape.output
      Fold.one := by
    refine ⟨output, houtput, ?_, fun _ => ?_⟩ <;>
      rw [nesting_foldOne, ← hshared.pathWeight_eq he] <;> omega
  rcases (kept_adjointNests hnodes hunsigned).reverse he htape hstart hd with
    rfl | ⟨i, node, -, hnesting, -⟩
  · exact nesting_const_le (by omega) _
  · have hall := sharedFrom_anti tape (Nat.zero_le i)
    have hplaces := nesting_places d
    omega

end Reverse

end Fluxion.Calculus
