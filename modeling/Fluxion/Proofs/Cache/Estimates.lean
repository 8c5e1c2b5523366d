import Fluxion.Cache.Evaluation
import Fluxion.Proofs.Number.Estimates

/-!
# Estimates never shrink

Quantities come from operations of arithmetic and from compiled functions, which may be run
at any of them.  A step gives an estimate that is not below the sum of those of its operands
(`Computed.errorSum_le`), so from numbers with estimates that are not below zero no chain
of steps gives a smaller estimate, or none: `estimates_never_shrink`.
-/

namespace Fluxion.Cache

open Fluxion.Number

variable {φ ε : Type} {run : φ → Float → Except (RunFailure ε) Float}

/-- A quantity and the quantities that one step computes it from: an operation, or a run of
a compiled function. -/
inductive Computed [Multiprecision] (run : φ → Float → Except (RunFailure ε) Float) :
    List Quantity → Quantity → Prop where
  | made {operands : List Quantity} {q : Quantity} (hmade : MadeFrom operands q) :
      Computed run operands q
  | evaluated {cache : Cache φ} {name : String} {x q : Quantity}
      (hvalue : (evaluate run cache name x).2 = .ok q) : Computed run [x] q

/-- The quantities that some steps lead to. -/
inductive Reachable [Multiprecision] (run : φ → Float → Except (RunFailure ε) Float)
    (start : Quantity → Prop) : Quantity → Prop where
  | start {q : Quantity} (hstart : start q) : Reachable run start q
  | step {operands : List Quantity} {q : Quantity}
      (hoperands : ∀ a ∈ operands, Reachable run start a) (hstep : Computed run operands q) :
      Reachable run start q

/-- The quantity is an operand of a step that gives the other. -/
def Feeds [Multiprecision] (run : φ → Float → Except (RunFailure ε) Float)
    (start : Quantity → Prop) (a q : Quantity) : Prop :=
  ∃ operands, a ∈ operands ∧ (∀ b ∈ operands, Reachable run start b) ∧ Computed run operands q

def errorSum : List Quantity → Float
  | [] => 0.0
  | [a] => a.error
  | a :: rest => a.error + errorSum rest

/-! ## Runs of compiled functions -/

/-- The result of a run is that of an operation in the fast tier. -/
theorem resultOf_eq (error value : Float) :
    resultOf error value = .fast value (Quantity.accumulate error value.abs epsilon) := by
  rw [resultOf, Quantity.accumulate, isFinite_abs]

/-- A result of a compiled function has the estimate of its argument and one step more. -/
theorem evaluate_eq_ok {cache : Cache φ} {name : String} {x q : Quantity}
    (h : (evaluate run cache name x).2 = .ok q) : ∃ value, q = resultOf x.error value := by
  unfold evaluate at h
  split at h
  · cases h
  · cases h
  · split at h
    · next value _ => exact ⟨value, (Except.ok.inj h).symm⟩
    · cases h
    · cases h

theorem error_evaluate_of_not_finite {cache : Cache φ} {name : String} {x q : Quantity}
    (h : (evaluate run cache name x).2 = .ok q) (hq : q.isFinite = false) :
    q.error = infinity := by
  obtain ⟨value, rfl⟩ := evaluate_eq_ok h
  rw [resultOf_eq] at hq ⊢
  exact accumulate_abs_of_not_finite hq _

/-! ## Steps -/

variable {operands : List Quantity} {q : Quantity}

/-- An estimate is not below the sum of those of the operands. -/
theorem Computed.errorSum_le [Multiprecision] (h : Computed run operands q)
    (hoperands : ∀ a ∈ operands, IsEstimate a.error) : errorSum operands ≤ q.error := by
  cases h with
  | made hmade =>
      cases hmade with
      | apply op policy a b =>
          exact le_error_apply (hoperands a (by simp)) (hoperands b (by simp)) op policy
      | neg a =>
          have herror : a.neg.error = a.error := by cases a <;> rfl
          rw [herror]
          exact (hoperands a (by simp)).self_le
      | clone a =>
          have herror : a.clone.error = a.error := by cases a <;> rfl
          rw [herror]
          exact (hoperands a (by simp)).self_le
      | toArbitrary bits a => exact (hoperands a (by simp)).self_le
  | evaluated hvalue =>
      obtain ⟨value, rfl⟩ := evaluate_eq_ok hvalue
      rw [resultOf_eq]
      exact (hoperands _ List.mem_cons_self).le_accumulate_abs value

/-- A sum of estimates is an estimate and not below any of them. -/
theorem isEstimate_errorSum (h : ∀ a ∈ operands, IsEstimate a.error) :
    IsEstimate (errorSum operands) ∧ ∀ a ∈ operands, a.error ≤ errorSum operands := by
  induction operands with
  | nil => exact ⟨isEstimate_of_finite le_rfl floatValue_zero, by simp⟩
  | cons a rest ih =>
      obtain ⟨ha, hrest⟩ := List.forall_mem_cons.mp h
      cases rest with
      | nil => exact ⟨ha, by simpa [errorSum] using ha.self_le⟩
      | cons b rest =>
          obtain ⟨hsum, hle⟩ := ih hrest
          obtain ⟨hleft, hright⟩ := ha.le_add hsum
          refine ⟨ha.add hsum, List.forall_mem_cons.mpr ⟨hleft, fun c hc => ?_⟩⟩
          exact float_le_trans (hle c hc) hright

/-! ## Chains of steps -/

variable {start : Quantity → Prop}

/-- Where every start has an estimate, so has everything that steps lead to. -/
theorem Reachable.isEstimate [Multiprecision] (hstart : ∀ q, start q → IsEstimate q.error)
    (h : Reachable run start q) : IsEstimate q.error := by
  induction h with
  | start hq => exact hstart _ hq
  | step _ hstep ih => exact (isEstimate_errorSum ih).1.of_le (hstep.errorSum_le ih)

/-- From numbers with estimates that are not below zero, no chain of steps loses an
estimate or makes one smaller.  A result of arithmetic or of a compiled function that is
not finite has an infinite estimate.  This does not depend on how the arbitrary tier rounds. -/
theorem estimates_never_shrink [Multiprecision] (hstart : ∀ q, start q → 0.0 ≤ q.error) :
    (∀ q, Reachable run start q → 0.0 ≤ q.error ∧ q.error.isNaN = false) ∧
    (∀ operands q, (∀ a ∈ operands, Reachable run start a) → Computed run operands q →
      errorSum operands ≤ q.error ∧ ∀ a ∈ operands, a.error ≤ q.error) ∧
    (∀ a q, Reachable run start a → Relation.ReflTransGen (Feeds run start) a q →
      a.error ≤ q.error) ∧
    (∀ op policy a b, (Quantity.apply op policy a b).isFinite = false →
      (Quantity.apply op policy a b).error = infinity) ∧
    ∀ cache name x q, (evaluate run cache name x).2 = .ok q → q.isFinite = false →
      q.error = infinity := by
  have hreach : ∀ q, Reachable run start q → IsEstimate q.error :=
    fun q hq => hq.isEstimate hstart
  have hstep : ∀ operands q, (∀ a ∈ operands, Reachable run start a) →
      Computed run operands q → errorSum operands ≤ q.error ∧ ∀ a ∈ operands, a.error ≤ q.error := by
    intro operands q hoperands hq
    have hestimates : ∀ a ∈ operands, IsEstimate a.error := fun a ha => hreach a (hoperands a ha)
    have hsum := hq.errorSum_le hestimates
    exact ⟨hsum, fun a ha => float_le_trans ((isEstimate_errorSum hestimates).2 a ha) hsum⟩
  refine ⟨fun q hq => ⟨hreach q hq, (hreach q hq).not_isNaN⟩, hstep, fun a q ha hchain => ?_,
    fun op policy a b => error_apply_of_not_finite,
    fun cache name x q => error_evaluate_of_not_finite⟩
  induction hchain with
  | refl => exact (hreach a ha).self_le
  | tail _ hlast ih =>
      obtain ⟨operands, hmem, hoperands, hq⟩ := hlast
      exact float_le_trans ih ((hstep operands _ hoperands hq).2 _ hmem)

theorem unbounded_pos : ∀ n ∈ (none : Option ℕ), 0 < n :=
  fun n hn => (Option.not_mem_none n hn).elim

def identityCache : Cache Unit :=
  ⟨none, [("k", ⟨"k", "f", "", ()⟩)], [("f", "k")], [], Stats.zero, unbounded_pos⟩

def runIdentity (_ : Unit) (x : Float) : Except (RunFailure Empty) Float :=
  .ok x

theorem estimates_never_shrink_third :
    ∃ q r, Quantity.apply .div Policy.default wideOne fastThree = q ∧
      (evaluate runIdentity identityCache "f" q).2 = .ok r ∧
      wideOne.error + fastThree.error ≤ q.error ∧ wideOne.error ≤ r.error ∧
      r.error.isNaN = false := by
  have hstart : ∀ a, a ∈ [wideOne, fastThree] → 0.0 ≤ a.error := by
    have hzero : (0.0 : Float) ≤ 0.0 :=
      (isEstimate_of_finite (le_refl 0) floatValue_zero).self_le
    intro a ha
    rcases List.mem_pair.mp ha with rfl | rfl
    · exact hzero
    · exact hzero
  obtain ⟨hfree, hstep, hchain, -, -⟩ := @estimates_never_shrink _ _ runIdentity _ .standard hstart
  have hoperands : ∀ a ∈ [wideOne, fastThree],
      Reachable runIdentity (· ∈ [wideOne, fastThree]) a := fun a ha => .start ha
  have hdivide : Computed runIdentity [wideOne, fastThree]
      (Quantity.apply .div Policy.default wideOne fastThree) := .made (.apply _ _ _ _)
  have hevaluate : (evaluate runIdentity identityCache "f"
      (Quantity.apply .div Policy.default wideOne fastThree)).2 = .ok (resultOf
        (Quantity.apply .div Policy.default wideOne fastThree).error
        (Quantity.apply .div Policy.default wideOne fastThree).toFloat) := rfl
  have hquotient := Reachable.step hoperands hdivide
  have hargument := List.forall_mem_singleton.mpr hquotient
  refine ⟨_, _, rfl, hevaluate, (hstep _ _ hoperands hdivide).1, ?_, ?_⟩
  · refine hchain _ _ (hoperands _ (by simp)) (.tail (.single ⟨_, by simp, hoperands, hdivide⟩) ?_)
    exact ⟨_, List.mem_singleton_self _, hargument, .evaluated hevaluate⟩
  · exact (hfree _ (.step hargument (.evaluated hevaluate))).2

end Fluxion.Cache
