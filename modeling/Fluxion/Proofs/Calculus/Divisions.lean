import Fluxion.Proofs.Calculus.Closure
import Fluxion.Proofs.Number.Bits
import Fluxion.Proofs.Source.RoundTrip

/-!
# The quotients of a derivative

A quotient whose denominator is the constant zero cannot be compiled, so the quotient rule
refuses a denominator that is known to be zero.

Every quotient of a derivative was in the expression before, or its denominator is one of
the trees that the rules divide by: `quotient_differentiate`.  A tree that mentions the
variable is not a constant, and none of these trees is a constant zero, with one exception.
Forward mode guards the denominator of a quotient and divides by its square, and the square
of a constant may be zero where the constant is not.

* `zeroDenominator_differentiate`: a constant zero below the line was there before, or it is
  such a square.
* `forward_div_of_square_eq_zero`: each such square leads to a division by zero, as that of
  the denominator of `x / 1e-200` does.
-/

namespace Fluxion.Calculus

open Fluxion.Expr Fluxion.Number

/-! ## Where quotients come from -/

section Quotients

variable {α : Type} [Scalar α] {mode : Mode} {x : String} {e d a v : Expr α}

/-- Folding makes no quotients but those by trees that it is asked to divide by. -/
theorem foldClosed_quotients (e : Expr α) (divides : Expr α → Prop) :
    FoldClosed divides fun d : Expr α =>
      ∀ a v, Subtree (.binary .div a v) d → Subtree (.binary .div a v) e ∨ divides v := by
  refine .of_nodes ?_ ?_ ?_ ?_
  · intro c a v hquotient
    cases subtree_const.mp hquotient
  · intro b hb a v hquotient
    rcases neg_cases b with ⟨c, hc⟩ | ⟨b', rfl, hb'⟩ | hnode
    · rw [hc] at hquotient
      cases subtree_const.mp hquotient
    · rw [hb'] at hquotient
      exact hb a v (subtree_unary.mpr (.inr hquotient))
    · rw [hnode] at hquotient
      exact hb a v ((subtree_unary.mp hquotient).resolve_left nofun)
  · intro op b b' _ hdiv hb hb' _ a v hquotient
    rcases subtree_binary.mp hquotient with hnode | hleft | hright
    · obtain ⟨rfl, -, rfl⟩ := binary.inj hnode
      exact .inr (hdiv rfl)
    · exact hb a v hleft
    · exact hb' a v hright
  · intro f b hb a v hquotient
    exact hb a v ((subtree_call.mp hquotient).resolve_left nofun)

/-- A quotient of the derivative was in the expression, or a rule divided by its
denominator. -/
theorem quotient_differentiate [Stack] (he : e.Standard) (h : differentiate mode x e = .ok d)
    (hquotient : Subtree (.binary .div a v) d) :
    Subtree (.binary .div a v) e ∨ Divisor x e mode v :=
  (foldClosed_quotients e (Divisor x e mode)).differentiate he
    (fun _ ht _ _ hquotient => .inl (hquotient.trans ht)) (fun _ hv => hv) h a v hquotient

end Quotients

/-! ## Divisors that are constants -/

section Divisors

variable {mode : Mode} {x : String} {e u v : Expr Float} {c w : Float}

theorem ne_const_of_dependsOn (h : u.dependsOn x = true) (c : Float) : u ≠ .const c := by
  rintro rfl
  cases h

/-- The square of a tree that is not a constant stays as it is. -/
theorem pow_two_eq_node (hu : ∀ c, u ≠ .const c) :
    Fold.pow u Fold.two = .binary .pow u Fold.two := by
  cases u with
  | const c => exact absurd rfl (hu c)
  | _ => rfl

theorem mul_logTen_eq_node (hu : ∀ c, u ≠ .const c) :
    Fold.mul u (.const Scalar.logTen) = .binary .mul u (.const Scalar.logTen) := by
  cases u with
  | const c => exact absurd rfl (hu c)
  | _ => rfl

/-- The derivative of a function divides by no constant, unless its argument is one. -/
theorem FunctionDivisor.ne_const (hu : ∀ c, u ≠ .const c) (h : FunctionDivisor u v) :
    v ≠ .const c := by
  cases h with
  | argument => exact hu c
  | cosine => nofun
  | logTen =>
      rw [mul_logTen_eq_node hu]
      nofun
  | root => nofun
  | circle => nofun
  | square =>
      rw [pow_two_eq_node hu]
      nofun

/-- The square of a constant is its power, where that has a value. -/
theorem pow_two_const_eq_const_iff :
    Fold.pow (.const w : Expr Float) Fold.two = .const c ↔ floatPower? w 2.0 = some c := by
  have hpower : Scalar.power? w Scalar.two = floatPower? w 2.0 := rfl
  rw [Fold.pow, Fold.two, Fold.constants?]
  dsimp only
  rw [hpower]
  cases floatPower? w 2.0 <;> simp

/-- The only constant zero that the rules divide by is the square of a denominator that is
a constant other than zero. -/
theorem Divisor.square_of_zero (h : Divisor x e mode (.const c)) (hc : (c == 0.0) = true) :
    mode = .forward ∧ ∃ u w, Subtree (.binary .div u (.const w)) e ∧ u.dependsOn x = true ∧
      (w == 0.0) = false ∧ floatPower? w 2.0 = some c := by
  generalize hv : (.const c : Expr Float) = v at h
  cases h with
  | @square u v hnode hlive hguard =>
      by_cases hconst : ∃ w, v = .const w
      · obtain ⟨w, rfl⟩ := hconst
        have hu : u.dependsOn x = true := by simpa [dependsOn] using hlive
        exact ⟨rfl, u, w, hnode, hu, hguard, pow_two_const_eq_const_iff.mp hv.symm⟩
      · rw [pow_two_eq_node (not_exists.mp hconst)] at hv
        cases hv
  | denominator hguard =>
      subst hv
      exact absurd (hc.symm.trans hguard) (by decide)
  | liveSquare hlive =>
      rw [pow_two_eq_node (ne_const_of_dependsOn hlive)] at hv
      cases hv
  | live hlive hfunction =>
      exact absurd hv.symm (hfunction.ne_const (ne_const_of_dependsOn hlive))

end Divisors

/-! ## Divisions by zero -/

section Zero

open Fluxion.Source

variable {mode : Mode} {x : String} {e d a u du : Expr Float} {c w : Float}

/-- A quotient by a constant zero stays as it is. -/
theorem div_zero_eq_node (a : Expr Float) (hc : (c == 0.0) = true) :
    Fold.div a (.const c) = .binary .div a (.const c) := by
  have hone : Scalar.same c Scalar.one = false := beq_one_of_beq_zero hc
  have hzero : Scalar.same c Scalar.zero = true := hc
  have hnode : Fold.divNode a (.const c) = .binary .div a (.const c) := by
    simp [Fold.divNode, Fold.isConst, hone, hzero]
  rw [Fold.div]
  split
  · next hconstants =>
      cases a <;> simp [Fold.constants?] at hconstants
      simp [← hconstants.2, hzero, hnode]
  · exact hnode

/-- Where a denominator is not zero and its square is, the quotient rule divides by zero. -/
theorem forward_div_of_square_eq_zero (hu : u.dependsOn x = true) (hdu : forward x u = .ok du)
    (hw : (w == 0.0) = false) (hsquare : floatPower? w 2.0 = some c) (hc : (c == 0.0) = true) :
    forward x (.binary .div u (.const w)) =
      .ok (.binary .div (Fold.sub (Fold.mul du (.const w)) (Fold.mul u Fold.zero))
        (.const c)) := by
  have hguard : guardDenominator (.const w : Expr Float) = .ok () :=
    if_neg (Bool.eq_false_iff.mp hw)
  have hdv : forward x (.const w : Expr Float) = .ok Fold.zero := by rw [forward]
  rw [forward_binary .div (by rw [hu, Bool.true_or]), hdu, hdv]
  simp only [ok_bind, binaryRule]
  rw [hguard, pow_two_const_eq_const_iff.mpr hsquare, div_zero_eq_node _ hc]
  rfl

/-- The derivative divides by a constant zero only where the expression did, or where the
quotient rule of forward mode squares a constant whose square is zero. -/
theorem zeroDenominator_differentiate [Stack] {lenient : Bool} {source : String}
    (hparse : parse lenient source = .ok e) (h : differentiate mode x e = .ok d)
    (hc : (c == 0.0) = true) (hquotient : Subtree (.binary .div a (.const c)) d) :
    Subtree (.binary .div a (.const c)) e ∨
      mode = .forward ∧ ∃ u w, Subtree (.binary .div u (.const w)) e ∧ u.dependsOn x = true ∧
        (w == 0.0) = false ∧ floatPower? w 2.0 = some c := by
  obtain ⟨hcheck, -⟩ := differentiate_eq_ok h
  have hstandard : e.Standard := standard_of_checkCalls (readable_of_parse hparse).arithmetic hcheck
  exact (quotient_differentiate hstandard h hquotient).imp_right fun hdivisor =>
    hdivisor.square_of_zero hc

/-- The tree of `x * (1 / 0)`. -/
def timesReciprocal : Expr Float :=
  .binary .mul (.var "x") (.binary .div (.const 1.0) (.const 0.0))

theorem parse_timesReciprocal : parse false "x * (1 / 0)" = .ok timesReciprocal := by
  have htokens : tokenize "x * (1 / 0)" = .ok
      [⟨.name, "x", 0, 1⟩, ⟨.star, "*", 2, 3⟩, ⟨.lparen, "(", 4, 5⟩, ⟨.number, "1", 5, 6⟩,
        ⟨.slash, "/", 7, 8⟩, ⟨.number, "0", 9, 10⟩, ⟨.rparen, ")", 10, 11⟩, endMark 11] := by cbv
  have htree : ofTokens false
      [⟨.name, "x", 0, 1⟩, ⟨.star, "*", 2, 3⟩, ⟨.lparen, "(", 4, 5⟩, ⟨.number, "1", 5, 6⟩,
        ⟨.slash, "/", 7, 8⟩, ⟨.number, "0", 9, 10⟩, ⟨.rparen, ")", 10, 11⟩, endMark 11] =
      .ok timesReciprocal := by rfl
  exact parse_of_tokenize (by decide) htokens htree (by decide)

/-- The derivative of `x * (1 / 0)` is the division by zero that stands in it. -/
theorem zeroDenominator_differentiate_timesReciprocal :
    parse false "x * (1 / 0)" = .ok timesReciprocal ∧
      differentiate .reverse "x" timesReciprocal =
        .ok (.binary .div (.const 1.0) (.const 0.0)) ∧
      Subtree (.binary .div (.const 1.0) (.const 0.0)) timesReciprocal := by
  have hderivative : differentiate .reverse "x" timesReciprocal =
      .ok (.binary .div (.const 1.0) (.const 0.0)) := by with_unfolding_all rfl
  rcases zeroDenominator_differentiate parse_timesReciprocal hderivative (by decide) .refl with
    hthere | ⟨hmode, -⟩
  · exact ⟨parse_timesReciprocal, hderivative, hthere⟩
  · cases hmode

/-- The tree of `x / 1e-200`. -/
def tinyQuotient : Expr Float :=
  .binary .div (.var "x") (.const 1e-200)

theorem parse_tinyQuotient : parse false "x / 1e-200" = .ok tinyQuotient := by
  have htokens : tokenize "x / 1e-200" = .ok
      [⟨.name, "x", 0, 1⟩, ⟨.slash, "/", 2, 3⟩, ⟨.number, "1e-200", 4, 10⟩, endMark 10] := by cbv
  have hx : PrimaryPhrase false 0 [⟨.name, "x", 0, 1⟩] (.var "x") := .free rfl rfl rfl
  have hw : PrimaryPhrase false 0 [⟨.number, "1e-200", 4, 10⟩] (.const 1e-200) :=
    .number rfl (by decide +kernel)
  have hslash : operatorKind? .div = some (Token.kind ⟨.slash, "/", 2, 3⟩) := rfl
  have htree : ofTokens false
      [⟨.name, "x", 0, 1⟩, ⟨.slash, "/", 2, 3⟩, ⟨.number, "1e-200", 4, 10⟩, endMark 10] =
      .ok tinyQuotient :=
    (ofTokens_eq_ok rfl (by decide)).mpr ⟨_, by decide, sumPhrase_operator hx hslash hw⟩
  exact parse_of_tokenize (by decide) htokens htree (by decide)

/-- No division by zero stands in `x / 1e-200`, but one is its derivative in forward mode: the
denominator passes the guard and its square underflows.  How powers are rounded is left to the
machine, so the underflow is assumed. -/
theorem not_zeroDenominator_differentiate_of_underflow (hpower : Float.pow 1e-200 2.0 = 0.0) :
    parse false "x / 1e-200" = .ok tinyQuotient ∧
      (∀ a c, Subtree (.binary .div a (.const c)) tinyQuotient → (c == 0.0) = false) ∧
      differentiate .forward "x" tinyQuotient =
        .ok (.binary .div (.const 1e-200) (.const 0.0)) := by
  have hsquare : floatPower? 1e-200 2.0 = some 0.0 := by
    rw [floatPower?, hpower]
    exact if_neg (by decide +kernel)
  have hnumerator : Fold.sub (Fold.mul Fold.one (.const 1e-200))
      (Fold.mul (.var "x") Fold.zero) = (.const 1e-200 : Expr Float) := by
    have hproduct : (1.0 : Float) * 1e-200 - 0.0 = 1e-200 := by decide +kernel
    exact congrArg Expr.const hproduct
  have hforward : forward "x" tinyQuotient = .ok (.binary .div
      (Fold.sub (Fold.mul Fold.one (.const 1e-200)) (Fold.mul (.var "x") Fold.zero))
      (.const 0.0)) :=
    forward_div_of_square_eq_zero rfl rfl (by decide +kernel) hsquare (by decide +kernel)
  rw [hnumerator] at hforward
  have hcalls : checkCalls Stack.rules tinyQuotient = .ok () := rfl
  have hlookups : checkLookups .forward tinyQuotient = .ok () := if_neg nofun
  refine ⟨parse_tinyQuotient, ?_, ?_⟩
  · intro a c h
    rcases subtree_binary.mp h with h | h | h
    · obtain ⟨-, -, h⟩ := binary.inj h
      obtain rfl := const.inj h
      decide +kernel
    · cases subtree_var.mp h
    · cases subtree_const.mp h
  · simp only [differentiate, hcalls, hlookups, ok_bind, derivativeBy]
    exact hforward

end Zero

end Fluxion.Calculus
