import Fluxion.Proofs.Calculus.Closure

/-!
# Faults of an expression

`Fault` lists what can be wrong with a tree at its root, each with the error that reports
it: a call that the table does not admit, wherever it stands, and, where the variable
matters, a function without a rule and a quotient whose denominator is known to be zero.

The check of the calls finds the faults of the first kind, the recursion of forward mode
those of the second.  Forward mode does not look into trees without the variable, but
whatever depends on the variable it reaches: `forward_of_subtree`.
-/

namespace Fluxion.Calculus

open Fluxion.Expr

variable {α : Type} [Scalar α] {x : String} {e t : Expr α} {err : DerivativeError}

/-- The tree has a fault at its root, which the error reports. -/
inductive Fault (x : String) : DerivativeError → Expr α → Prop where
  | unknownFunction {name : String} {args : List (Expr α)} (hname : Function.ofName? name = none) :
      Fault x (.unknownFunction name) (.call name args)
  | argumentCount (f : Function) {args : List (Expr α)} (hcount : args.length ≠ f.arity) :
      Fault x (.argumentCount f.name f.arity args.length) (.call f.name args)
  | noRule {f : Function} {a : Expr α} (hf : f = .floor ∨ f = .ceil)
      (ha : a.dependsOn x = true) : Fault x (.noRule f.name) (.call f.name [a])
  | zeroDenominator {u v : Expr α} {c : α} (hdep : (u.dependsOn x || v.dependsOn x) = true)
      (hvalue : constantValue? v = some c) (hzero : Scalar.same c Scalar.zero = true) :
      Fault x .zeroDenominator (.binary .div u v)

/-- A subtree has a fault, which the error reports. -/
def FaultIn (x : String) (err : DerivativeError) (e : Expr α) : Prop :=
  ∃ t, Subtree t e ∧ Fault x err t

theorem FaultIn.child {c : Expr α} (h : FaultIn x err c) (hc : c ∈ e.children) :
    FaultIn x err e := by
  obtain ⟨t, hsub, hfault⟩ := h
  exact ⟨t, .child hc hsub, hfault⟩

/-! ## Rules that fail -/

theorem foldsToZero_iff {v : Expr α} :
    foldsToZero v = true ↔
      ∃ c, constantValue? v = some c ∧ Scalar.same c Scalar.zero = true := by
  rw [foldsToZero]
  cases constantValue? v <;> simp

theorem guardDenominator_eq_error_iff {v : Expr α} :
    guardDenominator v = .error err ↔ foldsToZero v = true ∧ .zeroDenominator = err := by
  rw [guardDenominator]
  split_ifs with hzero <;> simp [hzero]

/-- Rounding to an integer is all that has no derivative rule. -/
theorem functionDerivative_eq_error_iff {f : Function} {u : Expr α} :
    functionDerivative f u = .error err ↔ (f = .floor ∨ f = .ceil) ∧ .noRule f.name = err := by
  cases f <;> simp [functionDerivative]

theorem resolve_eq_error {name : String} {args : List (Expr α)}
    (h : resolve name args.length = .error err) : Fault x err (.call name args) := by
  rw [resolve] at h
  split at h
  · next hname =>
      obtain rfl := Except.error.inj h
      exact .unknownFunction hname
  · next f hname =>
      split_ifs at h with hcount
      obtain rfl := Except.error.inj h
      rw [← Function.name_of_ofName? hname]
      exact .argumentCount f hcount

/-- A tree with a value has no variables. -/
theorem not_dependsOn_of_constantValue? {v : Expr α} (hv : v.Standard) {c : α}
    (h : constantValue? v = some c) : v.dependsOn x = false := by
  induction hv generalizing c with
  | const value => rfl
  | var name => cases h
  | neg ha ih =>
      obtain ⟨d, hd, _⟩ := Option.map_eq_some_iff.mp h
      exact ih hd
  | binary hop ha hb iha ihb =>
      rw [constantValue?] at h
      split at h
      · next hleft hright => rw [dependsOn, iha hleft, ihb hright, Bool.or_false]
      · cases h
  | call f ha ih =>
      rw [constantValue?] at h
      split at h
      · next hvalue => rw [dependsOn, dependsOnAny, dependsOnAny, ih hvalue, Bool.or_false]
      · cases h

/-- A call that the table admits has a fault if there is no rule for the function. -/
theorem fault_call_iff {f : Function} {a : Expr α} :
    Fault x err (.call f.name [a]) ↔
      a.dependsOn x = true ∧ (f = .floor ∨ f = .ceil) ∧ .noRule f.name = err := by
  constructor
  · intro h
    generalize hname : f.name = name at h ⊢
    cases h with
    | unknownFunction hnone =>
        rw [← hname, Function.ofName?_name] at hnone
        cases hnone
    | argumentCount g hcount => exact absurd rfl hcount
    | noRule hf ha =>
        obtain rfl := Function.name_injective hname
        exact ⟨ha, hf, rfl⟩
  · rintro ⟨ha, hf, rfl⟩
    exact .noRule hf ha

/-- In a standard tree the variable is involved in every fault. -/
theorem Fault.dependsOn (h : Fault x err t) (ht : t.Standard) : t.dependsOn x = true := by
  cases ht with
  | const value => cases h
  | var name => cases h
  | neg ha => cases h
  | binary hop ha hb =>
      cases h with
      | zeroDenominator hdep => exact hdep
  | call f ha =>
      obtain ⟨hargument, -⟩ := fault_call_iff.mp h
      rw [Expr.dependsOn, dependsOnAny, hargument, Bool.true_or]

/-- In a standard tree only operations have faults. -/
theorem Fault.children_ne_nil (h : Fault x err t) (ht : t.Standard) : t.children ≠ [] := by
  cases ht with
  | const value => cases h
  | var name => cases h
  | neg ha => cases h
  | binary hop ha hb => exact List.cons_ne_nil _ _
  | call f ha => exact List.cons_ne_nil _ _

/-! ## The check of the calls -/

omit [Scalar α] in
theorem checkCallsList_eq_error {levels : Nat} {args : List (Expr α)}
    (h : checkCallsList levels args = .error err) :
    ∃ a ∈ args, checkCalls levels a = .error err := by
  induction args with
  | nil =>
      rw [checkCallsList] at h
      cases h
  | cons a rest ih =>
      rw [checkCallsList] at h
      rcases bind_eq_error.mp h with hfirst | ⟨_, _, hrest⟩
      · exact ⟨a, List.mem_cons_self, hfirst⟩
      · obtain ⟨b, hb, herr⟩ := ih hrest
        exact ⟨b, List.mem_cons_of_mem a hb, herr⟩

/-- A check fails at a call that the table does not admit, or for want of room. -/
theorem faultIn_of_checkCalls (he : e.Arithmetic) {levels : Nat}
    (h : checkCalls levels e = .error err) :
    FaultIn x err e ∨ err = .tooDeep ∧ levels < e.height := by
  induction levels generalizing e with
  | zero =>
      rw [checkCalls] at h
      obtain rfl := Except.error.inj h
      exact Or.inr ⟨rfl, height_eq_heightList_children e ▸ Nat.succ_pos _⟩
  | succ levels ih =>
      have hbelow : ∀ c ∈ e.children, c.Arithmetic → checkCalls levels c = .error err →
          FaultIn x err e ∨ err = .tooDeep ∧ levels + 1 < e.height := by
        intro c hc hca herr
        rw [height_eq_heightList_children]
        have hle := height_le_heightList hc
        exact (ih hca herr).imp (·.child hc) fun ⟨hdeep, hlt⟩ => ⟨hdeep, by omega⟩
      cases he with
      | const value => cases h
      | var name => cases h
      | neg ha => exact hbelow _ List.mem_cons_self ha h
      | binary hop ha hb =>
          rcases bind_eq_error.mp h with hleft | ⟨_, _, hright⟩
          · exact hbelow _ List.mem_cons_self ha hleft
          · exact hbelow _ (List.mem_pair.mpr (Or.inr rfl)) hb hright
      | call hargs =>
          rcases bind_eq_error.mp h with hresolve | ⟨_, _, hlist⟩
          · exact Or.inl ⟨_, .refl, resolve_eq_error hresolve⟩
          · obtain ⟨a, ha, herr⟩ := checkCallsList_eq_error hlist
            exact hbelow a ha (hargs a ha) herr

/-! ## Forward mode -/

/-- An error of a rule is a fault of the node. -/
theorem binaryRule_eq_error {op : BinaryOp} {u v du dv : Expr α} (hop : op.known = true)
    (hdep : (u.dependsOn x || v.dependsOn x) = true)
    (h : binaryRule x op u v du dv = .error err) : Fault x err (.binary op u v) := by
  cases op with
  | div =>
      rcases bind_eq_error.mp h with hguard | ⟨_, _, hquotient⟩
      · obtain ⟨hzero, rfl⟩ := guardDenominator_eq_error_iff.mp hguard
        obtain ⟨c, hvalue, hsame⟩ := foldsToZero_iff.mp hzero
        exact .zeroDenominator hdep hvalue hsame
      · cases hquotient
  | other symbol => cases hop
  | add | sub | mul | pow => cases h

/-- Forward mode fails only at a fault. -/
theorem faultIn_of_forward (he : e.Standard) (h : forward x e = .error err) :
    FaultIn x err e := by
  have hdepends : ∀ {t : Expr α}, forward x t = .error err → t.dependsOn x = true := by
    intro t ht
    by_contra hnot
    rw [Reading.forward_of_not_dependsOn x (Bool.not_eq_true _ ▸ hnot)] at ht
    cases ht
  induction he with
  | const value => cases h
  | var name => cases h
  | @neg a ha ih =>
      have hdep : (Expr.unary .neg a).dependsOn x = true := hdepends h
      rw [Expr.dependsOn] at hdep
      rw [forward_neg hdep] at h
      exact (ih (eq_error_of_bind_pure h)).child List.mem_cons_self
  | @binary op a b hop ha hb iha ihb =>
      have hdep : (Expr.binary op a b).dependsOn x = true := hdepends h
      rw [Expr.dependsOn] at hdep
      rw [forward_binary op hdep] at h
      rcases bind_eq_error.mp h with hleft | ⟨_, _, hrest⟩
      · exact (iha hleft).child List.mem_cons_self
      · rcases bind_eq_error.mp hrest with hright | ⟨_, _, hrule⟩
        · exact (ihb hright).child (List.mem_pair.mpr (Or.inr rfl))
        · exact ⟨_, .refl, binaryRule_eq_error hop hdep hrule⟩
  | @call f a ha ih =>
      have hdep : a.dependsOn x = true := by
        simpa [Expr.dependsOn, dependsOnAny] using hdepends h
      rw [forward_call f hdep] at h
      rcases bind_eq_error.mp h with houter | ⟨_, _, hrest⟩
      · obtain ⟨hf, rfl⟩ := functionDerivative_eq_error_iff.mp houter
        exact ⟨_, .refl, .noRule hf hdep⟩
      · exact (ih (eq_error_of_bind_pure hrest)).child List.mem_cons_self

/-- A tree that depends on the variable has a derivative only if all its operands do. -/
theorem forward_of_mem_children (he : e.Standard) (hdep : e.dependsOn x = true) {d c : Expr α}
    (hc : c ∈ e.children) (h : forward x e = .ok d) : ∃ dc, forward x c = .ok dc := by
  cases he with
  | const value => cases hc
  | var name => cases hc
  | @neg a ha =>
      have hoperand : a.dependsOn x = true := hdep
      rw [forward_neg hoperand] at h
      obtain ⟨da, hda, _⟩ := bind_eq_ok.mp h
      exact ⟨da, List.mem_singleton.mp hc ▸ hda⟩
  | @binary op a b hop ha hb =>
      have hoperands : (a.dependsOn x || b.dependsOn x) = true := hdep
      rw [forward_binary op hoperands] at h
      obtain ⟨da, hda, hrest⟩ := bind_eq_ok.mp h
      obtain ⟨db, hdb, _⟩ := bind_eq_ok.mp hrest
      rcases List.mem_pair.mp hc with rfl | rfl
      · exact ⟨da, hda⟩
      · exact ⟨db, hdb⟩
  | @call f a ha =>
      have hargument : a.dependsOn x = true := by
        simpa [Expr.dependsOn, dependsOnAny] using hdep
      rw [forward_call f hargument] at h
      obtain ⟨_, _, hrest⟩ := bind_eq_ok.mp h
      obtain ⟨da, hda, _⟩ := bind_eq_ok.mp hrest
      exact ⟨da, List.mem_singleton.mp hc ▸ hda⟩

/-- Forward mode reaches every subtree that depends on the variable. -/
theorem forward_of_subtree (he : e.Standard) (hsub : Subtree t e) (ht : t.dependsOn x = true)
    {d : Expr α} (h : forward x e = .ok d) : ∃ dt, forward x t = .ok dt := by
  induction hsub generalizing d with
  | refl => exact ⟨d, h⟩
  | @child c e hc hsub ih =>
      have hdep : e.dependsOn x = true := dependsOn_of_mem_children hc (hsub.dependsOn ht)
      obtain ⟨dc, hdc⟩ := forward_of_mem_children he hdep hc h
      exact ih (he.of_mem_children hc) hdc

/-- A tree with a fault at its root has no derivative in forward mode. -/
theorem not_forward_of_fault (ht : t.Standard) (hfault : Fault x err t) (d : Expr α) :
    forward x t ≠ .ok d := by
  intro h
  cases ht with
  | const value => cases hfault
  | var name => cases hfault
  | neg ha => cases hfault
  | binary hop ha hb =>
      cases hfault with
      | zeroDenominator hdep hvalue hzero =>
          rw [forward_binary .div hdep] at h
          obtain ⟨du, _, hrest⟩ := bind_eq_ok.mp h
          obtain ⟨dv, _, hrule⟩ := bind_eq_ok.mp hrest
          obtain ⟨_, hguard, _⟩ := bind_eq_ok.mp hrule
          rw [guardDenominator_eq_error_iff.mpr ⟨foldsToZero_iff.mpr ⟨_, hvalue, hzero⟩, rfl⟩]
            at hguard
          cases hguard
  | call f ha =>
      obtain ⟨hdep, hf, rfl⟩ := fault_call_iff.mp hfault
      rw [forward_call f hdep] at h
      obtain ⟨outer, houter, _⟩ := bind_eq_ok.mp h
      rw [functionDerivative_eq_error_iff.mpr ⟨hf, rfl⟩] at houter
      cases houter

end Fluxion.Calculus
