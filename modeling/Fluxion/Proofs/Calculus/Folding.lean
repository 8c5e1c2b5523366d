import Fluxion.Proofs.Calculus.Adjoints

/-!
# What folding makes of its operands

A folding function returns a constant, one of its operands, an operand with its sign
changed, or the node itself, and it returns the node only where the node cannot be folded
any further: `Folds`.

Both modes build derivatives from subtrees of the expression by folding alone.  So a
property that the folding functions keep, `FoldClosed`, goes over from the subtrees to the
derivative: `FoldClosed.differentiate`.
-/

namespace Fluxion.Calculus

open Fluxion.Expr

variable {α : Type} [Scalar α] {a b : Expr α}

/-- What folding an operator at two operands may return. -/
inductive Folds (op : BinaryOp) (a b : Expr α) : Expr α → Prop where
  | const (c : α) : Folds op a b (.const c)
  | left : Folds op a b a
  | right : Folds op a b b
  | negLeft : Folds op a b (Fold.neg a)
  | negRight : Folds op a b (Fold.neg b)
  | node (h : Fold.binary op a b = .binary op a b) : Folds op a b (.binary op a b)

theorem folds_add (a b : Expr α) : Folds .add a b (Fold.add a b) := by
  generalize hresult : Fold.add a b = t
  have hadd := hresult
  rw [Fold.add] at hadd
  split at hadd
  · exact hadd ▸ .const _
  · split_ifs at hadd
    · exact hadd ▸ .right
    · exact hadd ▸ .left
    · obtain rfl := hadd
      exact .node hresult

theorem folds_sub (a b : Expr α) : Folds .sub a b (Fold.sub a b) := by
  generalize hresult : Fold.sub a b = t
  have hsub := hresult
  rw [Fold.sub] at hsub
  split at hsub
  · exact hsub ▸ .const _
  · split_ifs at hsub
    · exact hsub ▸ .left
    · exact hsub ▸ .negRight
    · obtain rfl := hsub
      exact .node hresult

theorem folds_mul (a b : Expr α) : Folds .mul a b (Fold.mul a b) := by
  generalize hresult : Fold.mul a b = t
  have hmul := hresult
  rw [Fold.mul] at hmul
  split at hmul
  · exact hmul ▸ .const _
  · split_ifs at hmul
    · exact hmul ▸ .const _
    · exact hmul ▸ .right
    · exact hmul ▸ .left
    · exact hmul ▸ .negRight
    · exact hmul ▸ .negLeft
    · obtain rfl := hmul
      exact .node hresult

theorem folds_div (a b : Expr α) : Folds .div a b (Fold.div a b) := by
  generalize hresult : Fold.div a b = t
  have hnode : Fold.divNode a b = t → Folds .div a b t := by
    intro hdiv
    rw [Fold.divNode] at hdiv
    split_ifs at hdiv
    · exact hdiv ▸ .left
    · exact hdiv ▸ .const _
    · obtain rfl := hdiv
      exact .node hresult
  have hdiv := hresult
  rw [Fold.div] at hdiv
  split at hdiv
  · split_ifs at hdiv
    · exact hnode hdiv
    · exact hdiv ▸ .const _
  · exact hnode hdiv

theorem folds_pow (a b : Expr α) : Folds .pow a b (Fold.pow a b) := by
  generalize hresult : Fold.pow a b = t
  have hpow := hresult
  rw [Fold.pow] at hpow
  split at hpow
  · split at hpow
    · exact hpow ▸ .const _
    · obtain rfl := hpow
      exact .node hresult
  · split_ifs at hpow
    · exact hpow ▸ .left
    · exact hpow ▸ .const _
    · obtain rfl := hpow
      exact .node hresult

theorem folds_binary (op : BinaryOp) (a b : Expr α) : Folds op a b (Fold.binary op a b) := by
  cases op with
  | add => exact folds_add a b
  | sub => exact folds_sub a b
  | mul => exact folds_mul a b
  | div => exact folds_div a b
  | pow => exact folds_pow a b
  | other symbol => exact .node rfl

/-- A negation is carried out on a constant, undoes another one, or becomes a node. -/
theorem neg_cases (a : Expr α) :
    (∃ c, Fold.neg a = .const c) ∨ (∃ b, a = .unary .neg b ∧ Fold.neg a = b) ∨
      Fold.neg a = .unary .neg a := by
  rw [Fold.neg.eq_def]
  split
  · exact .inl ⟨_, rfl⟩
  · exact .inr (.inl ⟨_, rfl, rfl⟩)
  · exact .inr (.inr rfl)

/-! ## Properties that folding keeps -/

/-- A property of trees that every folding function keeps, divisions by the trees that
`divides` admits among them. -/
structure FoldClosed (divides P : Expr α → Prop) : Prop where
  const : ∀ c, P (.const c)
  neg : ∀ {a}, P a → P (Fold.neg a)
  binary : ∀ {op : BinaryOp} {a b}, op.known = true → (op = .div → divides b) → P a → P b →
    P (Fold.binary op a b)
  call : ∀ (f : Function) {a}, P a → P (Fold.call f a)

namespace FoldClosed

variable {divides P : Expr α → Prop} {mode : Mode} {x : String} {e t d u v : Expr α}

/-- Besides constants and changed signs only the nodes that are left as they are matter. -/
theorem of_nodes (const : ∀ c, P (.const c)) (neg : ∀ {a}, P a → P (Fold.neg a))
    (node : ∀ {op : BinaryOp} {a b}, op.known = true → (op = .div → divides b) → P a → P b →
      Fold.binary op a b = .binary op a b → P (.binary op a b))
    (call : ∀ (f : Function) {a}, P a → P (Fold.call f a)) : FoldClosed divides P where
  const := const
  neg := neg
  binary := by
    intro op a b hop hdiv ha hb
    generalize hresult : Fold.binary op a b = t
    have hfolds : Folds op a b t := hresult ▸ folds_binary op a b
    cases hfolds with
    | const c => exact const c
    | left => exact ha
    | right => exact hb
    | negLeft => exact neg ha
    | negRight => exact neg hb
    | node h => exact node hop hdiv ha hb h
  call := call

theorem add (hP : FoldClosed divides P) (ha : P a) (hb : P b) : P (Fold.add a b) :=
  hP.binary (rfl : BinaryOp.add.known = true) nofun ha hb

theorem sub (hP : FoldClosed divides P) (ha : P a) (hb : P b) : P (Fold.sub a b) :=
  hP.binary (rfl : BinaryOp.sub.known = true) nofun ha hb

theorem mul (hP : FoldClosed divides P) (ha : P a) (hb : P b) : P (Fold.mul a b) :=
  hP.binary (rfl : BinaryOp.mul.known = true) nofun ha hb

theorem div (hP : FoldClosed divides P) (hdiv : divides b) (ha : P a) (hb : P b) :
    P (Fold.div a b) :=
  hP.binary (rfl : BinaryOp.div.known = true) (fun _ => hdiv) ha hb

theorem pow (hP : FoldClosed divides P) (ha : P a) (hb : P b) : P (Fold.pow a b) :=
  hP.binary (rfl : BinaryOp.pow.known = true) nofun ha hb

/-- The derivative of a function is put together with folding functions only. -/
theorem functionDerivative (hP : FoldClosed divides P) {f : Function} (hu : P u)
    (hdiv : ∀ v, FunctionDivisor u v → divides v) (h : functionDerivative f u = .ok d) : P d := by
  have hone : P Fold.one := hP.const _
  have htwo : P Fold.two := hP.const _
  have hsquare : P (Fold.pow u Fold.two) := hP.pow hu htwo
  have hroot : P
      (Fold.div Fold.one (Fold.call .sqrt (Fold.sub Fold.one (Fold.pow u Fold.two)))) :=
    hP.div (hdiv _ .circle) hone (hP.call .sqrt (hP.sub hone hsquare))
  cases f <;> cases h
  case sin => exact hP.call .cos hu
  case cos => exact hP.neg (hP.call .sin hu)
  case tan => exact hP.div (hdiv _ .cosine) hone (hP.pow (hP.call .cos hu) htwo)
  case exp => exact hP.call .exp hu
  case log => exact hP.div (hdiv _ .argument) hone hu
  case log10 => exact hP.div (hdiv _ .logTen) hone (hP.mul hu (hP.const _))
  case sqrt => exact hP.div (hdiv _ .root) hone (hP.mul htwo (hP.call .sqrt hu))
  case abs => exact hP.call .sign hu
  case sign => exact hP.const _
  case asin => exact hroot
  case acos => exact hP.neg hroot
  case atan => exact hP.div (hdiv _ .square) hone (hP.add hone hsquare)
  case sinh => exact hP.call .cosh hu
  case cosh => exact hP.call .sinh hu
  case tanh => exact hP.sub hone (hP.pow (hP.call .tanh hu) htwo)

/-- What the rules of forward mode make of subtrees with the property has it. -/
theorem derives (hP : FoldClosed divides P) (he : ∀ t, Subtree t e → P t)
    (hdiv : ∀ v, Divisor x e .forward v → divides v) (h : Derives x t d) (ht : Subtree t e) :
    P d := by
  have hone : P Fold.one := hP.const _
  have htwo : P Fold.two := hP.const _
  induction h with
  | zero t => exact hP.const _
  | one => exact hone
  | neg _ iha => exact hP.neg (iha ht.operand)
  | add _ _ ihu ihv => exact hP.add (ihu ht.left) (ihv ht.right)
  | sub _ _ ihu ihv => exact hP.sub (ihu ht.left) (ihv ht.right)
  | mul _ _ ihu ihv =>
      exact hP.add (hP.mul (ihu ht.left) (he _ ht.right)) (hP.mul (he _ ht.left) (ihv ht.right))
  | div hlive hguard _ _ ihu ihv =>
      exact hP.div (hdiv _ (.square ht hlive hguard))
        (hP.sub (hP.mul (ihu ht.left) (he _ ht.right)) (hP.mul (he _ ht.left) (ihv ht.right)))
        (hP.pow (he _ ht.right) htwo)
  | base _ ihu =>
      have hu := he _ ht.left
      have hv := he _ ht.right
      exact hP.mul (hP.mul hv (hP.pow hu (hP.sub hv hone))) (ihu ht.left)
  | exponent _ ihv =>
      have hu := he _ ht.left
      exact hP.mul (hP.mul (hP.pow hu (he _ ht.right)) (hP.call .log hu)) (ihv ht.right)
  | power hlive _ _ ihu ihv =>
      have hu := he _ ht.left
      have hv := he _ ht.right
      exact hP.mul (hP.pow hu hv) (hP.add (hP.mul (ihv ht.right) (hP.call .log hu))
        (hP.div (hdiv _ (.live hlive .argument)) (hP.mul hv (ihu ht.left)) hu))
  | call hlive houter _ ih =>
      have houter := hP.functionDerivative (he _ ht.argument) (fun v hv => hdiv v (.live hlive hv))
        houter
      exact hP.mul houter (ih ht.argument)

/-- What a node passes on has the property if the trees of the nodes do. -/
theorem of_partial (hP : FoldClosed divides P) {operand : Expr α → Prop} {p : Expr α}
    (h : Partial x operand t a p) (hoperand : ∀ t, operand t → P t)
    (hdiv : ∀ v, Divisor x e .reverse v → divides v) : P p := by
  have hone : P Fold.one := hP.const _
  have htwo : P Fold.two := hP.const _
  cases h with
  | neg _ => exact hP.const _
  | addLeft _ _ => exact hone
  | addRight _ _ => exact hone
  | subLeft _ _ => exact hone
  | subRight _ _ => exact hP.const _
  | mulLeft hv => exact hoperand _ hv
  | mulRight hu => exact hoperand _ hu
  | numerator hguard hv => exact hP.div (hdiv _ (.denominator hguard)) hone (hoperand _ hv)
  | denominator hlive hu hv =>
      exact hP.neg (hP.div (hdiv _ (.liveSquare hlive)) (hoperand _ hu)
        (hP.pow (hoperand _ hv) htwo))
  | base hu hv =>
      exact hP.mul (hoperand _ hv) (hP.pow (hoperand _ hu) (hP.sub (hoperand _ hv) hone))
  | exponent hu hv =>
      exact hP.mul (hP.pow (hoperand _ hu) (hoperand _ hv)) (hP.call .log (hoperand _ hu))
  | power hlive hu hv =>
      exact hP.div (hdiv _ (.live hlive .argument))
        (hP.mul (hP.pow (hoperand _ hu) (hoperand _ hv)) (hoperand _ hv)) (hoperand _ hu)
  | call hlive hu hp =>
      exact hP.functionDerivative (hoperand _ hu) (fun v hv => hdiv v (.live hlive hv)) hp

/-- Every adjoint of the sweep has the property if the subtrees of the expression do. -/
theorem reverse (hP : FoldClosed divides P) (he : e.Standard) (hsub : ∀ t, Subtree t e → P t)
    (hdiv : ∀ v, Divisor x e .reverse v → divides v) (h : reverse x e = .ok d) : P d := by
  obtain ⟨tape, htape, hd⟩ := bind_eq_ok.mp h
  have hpartial : ∀ {n i : Nat} {p : Expr α}, tape.nodes.Passes x (Subtree · e) n i p → P p := by
    rintro n i p ⟨-, node, input, a, -, -, -, -, hp⟩
    exact hP.of_partial hp hsub hdiv
  have hkept : Kept tape x (Subtree · e) fun _ a => P a :=
    ⟨fun hp ha => hP.mul ha (hpartial hp),
      fun hp ha _ hb => hP.add hb (hP.mul ha (hpartial hp))⟩
  rcases hkept.reverse he htape (hP.const _) hd with rfl | ⟨_, hd⟩
  · exact hP.const _
  · exact hd

/-- A property that folding keeps goes over from the subtrees of an expression to its
derivative, in both modes. -/
theorem differentiate [Stack] (hP : FoldClosed divides P) (he : e.Standard)
    (hsub : ∀ t, Subtree t e → P t) (hdiv : ∀ v, Divisor x e mode v → divides v)
    (h : differentiate mode x e = .ok d) : P d := by
  obtain ⟨-, hd⟩ := differentiate_eq_ok h
  cases mode with
  | forward => exact hP.derives hsub hdiv (derives_of_forward he hd) .refl
  | reverse => exact hP.reverse he hsub hdiv hd

end FoldClosed

end Fluxion.Calculus
