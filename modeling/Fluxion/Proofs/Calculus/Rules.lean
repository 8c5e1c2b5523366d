import Fluxion.Calculus.Derivative
import Fluxion.Proofs.Calculus.Sweep

/-!
# What the rules build

Everything that the two modes build is listed here, so that a property of derivatives is
proved along these lists and not along the programs.

* `Derives` has one case for each rule of forward mode.
* `Partial` has one case for each partial derivative of reverse mode.
* `Divisor` has one case for each tree that a rule divides by.
-/

namespace Fluxion.Calculus

variable {α : Type} [Scalar α]

/-! ## Forward mode -/

/-- The derivatives that the rules give a tree.  A tree without the variable has the
derivative zero, whatever it is; the rules that divide say what they know of the divisor. -/
inductive Derives (x : String) : Expr α → Expr α → Prop where
  | zero (e : Expr α) : Derives x e Fold.zero
  | one : Derives x (.var x) Fold.one
  | neg {a da : Expr α} (ha : Derives x a da) : Derives x (.unary .neg a) (Fold.neg da)
  | add {u v du dv : Expr α} (hu : Derives x u du) (hv : Derives x v dv) :
      Derives x (.binary .add u v) (Fold.add du dv)
  | sub {u v du dv : Expr α} (hu : Derives x u du) (hv : Derives x v dv) :
      Derives x (.binary .sub u v) (Fold.sub du dv)
  | mul {u v du dv : Expr α} (hu : Derives x u du) (hv : Derives x v dv) :
      Derives x (.binary .mul u v) (Fold.add (Fold.mul du v) (Fold.mul u dv))
  | div {u v du dv : Expr α} (hlive : (u.dependsOn x || v.dependsOn x) = true)
      (hguard : foldsToZero v = false) (hu : Derives x u du) (hv : Derives x v dv) :
      Derives x (.binary .div u v)
        (Fold.div (Fold.sub (Fold.mul du v) (Fold.mul u dv)) (Fold.pow v Fold.two))
  | base {u v du : Expr α} (hu : Derives x u du) :
      Derives x (.binary .pow u v)
        (Fold.mul (Fold.mul v (Fold.pow u (Fold.sub v Fold.one))) du)
  | exponent {u v dv : Expr α} (hv : Derives x v dv) :
      Derives x (.binary .pow u v) (Fold.mul (Fold.mul (Fold.pow u v) (Fold.call .log u)) dv)
  | power {u v du dv : Expr α} (hlive : u.dependsOn x = true) (hu : Derives x u du)
      (hv : Derives x v dv) :
      Derives x (.binary .pow u v)
        (Fold.mul (Fold.pow u v)
          (Fold.add (Fold.mul dv (Fold.call .log u)) (Fold.div (Fold.mul v du) u)))
  | call {f : Function} {a outer inner : Expr α} (hlive : a.dependsOn x = true)
      (houter : functionDerivative f a = .ok outer) (hinner : Derives x a inner) :
      Derives x (.call f.name [a]) (Fold.mul outer inner)

theorem guardDenominator_eq_ok {v : Expr α} {u : Unit} (h : guardDenominator v = .ok u) :
    foldsToZero v = false := by
  rw [guardDenominator] at h
  split_ifs at h with hzero
  exact Bool.eq_false_of_not_eq_true hzero

/-- What the rule of an operation gives is a derivative of its node. -/
theorem derives_of_binaryRule {x : String} {op : BinaryOp} {u v du dv d : Expr α}
    (hlive : (u.dependsOn x || v.dependsOn x) = true) (hu : Derives x u du)
    (hv : Derives x v dv) (h : binaryRule x op u v du dv = .ok d) :
    Derives x (.binary op u v) d := by
  cases op with
  | add =>
      cases h
      exact .add hu hv
  | sub =>
      cases h
      exact .sub hu hv
  | mul =>
      cases h
      exact .mul hu hv
  | div =>
      obtain ⟨_, hguard, hd⟩ := bind_eq_ok.mp h
      cases hd
      exact .div hlive (guardDenominator_eq_ok hguard) hu hv
  | pow =>
      obtain rfl : powerRule u v du dv (u.dependsOn x) (v.dependsOn x) = d := Except.ok.inj h
      rw [powerRule]
      split_ifs with hbase hexponent
      · exact .base hu
      · exact .exponent hv
      · have hboth : u.dependsOn x = true := by
          cases hdep : u.dependsOn x <;> simp_all
        exact .power hboth hu hv
  | other symbol => cases h

/-- Forward mode builds what the rules say. -/
theorem derives_of_forward {x : String} {e d : Expr α} (he : e.Standard)
    (h : forward x e = .ok d) : Derives x e d := by
  have hzero : ∀ {e d : Expr α}, e.dependsOn x = false → forward x e = .ok d →
      Derives x e d := by
    intro e d hdep hd
    obtain rfl : Fold.zero = d := by simpa [Reading.forward_of_not_dependsOn x hdep] using hd
    exact .zero e
  induction he generalizing d with
  | const value => exact hzero rfl h
  | var name =>
      by_cases hname : name = x
      · obtain rfl : Fold.one = d := by simpa [forward, hname] using h
        exact hname ▸ .one
      · exact hzero (by simp [Expr.dependsOn, hname]) h
  | @neg a ha ih =>
      cases hdep : a.dependsOn x with
      | false => exact hzero hdep h
      | true =>
          rw [forward_neg hdep] at h
          obtain ⟨da, hda, hd⟩ := bind_eq_ok.mp h
          obtain rfl := Except.ok.inj hd
          exact .neg (ih hda)
  | @binary op a b hop ha hb iha ihb =>
      cases hdep : a.dependsOn x || b.dependsOn x with
      | false => exact hzero hdep h
      | true =>
          rw [forward_binary op hdep] at h
          obtain ⟨da, hda, hrest⟩ := bind_eq_ok.mp h
          obtain ⟨db, hdb, hrule⟩ := bind_eq_ok.mp hrest
          exact derives_of_binaryRule hdep (iha hda) (ihb hdb) hrule
  | @call f a ha ih =>
      cases hdep : a.dependsOn x with
      | false => exact hzero (by simp [Expr.dependsOn, Expr.dependsOnAny, hdep]) h
      | true =>
          rw [forward_call f hdep] at h
          obtain ⟨outer, houter, hrest⟩ := bind_eq_ok.mp h
          obtain ⟨inner, hinner, hd⟩ := bind_eq_ok.mp hrest
          obtain rfl := Except.ok.inj hd
          exact .call hdep houter (ih hinner)

/-! ## Reverse mode -/

/-- The partial derivatives of a tree by its operands, built from trees of nodes. -/
inductive Partial (x : String) (operand : Expr α → Prop) :
    Expr α → Expr α → Expr α → Prop where
  | neg (a : Expr α) : Partial x operand (.unary .neg a) a Fold.minusOne
  | addLeft (a b : Expr α) : Partial x operand (.binary .add a b) a Fold.one
  | addRight (a b : Expr α) : Partial x operand (.binary .add a b) b Fold.one
  | subLeft (a b : Expr α) : Partial x operand (.binary .sub a b) a Fold.one
  | subRight (a b : Expr α) : Partial x operand (.binary .sub a b) b Fold.minusOne
  | mulLeft {a b v : Expr α} (hv : operand v) : Partial x operand (.binary .mul a b) a v
  | mulRight {a b u : Expr α} (hu : operand u) : Partial x operand (.binary .mul a b) b u
  | numerator {a b v : Expr α} (hguard : foldsToZero v = false) (hv : operand v) :
      Partial x operand (.binary .div a b) a (Fold.div Fold.one v)
  | denominator {a b u v : Expr α} (hlive : v.dependsOn x = true) (hu : operand u)
      (hv : operand v) :
      Partial x operand (.binary .div a b) b (Fold.neg (Fold.div u (Fold.pow v Fold.two)))
  | base {a b u v : Expr α} (hu : operand u) (hv : operand v) :
      Partial x operand (.binary .pow a b) a
        (Fold.mul v (Fold.pow u (Fold.sub v Fold.one)))
  | exponent {a b u v : Expr α} (hu : operand u) (hv : operand v) :
      Partial x operand (.binary .pow a b) b (Fold.mul (Fold.pow u v) (Fold.call .log u))
  | power {a b u v : Expr α} (hlive : u.dependsOn x = true) (hu : operand u) (hv : operand v) :
      Partial x operand (.binary .pow a b) a (Fold.div (Fold.mul (Fold.pow u v) v) u)
  | call {f : Function} {a u p : Expr α} (hlive : u.dependsOn x = true) (hu : operand u)
      (hp : functionDerivative f u = .ok p) : Partial x operand (.call f.name [a]) a p

section Binary

variable {x : String} {operand : Expr α → Prop} {a b u v : Expr α} {i j : Nat}
  {partials : List (Nat × Expr α)} {entry : Nat × Expr α}

theorem partial_of_mem_quotientPartials (hu : operand u) (hv : operand v)
    (h : quotientPartials u v i j (u.dependsOn x) (v.dependsOn x) = .ok partials)
    (hentry : entry ∈ partials) :
    (entry.1 = i ∧ Partial x operand (.binary .div a b) a entry.2) ∨
      (entry.1 = j ∧ Partial x operand (.binary .div a b) b entry.2) := by
  have hcases : (foldsToZero v = false ∧ entry = (i, Fold.div Fold.one v)) ∨
      (v.dependsOn x = true ∧ entry = (j, Fold.neg (Fold.div u (Fold.pow v Fold.two)))) := by
    cases hdepends : u.dependsOn x with
    | false =>
        rw [hdepends] at h
        obtain rfl := Except.ok.inj h
        cases hlive : v.dependsOn x <;> simp_all
    | true =>
        rw [hdepends] at h
        obtain ⟨_, hguard, hpartials⟩ := bind_eq_ok.mp h
        have hzero := guardDenominator_eq_ok hguard
        obtain rfl := Except.ok.inj hpartials
        cases hlive : v.dependsOn x <;> simp_all
  rcases hcases with ⟨hguard, rfl⟩ | ⟨hlive, rfl⟩
  · exact .inl ⟨rfl, .numerator hguard hv⟩
  · exact .inr ⟨rfl, .denominator hlive hu hv⟩

theorem partial_of_mem_powerPartials (hlive : (u.dependsOn x || v.dependsOn x) = true)
    (hu : operand u) (hv : operand v)
    (hentry : entry ∈ powerPartials u v i j (u.dependsOn x) (v.dependsOn x)) :
    (entry.1 = i ∧ Partial x operand (.binary .pow a b) a entry.2) ∨
      (entry.1 = j ∧ Partial x operand (.binary .pow a b) b entry.2) := by
  rw [powerPartials] at hentry
  split_ifs at hentry
  · obtain rfl := List.mem_singleton.mp hentry
    exact .inl ⟨rfl, .base hu hv⟩
  · obtain rfl := List.mem_singleton.mp hentry
    exact .inr ⟨rfl, .exponent hu hv⟩
  · have hboth : u.dependsOn x = true := by
      cases hdep : u.dependsOn x <;> simp_all
    rcases List.mem_pair.mp hentry with rfl | rfl
    · exact .inl ⟨rfl, .power hboth hu hv⟩
    · exact .inr ⟨rfl, .exponent hu hv⟩

/-- Each of the partial derivatives belongs to the operand whose position it carries. -/
theorem partial_of_mem_binaryPartials {op : BinaryOp} (hop : op.known = true)
    (hlive : (u.dependsOn x || v.dependsOn x) = true) (hu : operand u) (hv : operand v)
    (h : binaryPartials (Label.ofBinary op) u v i j (u.dependsOn x) (v.dependsOn x) =
      .ok partials)
    (hentry : entry ∈ partials) :
    (entry.1 = i ∧ Partial x operand (.binary op a b) a entry.2) ∨
      (entry.1 = j ∧ Partial x operand (.binary op a b) b entry.2) := by
  cases op with
  | add =>
      obtain rfl := Except.ok.inj h
      rcases List.mem_pair.mp hentry with rfl | rfl
      · exact .inl ⟨rfl, .addLeft a b⟩
      · exact .inr ⟨rfl, .addRight a b⟩
  | sub =>
      obtain rfl := Except.ok.inj h
      rcases List.mem_pair.mp hentry with rfl | rfl
      · exact .inl ⟨rfl, .subLeft a b⟩
      · exact .inr ⟨rfl, .subRight a b⟩
  | mul =>
      obtain rfl := Except.ok.inj h
      rcases List.mem_pair.mp hentry with rfl | rfl
      · exact .inl ⟨rfl, .mulLeft hv⟩
      · exact .inr ⟨rfl, .mulRight hu⟩
  | div => exact partial_of_mem_quotientPartials hu hv h hentry
  | pow =>
      obtain rfl := Except.ok.inj h
      exact partial_of_mem_powerPartials hlive hu hv hentry
  | other symbol => cases hop

end Binary

/-! ## Divisors -/

/-- What the derivative of a function at `u` divides by. -/
inductive FunctionDivisor (u : Expr α) : Expr α → Prop where
  | argument : FunctionDivisor u u
  | cosine : FunctionDivisor u (Fold.pow (Fold.call .cos u) Fold.two)
  | logTen : FunctionDivisor u (Fold.mul u (.const Scalar.logTen))
  | root : FunctionDivisor u (Fold.mul Fold.two (Fold.call .sqrt u))
  | circle : FunctionDivisor u (Fold.call .sqrt (Fold.sub Fold.one (Fold.pow u Fold.two)))
  | square : FunctionDivisor u (Fold.add Fold.one (Fold.pow u Fold.two))

/-- What the rules divide by when they find the derivative of `e`.  The denominator of a
quotient has passed the guard, or it depends on the variable. -/
inductive Divisor (x : String) (e : Expr α) : Mode → Expr α → Prop where
  | square {u v : Expr α} (hnode : Expr.Subtree (.binary .div u v) e)
      (hlive : (u.dependsOn x || v.dependsOn x) = true) (hguard : foldsToZero v = false) :
      Divisor x e .forward (Fold.pow v Fold.two)
  | denominator {v : Expr α} (hguard : foldsToZero v = false) : Divisor x e .reverse v
  | liveSquare {v : Expr α} (hlive : v.dependsOn x = true) :
      Divisor x e .reverse (Fold.pow v Fold.two)
  | live {mode : Mode} {u v : Expr α} (hlive : u.dependsOn x = true)
      (hv : FunctionDivisor u v) : Divisor x e mode v

/-! ## What nodes pass on -/

/-- The node at `n` has the derivative `p` by the earlier node at `i`, which stands for one
of its operands. -/
structure Nodes.Passes (nodes : Nodes α) (x : String) (operand : Expr α → Prop) (n i : Nat)
    (p : Expr α) : Prop where
  lt : i < n
  byOperand : ∃ node input a, nodes[n]? = some node ∧ nodes[i]? = some input ∧
    a.Standard ∧ Shared a input.expr ∧ Partial x operand node.expr a p

/-- What a node passes on are the partial derivatives of its tree. -/
theorem passes_of_mem_localPartials {nodes : Nodes α} {x : String} (hw : nodes.WellFormed x)
    {operand : Expr α → Prop}
    (hoperand : ∀ (i : Nat) (node : TapeNode α), nodes[i]? = some node → operand node.expr)
    {n : Nat} {node : TapeNode α} (hn : nodes[n]? = some node) (hdepends : node.depends = true)
    {partials : List (Nat × Expr α)} (h : localPartials nodes node = .ok partials)
    {entry : Nat × Expr α} (hentry : entry ∈ partials) :
    nodes.Passes x operand n entry.1 entry.2 := by
  refine ⟨lt_of_mem_localPartials hw hn h hentry, ?_⟩
  cases hw.entry n node hn with
  | const c => simp [localPartials] at h
  | var name => simp [localPartials] at h
  | @neg a j u ha hj hu hau =>
      obtain rfl : [(j, Fold.minusOne)] = partials := by simpa [localPartials] using h
      obtain rfl := List.mem_singleton.mp hentry
      exact ⟨_, u, a, hn, hu, ha, hau, .neg a⟩
  | @binary op a b j k u v hop ha hb hj hk hu hv hau hbv =>
      rw [localPartials_binary hop hu hv, hw.depends_eq hu, hw.depends_eq hv] at h
      rw [hw.depends_eq hu, hw.depends_eq hv] at hdepends
      rcases partial_of_mem_binaryPartials hop hdepends (hoperand j u hu) (hoperand k v hv) h
        hentry with ⟨hposition, hp⟩ | ⟨hposition, hp⟩
      · exact ⟨_, u, a, hn, hposition ▸ hu, ha, hau, hp⟩
      · exact ⟨_, v, b, hn, hposition ▸ hv, hb, hbv, hp⟩
  | @call f a j u ha hj hu hau =>
      simp only [localPartials, hu] at h
      rw [hw.depends_eq hu] at hdepends
      obtain ⟨outer, houter, hpartials⟩ := bind_eq_ok.mp h
      obtain rfl := Except.ok.inj hpartials
      obtain rfl := List.mem_singleton.mp hentry
      exact ⟨_, u, a, hn, hu, ha, hau, .call hdepends (hoperand j u hu) houter⟩

end Fluxion.Calculus
