import Fluxion.Proofs.Code.Writing

/-!
# How deep the parentheses of code nest

Code has parentheses around arguments, around negative numbers, and around a phrase that
is too weak for its place.  So how deep they nest can be told from the tree alone:
`nesting` is the depth of the code of a tree in a place that asks for some strength.

* `Written.balanced` says that this is what the writer does.
* `nesting_mono` and `nesting_le_succ` compare two places; they differ by one pair.
-/

namespace Fluxion.Code

open Fluxion.Decimal Fluxion.Number Fluxion.Text

/-- The parentheses around a phrase where more strength than `bound` is asked for. -/
def parensAround (strength bound : Nat) : Nat :=
  if strength ≤ bound then 1 else 0

def constantNesting (value : Float) : Nat :=
  match Binary64.ofFloat value with
  | .infinite true => 1
  | .finite true _ _ => 1
  | _ => 0

/-- The parentheses of an exponent: those of an integer if it is written as one. -/
def exponentNesting (integer? : Option Int) (otherwise : Nat) : Nat :=
  match integer? with
  | some n => if n < 0 then 1 else 0
  | none => otherwise

mutual
/-- How deep parentheses nest in the code of a tree that stands where more strength than
`bound` is asked for. -/
def nesting : Nat → Expr Float → Nat
  | _, .const value => constantNesting value
  | _, .var _ => 0
  | bound, .unary _ a => nesting negStrength a + parensAround negStrength bound
  | bound, .binary op a b =>
      match operatorStrength? op with
      | some strength =>
          max (nesting (strength - 1) a) (nesting strength b) + parensAround strength bound
      | none => max (nesting 0 a) (exponentNesting (integerExponent? b) (nesting 0 b)) + 1
  | _, .call _ args => nestingList args + 1

def nestingList : List (Expr Float) → Nat
  | [] => 0
  | a :: as => max (nesting 0 a) (nestingList as)
end

/-! ## Places -/

theorem parensAround_mono {strength bound bound' : Nat} (h : bound ≤ bound') :
    parensAround strength bound ≤ parensAround strength bound' := by
  rw [parensAround, parensAround]
  split_ifs <;> omega

theorem parensAround_le_one (strength bound : Nat) : parensAround strength bound ≤ 1 := by
  rw [parensAround]
  split_ifs <;> omega

theorem parensAround_of_lt {strength bound : Nat} (h : bound < strength) :
    parensAround strength bound = 0 :=
  if_neg (Nat.not_le.mpr h)

theorem operatorStrength?_cases {op : BinaryOp} {strength : Nat}
    (h : operatorStrength? op = some strength) : strength = 1 ∨ strength = 2 := by
  cases op <;> cases h <;> decide

theorem nesting_unary (bound : Nat) (op : UnaryOp) (a : Expr Float) :
    nesting bound (.unary op a) = nesting 3 a + parensAround 3 bound := by
  rw [nesting]
  rfl

theorem nesting_operation {op : BinaryOp} {strength : Nat}
    (h : operatorStrength? op = some strength)
    (bound : Nat) (a b : Expr Float) :
    nesting bound (.binary op a b) =
      max (nesting (strength - 1) a) (nesting strength b) + parensAround strength bound := by
  rw [nesting, h]

theorem nesting_sum {op : BinaryOp} (h : operatorStrength? op = some 1) (bound : Nat)
    (a b : Expr Float) :
    nesting bound (.binary op a b) = max (nesting 0 a) (nesting 1 b) + parensAround 1 bound :=
  nesting_operation h bound a b

theorem nesting_product {op : BinaryOp} (h : operatorStrength? op = some 2) (bound : Nat)
    (a b : Expr Float) :
    nesting bound (.binary op a b) = max (nesting 1 a) (nesting 2 b) + parensAround 2 bound :=
  nesting_operation h bound a b

theorem nesting_pow (bound : Nat) (a b : Expr Float) :
    nesting bound (.binary .pow a b) =
      max (nesting 0 a) (exponentNesting (integerExponent? b) (nesting 0 b)) + 1 := by
  rw [nesting]
  rfl

/-- In every place a tree has the same parentheses inside, and those of its strength
around them. -/
theorem nesting_eq (e : Expr Float) : ∃ depth strength, ∀ bound < atomStrength,
    nesting bound e = depth + parensAround strength bound := by
  have hatom : ∀ depth, ∀ bound < atomStrength, depth = depth + parensAround atomStrength bound :=
    fun depth bound hbound => by rw [parensAround_of_lt hbound, Nat.add_zero]
  cases e with
  | const value => exact ⟨_, atomStrength, fun bound h => by rw [nesting]; exact hatom _ _ h⟩
  | var name => exact ⟨_, atomStrength, fun bound h => by rw [nesting]; exact hatom _ _ h⟩
  | unary op a => exact ⟨_, negStrength, fun bound _ => by rw [nesting]⟩
  | binary op a b =>
      cases hop : operatorStrength? op with
      | some strength => exact ⟨_, strength, fun bound _ => nesting_operation hop bound a b⟩
      | none => exact ⟨_, atomStrength, fun bound h => by rw [nesting, hop]; exact hatom _ _ h⟩
  | call name args => exact ⟨_, atomStrength, fun bound h => by rw [nesting]; exact hatom _ _ h⟩

/-- A place that asks for more strength has no fewer parentheses. -/
theorem nesting_mono {e : Expr Float} {bound bound' : Nat} (hle : bound ≤ bound')
    (hbound : bound' < atomStrength) : nesting bound e ≤ nesting bound' e := by
  obtain ⟨depth, strength, h⟩ := nesting_eq e
  rw [h bound (Nat.lt_of_le_of_lt hle hbound), h bound' hbound]
  exact Nat.add_le_add_left (parensAround_mono hle) depth

/-- The place makes a difference of one pair at most. -/
theorem nesting_le_succ (e : Expr Float) {bound bound' : Nat} (hbound : bound < atomStrength)
    (hbound' : bound' < atomStrength) : nesting bound e ≤ nesting bound' e + 1 := by
  obtain ⟨depth, strength, h⟩ := nesting_eq e
  rw [h bound hbound, h bound' hbound']
  have := parensAround_le_one strength bound
  omega

/-- Moving a tree to another place costs one pair of parentheses at most. -/
theorem nesting_le_of_place {e : Expr Float} {bound bound' m : Nat}
    (h : nesting bound' e ≤ m) (hbound : bound < atomStrength) (hbound' : bound' < atomStrength) :
    nesting bound e ≤ m + 1 :=
  Nat.le_trans (nesting_le_succ e hbound hbound') (Nat.succ_le_succ h)

/-- All places that there are, from the weakest to the strongest. -/
theorem nesting_places (e : Expr Float) : nesting 0 e ≤ nesting 1 e ∧ nesting 1 e ≤ nesting 2 e ∧
    nesting 2 e ≤ nesting 3 e ∧ nesting 3 e ≤ nesting 0 e + 1 :=
  ⟨nesting_mono (by decide) (by decide), nesting_mono (by decide) (by decide),
    nesting_mono (by decide) (by decide), nesting_le_succ e (by decide) (by decide)⟩

theorem constantNesting_le_one (value : Float) : constantNesting value ≤ 1 := by
  rw [constantNesting]
  split <;> omega

/-- A constant without a sign has no parentheses. -/
theorem constantNesting_of_unsigned {value : Float} (h : Binary64.Unsigned value) :
    constantNesting value = 0 := by
  rcases h with rfl | ⟨m, e, h⟩
  · rw [constantNesting, Binary64.ofFloat_infinity]
  · rw [constantNesting, h]

/-- An exponent that is written as an integer has no more parentheses than the constant
that it is. -/
theorem exponentNesting_le (b : Expr Float) :
    exponentNesting (integerExponent? b) (nesting 0 b) ≤ nesting 0 b := by
  cases hn : integerExponent? b with
  | none => exact Nat.le_refl _
  | some n =>
      rw [integerExponent?.eq_def] at hn
      split at hn
      · next value =>
          split_ifs at hn
          obtain rfl : truncate value = n := Option.some.inj hn
          rw [exponentNesting, nesting, constantNesting]
          split_ifs with hnegative
          · rw [truncate] at hnegative
            split at hnegative
            · next negative m e hvalue =>
                cases negative with
                | true => rw [hvalue]
                | false =>
                    exact absurd hnegative (Int.not_lt.mpr (Int.natCast_nonneg _))
            · exact absurd hnegative (Int.lt_irrefl 0)
          · exact Nat.zero_le _
      · cases hn

/-- An exponent has at most one pair of parentheses less than it has elsewhere. -/
theorem le_exponentNesting (b : Expr Float) :
    nesting 3 b ≤ exponentNesting (integerExponent? b) (nesting 0 b) + 1 := by
  cases hn : integerExponent? b with
  | none => exact nesting_le_succ b (by decide) (by decide)
  | some n =>
      rw [integerExponent?.eq_def] at hn
      split at hn
      · next value =>
          have hconstant := constantNesting_le_one value
          rw [nesting]
          omega
      · cases hn

/-! ## Subtrees -/

theorem nesting_le_nestingList {c : Expr Float} {args : List (Expr Float)} (hc : c ∈ args) :
    nesting 0 c ≤ nestingList args := by
  induction args with
  | nil => cases hc
  | cons a as ih =>
      rw [nestingList]
      rcases List.mem_cons.mp hc with rfl | hrest
      · exact Nat.le_max_left _ _
      · exact Nat.le_trans (ih hrest) (Nat.le_max_right _ _)

/-- In the strongest place, a tree nests as deep as each of its operands. -/
theorem nesting_le_of_mem_children {c e : Expr Float} (hc : c ∈ e.children) :
    nesting 3 c ≤ nesting 3 e := by
  have hplaces := nesting_places c
  cases e with
  | const value => cases hc
  | var name => cases hc
  | unary op a =>
      obtain rfl := List.mem_singleton.mp hc
      rw [nesting_unary]
      omega
  | binary op a b =>
      cases hop : operatorStrength? op with
      | some strength =>
          have hstrength := operatorStrength?_cases hop
          have hparens : parensAround strength 3 = 1 := if_pos (by omega)
          rw [nesting_operation hop, hparens]
          rcases List.mem_pair.mp hc with rfl | rfl <;> rcases hstrength with rfl | rfl <;>
            simp only [Nat.sub_self, Nat.reduceSub] <;> omega
      | none =>
          rw [nesting, hop]
          rcases List.mem_pair.mp hc with rfl | rfl
          · dsimp only
            omega
          · have hexponent := le_exponentNesting c
            dsimp only
            omega
  | call name args =>
      have hargument : nesting 0 c ≤ nestingList args := nesting_le_nestingList hc
      rw [nesting]
      omega

/-- A subtree nests no deeper than the whole tree. -/
theorem nesting_le_of_subtree {t e : Expr Float} (h : Expr.Subtree t e) :
    nesting 3 t ≤ nesting 3 e := by
  induction h with
  | refl => exact Nat.le_refl _
  | child hc _ ih => exact Nat.le_trans ih (nesting_le_of_mem_children hc)

/-! ## What is written -/

/-- Parentheses are written exactly where the phrase is too weak for its place. -/
theorem balanced_wrap {depth : Nat} {p : Phrase} (h : Balanced depth p.text) (bound : Nat) :
    Balanced (depth + parensAround p.strength bound) (wrap p (p.strength ≤ bound)) := by
  by_cases hweak : p.strength ≤ bound
  · simpa [wrap, parensAround, hweak] using h.group
  · simpa [wrap, parensAround, hweak] using h

theorem balanced_constantChars (value : Float) :
    Balanced (constantNesting value) (constantChars value) := by
  have hplain : ∀ {cs : List Char}, (cs.all fun c => c != '(' && c != ')') = true →
      Balanced 0 cs := by
    intro cs h
    exact balanced_of_plain fun c hc => by simpa using List.all_eq_true.mp h c hc
  rw [constantNesting, constantChars]
  cases hc : Binary64.ofFloat value with
  | nan =>
      have hname : Balanced 0 ['n', 'a', 'n'] := hplain (by decide)
      exact hname
  | infinite negative =>
      have hname : Balanced 0 ['i', 'n', 'f'] := hplain (by decide)
      cases negative with
      | false => exact hname
      | true => exact (hname.cons (by decide) (by decide)).group
  | finite negative m e =>
      obtain ⟨x, ⟨hx, -⟩, htext, -⟩ := floatChars_finite hc
      have hnumeral : Balanced 0 x.text := balanced_of_plain (plain_of_wellFormed hx)
      rw [htext]
      cases negative with
      | false => exact hnumeral
      | true => exact (hnumeral.cons (by decide) (by decide)).group

theorem balanced_integerChars (n : Int) (otherwise : Nat) :
    Balanced (exponentNesting (some n) otherwise) (integerChars n) := by
  have hdigits : Balanced 0 (digitChars n.natAbs) :=
    balanced_of_plain fun c hc => plain_of_isAsciiDigit (isAsciiDigit_of_mem_digitChars c hc)
  rw [exponentNesting, integerChars]
  split_ifs
  · exact (hdigits.cons (by decide) (by decide)).group
  · exact hdigits

/-- A name in front of what stands in parentheses. -/
theorem Balanced.applied {symbol : String} (hsymbol : isIdentifier symbol = true) {depth : Nat}
    {cs : List Char} (h : Balanced depth cs) :
    Balanced (depth + 1) (symbol.toList ++ '(' :: (cs ++ [')'])) := by
  have happlied := (balanced_of_plain (plain_of_isIdentifier hsymbol)).append h.group
  rwa [Nat.zero_max] at happlied

theorem Balanced.pair {depth depth' : Nat} {cs cs' : List Char} (h : Balanced depth cs)
    (h' : Balanced depth' cs') : Balanced (max depth depth') (cs ++ ',' :: ' ' :: cs') :=
  h.append ((h'.cons (by decide) (by decide)).cons (by decide) (by decide))

theorem balanced_operation {op : BinaryOp} {strength depth depth' : Nat} {cs cs' : List Char}
    (hop : operatorStrength? op = some strength) (h : Balanced depth cs)
    (h' : Balanced depth' cs') :
    Balanced (max depth depth') (cs ++ ' ' :: op.symbol.toList ++ ' ' :: cs') := by
  have hsign : ∀ {c : Char}, op.symbol.toList = [c] → c ≠ '(' → c ≠ ')' →
      Balanced (max depth depth') (cs ++ ' ' :: op.symbol.toList ++ ' ' :: cs') := by
    intro c hsymbol hopen hclose
    rw [hsymbol]
    simpa using h.append
      (((h'.cons (by decide) (by decide)).cons hopen hclose).cons (by decide) (by decide))
  cases op with
  | add => exact hsign rfl (by decide) (by decide)
  | sub => exact hsign rfl (by decide) (by decide)
  | mul => exact hsign rfl (by decide) (by decide)
  | div => exact hsign rfl (by decide) (by decide)
  | pow => cases hop
  | other symbol => cases hop

theorem Written.strength_pos {e : Expr Float} {p : Phrase} (h : Written e p) :
    0 < p.strength := by
  have hatom : 0 < atomStrength := by decide
  cases h with
  | const value => exact hatom
  | var symbol => exact hatom
  | neg _ => exact (by decide : 0 < negStrength)
  | operation hop _ _ => rcases operatorStrength?_cases hop with rfl | rfl <;> exact Nat.succ_pos _
  | integerPower _ _ => exact hatom
  | power _ _ _ => exact hatom
  | call f _ => exact hatom

/-- The text of a phrase, wrapped for any place, nests as deep as the tree says. -/
theorem Written.balanced {e : Expr Float} {p : Phrase} (h : Written e p) :
    ∀ bound < atomStrength, Balanced (nesting bound e) (wrap p (p.strength ≤ bound)) := by
  have hatom : ∀ {depth bound : Nat} {text : List Char}, bound < atomStrength →
      Balanced depth text →
        Balanced depth (wrap ⟨text, atomStrength⟩ (decide (atomStrength ≤ bound))) := by
    intro depth bound text hbound h
    have hwrap := balanced_wrap (p := ⟨text, atomStrength⟩) h bound
    rwa [parensAround_of_lt hbound, Nat.add_zero] at hwrap
  -- an argument stands alone between its parentheses
  have hargument : ∀ {e : Expr Float} {p : Phrase}, Written e p →
      (∀ bound < atomStrength, Balanced (nesting bound e) (wrap p (p.strength ≤ bound))) →
        Balanced (nesting 0 e) p.text := by
    intro e p hp h
    have hzero := h 0 (by decide)
    rwa [decide_eq_false (Nat.not_le.mpr hp.strength_pos)] at hzero
  induction h with
  | const value =>
      intro bound hbound
      rw [nesting]
      exact hatom hbound (balanced_constantChars value)
  | var symbol =>
      intro bound hbound
      rw [nesting]
      exact hatom hbound (balanced_of_plain (plain_of_isIdentifier (by decide)))
  | neg _ ih =>
      intro bound _
      rw [nesting_unary]
      exact balanced_wrap (p := ⟨_, negStrength⟩)
        ((ih negStrength (by decide)).cons (by decide) (by decide)) bound
  | @operation op strength a b p q hop _ _ iha ihb =>
      intro bound _
      have hstrength : 0 < strength ∧ strength < atomStrength := by
        rcases operatorStrength?_cases hop with rfl | rfl <;> decide
      have hleft := iha (strength - 1) (by omega)
      -- the left operand may be as strong as the operator, the right one must be stronger
      have hplace : decide (p.strength ≤ strength - 1) = decide (p.strength < strength) := by
        rw [decide_eq_decide]
        omega
      rw [hplace] at hleft
      rw [nesting_operation hop]
      exact balanced_wrap (p := ⟨_, strength⟩)
        (balanced_operation hop hleft (ihb strength hstrength.2)) bound
  | @integerPower a b n p hn ha iha =>
      intro bound hbound
      rw [nesting_pow, hn]
      exact hatom hbound
        (((hargument ha iha).pair (balanced_integerChars n _)).applied isIdentifier_power)
  | @power a b p q hb ha hq iha ihb =>
      intro bound hbound
      rw [nesting_pow, hb]
      exact hatom hbound
        (((hargument ha iha).pair (hargument hq ihb)).applied isIdentifier_power)
  | call f ha ih =>
      intro bound hbound
      rw [nesting, nestingList, nestingList, Nat.max_zero]
      exact hatom hbound ((hargument ha ih).applied (isIdentifier_function f))

/-- The code of a tree nests as deep as the tree says. -/
theorem Written.parenDepth_eq {e : Expr Float} {p : Phrase} (h : Written e p) :
    parenDepth p.text = nesting 0 e := by
  have hzero := h.balanced 0 (by decide)
  rw [decide_eq_false (Nat.not_le.mpr h.strength_pos)] at hzero
  exact Balanced.parenDepth_eq hzero

end Fluxion.Code
