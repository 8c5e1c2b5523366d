import Fluxion.Proofs.Code.Emission

/-!
# What is written for standard trees

`Written` has one case for each way in which a standard tree becomes a phrase, so that a
property of code is proved along these cases and not along the writer.  The writer does
nothing else with such a tree, except give up where it is too deep: `phraseOf_cases`.
-/

namespace Fluxion.Code

open Fluxion.Text

/-- The phrases of standard trees. -/
inductive Written : Expr Float → Phrase → Prop where
  | const (value : Float) : Written (.const value) ⟨constantChars value, atomStrength⟩
  | var (symbol : String) : Written (.var symbol) ⟨argumentName.toList, atomStrength⟩
  | neg {a : Expr Float} {p : Phrase} (ha : Written a p) :
      Written (.unary .neg a) ⟨'-' :: wrap p (p.strength ≤ negStrength), negStrength⟩
  | operation {op : BinaryOp} {strength : Nat} {a b : Expr Float} {p q : Phrase}
      (hop : operatorStrength? op = some strength) (ha : Written a p) (hb : Written b q) :
      Written (.binary op a b) ⟨wrap p (p.strength < strength) ++ ' ' :: op.symbol.toList ++
        ' ' :: wrap q (q.strength ≤ strength), strength⟩
  | integerPower {a b : Expr Float} {n : Int} {p : Phrase} (hn : integerExponent? b = some n)
      (ha : Written a p) :
      Written (.binary .pow a b)
        ⟨powerSymbol.toList ++ '(' :: (p.text ++ ',' :: ' ' :: integerChars n ++ [')']),
          atomStrength⟩
  | power {a b : Expr Float} {p q : Phrase} (hb : integerExponent? b = none)
      (ha : Written a p) (hq : Written b q) :
      Written (.binary .pow a b)
        ⟨powerSymbol.toList ++ '(' :: (p.text ++ ',' :: ' ' :: q.text ++ [')']), atomStrength⟩
  | call (f : Function) {a : Expr Float} {p : Phrase} (ha : Written a p) :
      Written (.call f.name [a]) ⟨f.name.toList ++ '(' :: (p.text ++ [')']), atomStrength⟩

/-- A standard tree is written, or it is too deep. -/
theorem phraseOf_cases {e : Expr Float} (he : e.Standard) (name : String) (levels : Nat) :
    (∃ phrase, phraseOf name levels e = .ok phrase ∧ Written e phrase) ∨
      phraseOf name levels e = .error (.compile ⟨name, .tooDeepToEmit⟩) := by
  induction levels generalizing e with
  | zero => exact .inr (by rw [phraseOf])
  | succ below ih =>
      cases he with
      | const value => exact .inl ⟨_, by rw [phraseOf], .const value⟩
      | var symbol => exact .inl ⟨_, by rw [phraseOf], .var symbol⟩
      | neg ha =>
          rw [phraseOf]
          rcases ih ha with ⟨p, hp, hwritten⟩ | herror
          · exact .inl ⟨_, by rw [hp]; rfl, .neg hwritten⟩
          · exact .inr (by rw [herror]; rfl)
      | @binary op a b hop ha hb =>
          by_cases hpow : op = .pow
          · subst hpow
            rw [phraseOf, exponentOf]
            rcases ih ha with ⟨p, hp, hleft⟩ | herror
            · cases hn : integerExponent? b with
              | some n => exact .inl ⟨_, by rw [hp]; simp [pure, Except.pure], .integerPower hn hleft⟩
              | none =>
                  rcases ih hb with ⟨q, hq, hright⟩ | herror
                  · exact .inl ⟨_, by rw [hp, hq]; simp [pure, Except.pure], .power hn hleft hright⟩
                  · exact .inr (by rw [hp, herror]; rfl)
            · exact .inr (by rw [herror]; rfl)
          · obtain ⟨strength, -, hstrength, -⟩ := operation_of_known hop hpow
            rw [phraseOf_operation a b hstrength]
            rcases ih ha with ⟨p, hp, hleft⟩ | herror
            · rcases ih hb with ⟨q, hq, hright⟩ | herror
              · exact .inl ⟨_, by rw [hp, hq]; rfl, .operation hstrength hleft hright⟩
              · exact .inr (by rw [hp, herror]; rfl)
            · exact .inr (by rw [herror]; rfl)
      | call f ha =>
          rw [phraseOf, argumentsOf]
          rcases ih ha with ⟨p, hp, hwritten⟩ | herror
          · exact .inl ⟨_, by rw [hp]; simp [pure, Except.pure], .call f hwritten⟩
          · exact .inr (by rw [herror]; rfl)

theorem written_of_phraseOf {e : Expr Float} (he : e.Standard) {name : String} {levels : Nat}
    {phrase : Phrase} (h : phraseOf name levels e = .ok phrase) : Written e phrase := by
  rcases phraseOf_cases he name levels with ⟨phrase', hphrase, hwritten⟩ | herror
  · exact Except.ok.inj (hphrase.symm.trans h) ▸ hwritten
  · exact absurd (herror.symm.trans h) (by simp)

/-- A standard tree over the argument is written if it is not too deep. -/
theorem emit_of_height [Stack] {name x : String} {e : Expr Float} (he : e.Standard)
    (hvariables : ∀ y ∈ e.freeVariables, y = x) (hname : isIdentifier name = true)
    (hheight : e.height ≤ Stack.writing) :
    ∃ phrase, emit name x e = .ok (functionText name phrase.text) ∧ Written e phrase := by
  obtain ⟨phrase, hphrase⟩ := phraseOf_of_height name he.arithmetic hheight
  refine ⟨phrase, ?_, written_of_phraseOf he hphrase⟩
  rw [emit_eq he hvariables hname, hphrase]
  rfl

/-- Only a valid name gets a text. -/
theorem isIdentifier_of_emit [Stack] {name x : String} {e : Expr Float} {text : String}
    (h : emit name x e = .ok text) : isIdentifier name = true := by
  by_contra hname
  rw [Bool.not_eq_true] at hname
  simp [emit, hname] at h

/-- The text of a function holds the phrase of the tree. -/
theorem phraseOf_of_emit [Stack] {name x : String} {e : Expr Float} {text : String}
    (h : emit name x e = .ok text) :
    ∃ phrase, phraseOf name Stack.writing e = .ok phrase ∧
      text = functionText name phrase.text := by
  have hname := isIdentifier_of_emit h
  rw [emit] at h
  simp only [hname, Bool.not_true, Bool.false_eq_true, if_false] at h
  split_ifs at h
  obtain ⟨phrase, hphrase, h⟩ := bind_eq_ok.mp h
  exact ⟨phrase, hphrase, (Except.ok.inj h).symm⟩

/-- An emitted text is a function whose body is written for the tree. -/
theorem written_of_emit [Stack] {name x : String} {e : Expr Float} (he : e.Standard) {text : String}
    (h : emit name x e = .ok text) :
    ∃ phrase, text = functionText name phrase.text ∧ Written e phrase := by
  obtain ⟨phrase, hphrase, htext⟩ := phraseOf_of_emit h
  exact ⟨phrase, htext, written_of_phraseOf he hphrase⟩

end Fluxion.Code
