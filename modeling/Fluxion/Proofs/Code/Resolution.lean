import Fluxion.Proofs.Code.Linking

/-!
# Code is written unless a name is not bound

The names that are not bound are collected before anything is written.  If there are none,
every call in the tree is in the table of functions, and this is all that the writer relies
on: a tree that is not too deep becomes a phrase, whatever number of arguments its calls have
(`phraseOf_of_height`), and the names in the phrase are linked (`linked_of_phraseOf`).
-/

namespace Fluxion.Code

open Fluxion.Expr Fluxion.Text

variable {name x : String} {e : Expr Float}

theorem emit_of_unbound [Stack] (hname : isIdentifier name = true) (h : unboundNames x e ≠ []) :
    emit name x e = .error (.compile ⟨name, .unresolved (unboundNames x e)⟩) := by
  simp [emit, hname, h]

/-- Without a name that is not bound there is a text, and the names in its body are linked. -/
theorem emit_of_resolved [Stack] (he : e.Arithmetic) (hheight : e.height ≤ Stack.writing)
    (hname : isIdentifier name = true) (h : unboundNames x e = []) :
    ∃ body ls, emit name x e = .ok (functionText name body) ∧
      lexemes (functionText name body) = some (headerLexemes name ++ ls) ∧
      ∀ symbol, Lexeme.name symbol ∈ ls → IsLinked symbol := by
  obtain ⟨-, hcalls⟩ := unboundNames_eq_nil_iff.mp h
  obtain ⟨phrase, hphrase⟩ := phraseOf_of_height name he hheight
  obtain ⟨ls, hlexes, hnames⟩ := linked_of_phraseOf he hcalls hphrase
  refine ⟨phrase.text, ls, ?_, lexemes_functionText hname hlexes, hnames⟩
  rw [emit_of_bound hname h, hphrase]
  rfl

/-- Code for a tree over the five operators and any calls that is not too deep fails exactly
if a name is not bound.  The error lists these names in order, each once.  Otherwise there is
a text, and the names in its body are the argument's and those of the default link table. -/
theorem emit_fails_iff_unbound [Stack] (x : String) (he : e.Arithmetic)
    (hheight : e.height ≤ Stack.writing) (hname : isIdentifier name = true) :
    ((∃ error, emit name x e = .error (.compile error)) ↔ ∃ y, Unbound x e y) ∧
      (∀ error, emit name x e = .error (.compile error) →
        error.functionName = name ∧ error.cause.kind = .symbolResolutionError ∧
          ∃ names, error.diagnostic? =
              some ("unresolved symbol(s): " ++ ", ".intercalate names) ∧
            Sorted names ∧ ∀ y, y ∈ names ↔ Unbound x e y) ∧
      ((∀ error, emit name x e ≠ .error (.compile error)) →
        ∃ body ls, emit name x e = .ok (functionText name body) ∧
          lexemes (functionText name body) = some (headerLexemes name ++ ls) ∧
          ∀ symbol, Lexeme.name symbol ∈ ls → symbol = argumentName ∨ symbol = powerSymbol ∨
            symbol = "inf" ∨ symbol = "nan" ∨ ∃ f : Function, symbol = f.name) := by
  by_cases h : unboundNames x e = []
  · obtain ⟨body, ls, hemit, hlexemes, hnames⟩ := emit_of_resolved he hheight hname h
    rw [hemit]
    refine ⟨⟨?_, ?_⟩, ?_, fun _ => ⟨body, ls, rfl, hlexemes, fun symbol hsymbol => ?_⟩⟩
    · rintro ⟨error, ⟨⟩⟩
    · rintro ⟨y, hy⟩
      have hmem : y ∈ unboundNames x e := mem_unboundNames.mpr hy
      rw [h] at hmem
      cases hmem
    · rintro error ⟨⟩
    · exact isLinked_iff.mp (hnames symbol hsymbol)
  · have hemit := emit_of_unbound hname h
    obtain ⟨y, hy⟩ := List.exists_mem_of_ne_nil _ h
    rw [hemit]
    refine ⟨⟨fun _ => ⟨y, mem_unboundNames.mp hy⟩, fun _ => ⟨_, rfl⟩⟩, ?_, fun hnone => ?_⟩
    · rintro error ⟨⟩
      exact ⟨rfl, rfl, unboundNames x e, rfl, sorted_unboundNames x e, fun _ => mem_unboundNames⟩
    · exact absurd rfl (hnone _)

/-- The tree of `True(y, sin()) + pow`. -/
def strangeNames : Expr Float :=
  .binary .add (.call "True" [.var "y", .call "sin" []]) (.var "pow")

/-- Its code fails, since `True` is no function and neither `y` nor `pow` is the argument. -/
theorem emit_fails_strangeNames :
    strangeNames.Arithmetic ∧ strangeNames.height ≤ Stack.writing ∧ isIdentifier "f" = true ∧
      ∃ error, emit "f" "x" strangeNames = .error (.compile error) ∧
        error.cause.kind = .symbolResolutionError := by
  have htree : strangeNames.Arithmetic := by
    refine .binary rfl (.call fun a ha => ?_) (.var "pow")
    rcases List.mem_pair.mp ha with rfl | rfl
    · exact .var "y"
    · exact .call fun b hb => absurd hb List.not_mem_nil
  have hname : isIdentifier "f" = true := by decide
  have hheight : strangeNames.height ≤ Stack.writing := by decide
  obtain ⟨hfails, herror, -⟩ := emit_fails_iff_unbound "x" htree hheight hname
  have hcall : Unbound "x" strangeNames "True" :=
    .inr ⟨by decide, [.var "y", .call "sin" []], .child List.mem_cons_self .refl⟩
  obtain ⟨error, hemit⟩ := hfails.mpr ⟨"True", hcall⟩
  exact ⟨htree, hheight, hname, error, hemit, (herror error hemit).2.1⟩

end Fluxion.Code
