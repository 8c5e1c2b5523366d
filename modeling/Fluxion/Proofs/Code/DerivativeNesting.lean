import Fluxion.Proofs.Calculus.Closure
import Fluxion.Proofs.Code.ReverseNesting
import Fluxion.Proofs.Code.SourceNesting
import Fluxion.Proofs.Source.RoundTrip

/-!
# The nesting of the code of derivatives

The nesting of a source bounds the nesting of the code of its derivatives only together with
their growth: `parenDepth_emit_differentiate`.  Forward mode makes the growth as large as a
product is long, and so code is written that is too deep to be compiled, although the source
has no parentheses at all: `parenDepth_emit_productSlope`.
-/

namespace Fluxion.Calculus

open Fluxion.Code Fluxion.Number

/-! ## Both modes -/

/-- How many pairs deeper the code of a derivative may nest than that of the expression,
but for four. -/
def growth (mode : Mode) (x : String) (e : Expr Float) : Nat :=
  match mode with
  | .forward => pathWeight .forward e
  | .reverse =>
      match Tape.ofExpr x e with
      | .ok tape => pathWeight .reverse e + tape.sharedFrom 0
      | .error _ => 0

/-- The parentheses of a derivative, in either mode, against those of the expression. -/
theorem nesting_differentiate [Stack] {mode : Mode} {x : String} {e d : Expr Float}
    (he : e.Arithmetic)
    (hunsigned : ∀ c, Expr.Subtree (.const c) e → Binary64.Unsigned c)
    (h : differentiate mode x e = .ok d) : nesting 0 d ≤ nesting 3 e + 4 + growth mode x e := by
  obtain ⟨hcheck, hd⟩ := differentiate_eq_ok h
  have hstandard : e.Standard := standard_of_checkCalls he hcheck
  cases mode with
  | forward => exact (derives_of_forward hstandard hd).nesting_le (Nat.le_refl _)
  | reverse =>
      obtain ⟨tape, htape, hd⟩ := bind_eq_ok.mp hd
      have hnesting := nesting_reverse hstandard hunsigned htape hd
      rw [growth, htape]
      dsimp only
      omega

end Fluxion.Calculus

namespace Fluxion.Source

open Fluxion.Calculus Fluxion.Code Fluxion.Decimal Fluxion.Number Fluxion.Text

theorem Readable.unsigned_of_subtree {lenient : Bool} {e : Tree} (h : Readable lenient e)
    {c : Float} (hc : Expr.Subtree (.const c) e) : Binary64.Unsigned c := by
  induction h with
  | const hunsigned =>
      obtain rfl := Expr.const.inj (Expr.subtree_const.mp hc)
      exact hunsigned
  | var _ _ _ => cases Expr.subtree_var.mp hc
  | neg _ ih => exact ih ((Expr.subtree_unary.mp hc).resolve_left nofun)
  | binary _ _ _ iha ihb =>
      rcases (Expr.subtree_binary.mp hc).resolve_left nofun with hleft | hright
      · exact iha hleft
      · exact ihb hright
  | call _ _ _ _ ih =>
      obtain ⟨a, ha, hsub⟩ := (Expr.subtree_iff.mp hc).resolve_left nofun
      exact ih a ha hsub

/-- How deep the parentheses nest in the code of a derivative of what was read: the operands
of the source and the growth of the derivative bound it.  Where the growth is at most 69, the
code is not too deep to be compiled. -/
theorem parenDepth_emit_differentiate [Stack] {lenient : Bool} {mode : Mode}
    {source x y name text : String} {e d : Tree} (h : parse lenient source = .ok e)
    (hd : differentiate mode x e = .ok d) (hemit : emit name y d = .ok text) :
    ∃ body, text = functionText name body ∧
      (growth mode x e ≤ 69 → parenDepth body ≤ maxParens) ∧
      ∃ ts mark n, tokenize source = .ok (ts ++ [mark]) ∧ SumPhrase lenient n ts e ∧
        n ≤ maxNesting ∧ parenDepth body ≤ 2 * n + 3 + growth mode x e := by
  have hreadable : Readable lenient e := readable_of_parse h
  obtain ⟨-, hover⟩ := standardOver_differentiate mode hreadable.arithmetic hd
  obtain ⟨phrase, htext, hwritten⟩ := written_of_emit hover.standard hemit
  obtain ⟨ts, mark, htokens, -, hlexed, ⟨n, hn, hsum⟩, -⟩ := tokens_of_parse h
  have hdepth : parenDepth phrase.text ≤ 2 * n + 3 + growth mode x e := by
    have hsource := hsum.nesting_le hlexed
    have hplace : nesting 3 e ≤ nesting 0 e + 1 := nesting_le_succ e (by decide) (by decide)
    have hderivative :=
      nesting_differentiate hreadable.arithmetic (fun _ => hreadable.unsigned_of_subtree) hd
    rw [hwritten.parenDepth_eq]
    omega
  refine ⟨phrase.text, htext, fun hgrowth => ?_, ts, mark, n, htokens, hsum, hn, hdepth⟩
  rw [maxParens]
  omega

/-! ## Long products -/

/-- The product of so many factors `x` and one more. -/
def productChain : Nat → Tree
  | 0 => .var "x"
  | n + 1 => .binary .mul (productChain n) (.var "x")

def productText : Nat → List Char
  | 0 => ['x']
  | n + 1 => productText n ++ ['*', 'x']

/-- The derivative of the product of so many factors and two more. -/
def productSlope : Nat → Tree
  | 0 => .binary .add (.var "x") (.var "x")
  | n + 1 => .binary .add (.binary .mul (productSlope n) (.var "x")) (productChain (n + 1))

theorem tokenizesTo_productText (n : Nat) :
    TokenizesTo (productText n) fun ts => ProductPhrase false 1 ts (productChain n) := by
  have hx : TokenizesTo ['x'] fun ts => OperandPhrase false 1 ts (.var "x") := by
    have hname : isName "x" = true := by decide
    refine (tokenizesTo_name hname).imp ?_
    rintro _ ⟨t, ⟨hkind, htext⟩, rfl⟩
    have hfree : PrimaryPhrase false 0 [t] (.var t.text) :=
      .free hkind (htext ▸ by decide) (htext ▸ by decide)
    exact htext ▸ hfree.operand
  induction n with
  | zero => exact hx.imp fun _ h => .single h
  | succ n ih =>
      have hfactor := hx.sign '*' .star "*" (fun _ => rfl) (by decide)
      have hstops : Stops continuesWord ['*', 'x'] := by
        have hstar : continuesWord '*' = false := by decide
        exact hstar
      refine (ih.append hfactor hstops).imp ?_
      rintro _ ⟨ts, _, hleft, ⟨sign, us, hkind, hright, rfl⟩, rfl⟩
      exact .chain hleft (by rw [hkind]; rfl) hright

theorem height_productChain (n : Nat) : (productChain n).height = n + 1 := by
  induction n with
  | zero => rfl
  | succ n ih =>
      rw [productChain, Expr.height, ih]
      simp [Expr.height]

theorem parse_productText {n : Nat} (hn : n < maxDepth) :
    parse false (String.ofList (productText n)) = .ok (productChain n) := by
  have hphrase : TokenizesTo (productText n) fun ts => SumPhrase false 1 ts (productChain n) :=
    (tokenizesTo_productText n).imp fun _ h => .single h
  exact (parse_of_tokenizesTo hphrase (height_productChain n ▸ hn)).1 (by decide)

theorem standardOver_productChain (n : Nat) : Expr.StandardOver (· = "x") (productChain n) := by
  induction n with
  | zero => exact .var rfl
  | succ n ih => exact .binary rfl ih (.var rfl)

/-- Forward mode nests the derivative of a product once for each factor. -/
theorem forward_productChain (n : Nat) :
    forward "x" (productChain (n + 1)) = .ok (productSlope n) := by
  induction n with
  | zero => rfl
  | succ n ih =>
      have hdepends : ((productChain (n + 1)).dependsOn "x" || (Expr.var "x" : Tree).dependsOn "x") =
          true := by
        simp [Expr.dependsOn]
      have hleft : Fold.mul (productSlope n) (.var "x") =
          .binary .mul (productSlope n) (.var "x") := by
        cases n <;> rfl
      have hrule : binaryRule "x" .mul (productChain (n + 1)) (.var "x") (productSlope n) Fold.one =
          .ok (productSlope (n + 1)) := by
        rw [binaryRule, hleft]
        rfl
      rw [productChain, forward, hdepends, ih]
      exact hrule

theorem standardOver_productSlope (n : Nat) : Expr.StandardOver (· = "x") (productSlope n) :=
  (derives_of_forward (standardOver_productChain (n + 1)).standard
    (forward_productChain n)).standardOver (standardOver_productChain (n + 1))

theorem height_productSlope (n : Nat) : (productSlope n).height = 2 * n + 2 := by
  induction n with
  | zero => rfl
  | succ n ih =>
      rw [productSlope, Expr.height, Expr.height, ih, height_productChain]
      simp only [Expr.height]
      omega

theorem nesting_productChain (n : Nat) : nesting 1 (productChain n) = 0 := by
  induction n with
  | zero => rfl
  | succ n ih =>
      rw [productChain, nesting_product rfl, ih]
      rfl

/-- Each further factor puts the derivative of the others in parentheses. -/
theorem nesting_productSlope (n bound : Nat) :
    nesting bound (productSlope n) = n + parensAround 1 bound := by
  have hx : ∀ place, nesting place (.var "x") = 0 := fun _ => by rw [nesting]
  induction n generalizing bound with
  | zero => rw [productSlope, nesting_sum rfl, hx, hx, Nat.max_self]
  | succ n ih =>
      have hparens : parensAround 1 1 = 1 ∧ parensAround 2 0 = 0 := by decide
      rw [productSlope, nesting_sum rfl, nesting_product rfl, ih, hx, nesting_productChain,
        hparens.1, hparens.2]
      rfl

/-- In the code of the derivative of a product of `n + 2` factors parentheses nest `n` deep,
although the source has none. -/
theorem parenDepth_emit_productSlope [Stack] {n : Nat} (hparsed : n + 2 ≤ maxDepth)
    (hfits : n + 2 ≤ Stack.rules) (hwritten : 2 * n + 2 ≤ Stack.writing) :
    parse false (String.ofList (productText (n + 1))) = .ok (productChain (n + 1)) ∧
      differentiate .forward "x" (productChain (n + 1)) = .ok (productSlope n) ∧
      ∃ body, emit "f" "x" (productSlope n) = .ok (functionText "f" body) ∧
        parenDepth body = n := by
  have hlevels : (productChain (n + 1)).height ≤ Stack.rules := by
    rwa [height_productChain]
  have hcheck := checkCalls_of_height (standardOver_productChain (n + 1)).standard hlevels
  have hderivative : differentiate .forward "x" (productChain (n + 1)) = .ok (productSlope n) := by
    rw [differentiate, hcheck, ok_bind]
    exact forward_productChain n
  have hslope := standardOver_productSlope n
  have hname : isIdentifier "f" = true := by decide
  obtain ⟨phrase, hemit, hphrase⟩ := emit_of_height hslope.standard
    hslope.allowed_of_mem_freeVariables hname (height_productSlope n ▸ hwritten)
  refine ⟨parse_productText hparsed, hderivative, phrase.text, hemit, ?_⟩
  rw [hphrase.parenDepth_eq, nesting_productSlope]
  rfl

/-- The derivative of a product of 240 factors by forward mode has code that is too deep to
be compiled: more than 200 parentheses are open at once. -/
theorem maxParens_lt_parenDepth_productSlope :
    parse false (String.ofList (productText 239)) = .ok (productChain 239) ∧
      differentiate .forward "x" (productChain 239) = .ok (productSlope 238) ∧
      ∃ body, emit "f" "x" (productSlope 238) = .ok (functionText "f" body) ∧
        maxParens < parenDepth body := by
  obtain ⟨hparse, hderivative, body, hemit, hdepth⟩ :=
    parenDepth_emit_productSlope (n := 238) (by decide) (by decide) (by decide)
  exact ⟨hparse, hderivative, body, hemit, by rw [hdepth]; decide⟩

/-- The derivative of a product of 52 factors nests no deeper than the limit. -/
theorem parenDepth_emit_differentiate_product :
    parse false (String.ofList (productText 51)) = .ok (productChain 51) ∧
      differentiate .forward "x" (productChain 51) = .ok (productSlope 50) ∧
      growth .forward "x" (productChain 51) ≤ 69 ∧
      ∃ text, emit "f" "x" (productSlope 50) = .ok text ∧
        ∃ body, text = functionText "f" body ∧ parenDepth body ≤ maxParens := by
  obtain ⟨hparse, hderivative, body, hemit, -⟩ :=
    parenDepth_emit_productSlope (n := 50) (by decide) (by decide) (by decide)
  have hgrowth : growth .forward "x" (productChain 51) ≤ 69 := by decide +kernel
  obtain ⟨body, htext, hlimit, -⟩ := parenDepth_emit_differentiate hparse hderivative hemit
  exact ⟨hparse, hderivative, hgrowth, _, hemit, body, htext, hlimit hgrowth⟩

end Fluxion.Source
