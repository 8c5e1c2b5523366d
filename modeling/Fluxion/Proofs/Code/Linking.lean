import Fluxion.Kernel.Compiler
import Fluxion.Proofs.Calculus.Closure
import Fluxion.Proofs.Code.Module
import Fluxion.Proofs.Code.Writing

/-!
# Derivatives become code that links

A tree whose calls are in the table of functions is written without a name that would have to
be resolved: functions, powers and numbers without a literal are all in the default link table
(`linked_of_phraseOf`).  Derivatives are such trees, whatever number of arguments the calls of
the given tree have, so code for a derivative can fail for its depth only.
-/

namespace Fluxion.Code

open Fluxion.Calculus Fluxion.Decimal Fluxion.Kernel Fluxion.Number Fluxion.Text

/-- A name that code may use: the argument, or a symbol of the default link table. -/
def IsLinked (symbol : String) : Prop :=
  symbol = argumentName ∨ symbol ∈ defaultLinkTable.map Prod.fst

/-- The text becomes lexemes in front of every separator, and its names are linked. -/
def Linked (text : List Char) : Prop :=
  ∃ ls, LexesTo text ls ∧ ∀ symbol, Lexeme.name symbol ∈ ls → IsLinked symbol

section Pieces

variable {text text' : List Char}

theorem linked_nil : Linked [] :=
  ⟨[], lexesTo_nil, by simp⟩

/-- Texts may follow each other if a separator is between them. -/
theorem Linked.append (h : Linked text) (h' : Linked text') (hseparated : Separated text') :
    Linked (text ++ text') := by
  obtain ⟨ls, hlexes, hnames⟩ := h
  obtain ⟨ls', hlexes', hnames'⟩ := h'
  refine ⟨ls ++ ls', hlexes.append hlexes' hseparated, fun symbol hsymbol => ?_⟩
  exact (List.mem_append.mp hsymbol).elim (hnames symbol) (hnames' symbol)

theorem Linked.blank (h : Linked text) : Linked (' ' :: text) := by
  obtain ⟨ls, hlexes, hnames⟩ := h
  exact ⟨ls, hlexes.blank, hnames⟩

theorem Linked.punctuation {c : Char} (h : Linked text) (hc : isPunctuation c = true) :
    Linked (c :: text) := by
  obtain ⟨ls, hlexes, hnames⟩ := h
  refine ⟨.punctuation c :: ls, hlexes.punctuation hc, fun symbol hsymbol => ?_⟩
  exact hnames symbol (by simpa using hsymbol)

theorem linked_name {symbol : String} (hsymbol : isIdentifier symbol = true)
    (hlinked : IsLinked symbol) : Linked symbol.toList := by
  refine ⟨[.name symbol], lexesTo_name hsymbol, fun other hother => ?_⟩
  obtain rfl : other = symbol := by simpa using hother
  exact hlinked

theorem Linked.group (h : Linked text) : Linked ('(' :: (text ++ [')'])) :=
  (h.append (linked_nil.punctuation rfl) (by simp [Separated])).punctuation rfl

theorem Linked.wrap {phrase : Phrase} (h : Linked phrase.text) (needed : Bool) :
    Linked (wrap phrase needed) := by
  cases needed with
  | false => exact h
  | true => exact h.group

theorem Linked.pair (h : Linked text) (h' : Linked text') :
    Linked (text ++ ',' :: ' ' :: text') :=
  h.append (h'.blank.punctuation rfl) (by simp [Separated])

/-- A linked symbol in front of what stands in parentheses. -/
theorem Linked.applied {symbol : String} (hsymbol : isIdentifier symbol = true)
    (hlinked : IsLinked symbol) (h : Linked text) :
    Linked (symbol.toList ++ '(' :: (text ++ [')'])) :=
  (linked_name hsymbol hlinked).append h.group (by simp [Separated])

end Pieces

/-! ## Words -/

/-- A name that code may use, by cases. -/
theorem isLinked_iff {symbol : String} :
    IsLinked symbol ↔ symbol = argumentName ∨ symbol = powerSymbol ∨ symbol = "inf" ∨
      symbol = "nan" ∨ ∃ f : Function, symbol = f.name := by
  have hfunctions : symbol ∈ (Function.all.map fun f => (f.name, Value.function f)).map Prod.fst ↔
      ∃ f : Function, symbol = f.name := by
    simp only [List.map_map, List.mem_map, Function.mem_all, true_and, Function.comp_apply,
      eq_comm (a := symbol)]
  rw [IsLinked, defaultLinkTable, List.map_append, List.mem_append, hfunctions]
  simp only [List.map_cons, List.map_nil, List.mem_cons, List.not_mem_nil, or_false]
  exact or_congr_right (or_comm.trans (by rw [or_assoc, or_assoc]))

theorem isLinked_function (f : Function) : IsLinked f.name :=
  isLinked_iff.mpr (.inr (.inr (.inr (.inr ⟨f, rfl⟩))))

theorem isLinked_power : IsLinked powerSymbol :=
  isLinked_iff.mpr (.inr (.inl rfl))

theorem linked_argument : Linked argumentName.toList :=
  linked_name (by decide) (.inl rfl)

theorem linked_float {x : Numeral} (hx : IsFloatNumeral x) : Linked x.text :=
  ⟨[.float x.value], lexesTo_float hx, by simp⟩

theorem linked_constant (c : Float) : Linked (constantChars c) := by
  have hnan : Linked "nan".toList := linked_name (by decide) (.inr (by decide))
  have hinf : Linked "inf".toList := linked_name (by decide) (.inr (by decide))
  rw [constantChars]
  cases hc : Binary64.ofFloat c with
  | nan => exact hnan
  | infinite negative =>
      cases negative with
      | false => exact hinf
      | true => exact (hinf.punctuation rfl).group
  | finite negative m e =>
      obtain ⟨x, hx, htext, -⟩ := floatChars_finite hc
      have hnumeral : Linked x.text := linked_float hx
      rw [htext]
      cases negative with
      | false => exact hnumeral
      | true => exact (hnumeral.punctuation rfl).group

theorem linked_integerExponent (n : Int) : Linked (integerChars n) := by
  have hdigits : Linked (digitChars n.natAbs) := ⟨[.integer n.natAbs], lexesTo_integer _, by simp⟩
  rw [integerChars]
  split_ifs
  · exact (hdigits.punctuation rfl).group
  · exact hdigits

/-! ## Phrases -/

theorem linked_operation {op : BinaryOp} {strength : Nat}
    (hop : operatorStrength? op = some strength)
    {text text' : List Char} (h : Linked text) (h' : Linked text') :
    Linked (text ++ ' ' :: op.symbol.toList ++ ' ' :: text') := by
  have hsign : ∀ {c : Char}, op.symbol.toList = [c] → isPunctuation c = true →
      Linked (text ++ ' ' :: op.symbol.toList ++ ' ' :: text') := by
    intro c hsymbol hc
    rw [hsymbol]
    simpa using h.append ((h'.blank.punctuation hc).blank) (Or.inl rfl)
  cases op with
  | add => exact hsign rfl rfl
  | sub => exact hsign rfl rfl
  | mul => exact hsign rfl rfl
  | div => exact hsign rfl rfl
  | pow => cases hop
  | other symbol => cases hop

section Trees

variable {name : String} {levels : Nat}

theorem linked_exponent {e : Expr Float} {text : List Char}
    (hphrase : ∀ {phrase}, phraseOf name levels e = .ok phrase → Linked phrase.text)
    (h : exponentOf name levels e = .ok text) : Linked text := by
  rw [exponentOf] at h
  cases hn : integerExponent? e with
  | some n =>
      rw [hn] at h
      obtain rfl := Except.ok.inj h
      exact linked_integerExponent n
  | none =>
      rw [hn] at h
      obtain ⟨phrase, hp, h⟩ := bind_eq_ok.mp h
      obtain rfl := Except.ok.inj h
      exact hphrase hp

theorem linked_arguments {args : List (Expr Float)} {text : List Char}
    (hphrase : ∀ a ∈ args, ∀ {phrase}, phraseOf name levels a = .ok phrase → Linked phrase.text)
    (h : argumentsOf name levels args = .ok text) : Linked text := by
  induction args generalizing text with
  | nil =>
      rw [argumentsOf] at h
      obtain rfl := Except.ok.inj h
      exact linked_nil
  | cons a rest ih =>
      cases rest with
      | nil =>
          rw [argumentsOf] at h
          obtain ⟨phrase, hp, h⟩ := bind_eq_ok.mp h
          obtain rfl := Except.ok.inj h
          exact hphrase a List.mem_cons_self hp
      | cons b rest =>
          rw [argumentsOf] at h
          obtain ⟨phrase, hp, h⟩ := bind_eq_ok.mp h
          obtain ⟨others, hothers, h⟩ := bind_eq_ok.mp h
          obtain rfl := Except.ok.inj h
          have hrest := ih (fun c hc => hphrase c (List.mem_cons_of_mem a hc)) hothers
          exact (hphrase a List.mem_cons_self hp).pair hrest

/-- What is written for a tree whose calls are in the table is linked. -/
theorem linked_of_phraseOf {e : Expr Float} (he : e.Arithmetic) (hcalls : Resolved e)
    {phrase : Phrase} (h : phraseOf name levels e = .ok phrase) : Linked phrase.text := by
  induction he generalizing levels phrase with
  | const value =>
      obtain ⟨below, rfl⟩ := levels_of_phraseOf h
      rw [phraseOf] at h
      obtain rfl := Except.ok.inj h
      exact linked_constant value
  | var symbol =>
      obtain ⟨below, rfl⟩ := levels_of_phraseOf h
      rw [phraseOf] at h
      obtain rfl := Except.ok.inj h
      exact linked_argument
  | neg ha ih =>
      obtain ⟨below, rfl⟩ := levels_of_phraseOf h
      rw [phraseOf] at h
      obtain ⟨p, hp, h⟩ := bind_eq_ok.mp h
      obtain rfl := Except.ok.inj h
      have hoperand := ih (hcalls.of_mem_children List.mem_cons_self) hp
      exact (hoperand.wrap _).punctuation rfl
  | @binary op a b hop ha hb iha ihb =>
      obtain ⟨below, rfl⟩ := levels_of_phraseOf h
      have hleft : Resolved a := hcalls.of_mem_children List.mem_cons_self
      have hright : Resolved b :=
        hcalls.of_mem_children (List.mem_cons_of_mem a List.mem_cons_self)
      by_cases hpow : op = .pow
      · subst hpow
        rw [phraseOf] at h
        obtain ⟨p, hp, h⟩ := bind_eq_ok.mp h
        obtain ⟨exponent, hexponent, h⟩ := bind_eq_ok.mp h
        obtain rfl := Except.ok.inj h
        have hpair := (iha hleft hp).pair (linked_exponent (ihb hright) hexponent)
        exact hpair.applied isIdentifier_power isLinked_power
      · obtain ⟨strength, -, hstrength, -⟩ := operation_of_known hop hpow
        rw [phraseOf_operation a b hstrength] at h
        obtain ⟨p, hp, h⟩ := bind_eq_ok.mp h
        obtain ⟨q, hq, h⟩ := bind_eq_ok.mp h
        obtain rfl := Except.ok.inj h
        exact linked_operation hstrength ((iha hleft hp).wrap _) ((ihb hright hq).wrap _)
  | @call symbol args hargs ih =>
      obtain ⟨below, rfl⟩ := levels_of_phraseOf h
      obtain ⟨f, rfl⟩ := hcalls symbol args .refl
      rw [phraseOf] at h
      obtain ⟨text, htext, h⟩ := bind_eq_ok.mp h
      obtain rfl := Except.ok.inj h
      have harguments : Linked text :=
        linked_arguments (fun a ha => ih a ha (hcalls.of_mem_children ha)) htext
      simpa using harguments.applied (isIdentifier_function f) (isLinked_function f)

end Trees

/-! ## Derivatives -/

/-- Whatever an expression calls, its derivative is a standard tree over its variables, in
both modes.  If these are the argument only, the derivative is written unless it is too
deep, and all names in the body of the function are linked. -/
theorem emit_differentiate [Stack] {mode : Mode} {x : String} {e d : Expr Float} (he : e.Arithmetic)
    (h : differentiate mode x e = .ok d) :
    d.Standard ∧ (∀ y ∈ d.freeVariables, y ∈ e.freeVariables) ∧
      ((∀ y ∈ e.freeVariables, y = x) → ∀ name, isIdentifier name = true →
        (d.height ≤ Stack.writing → ∃ text, emit name x d = .ok text) ∧
        (∀ error, emit name x d = .error error → error = .compile ⟨name, .tooDeepToEmit⟩) ∧
        ∀ text, emit name x d = .ok text → ∃ body ls, text = functionText name body ∧
          lexemes text = some (headerLexemes name ++ ls) ∧
          ∀ symbol, Lexeme.name symbol ∈ ls →
            symbol = argumentName ∨ symbol ∈ defaultLinkTable.map Prod.fst) := by
  obtain ⟨-, hover⟩ := standardOver_differentiate mode he h
  have hd : d.Standard := hover.standard
  have hfree : ∀ y ∈ d.freeVariables, y ∈ e.freeVariables := hover.allowed_of_mem_freeVariables
  refine ⟨hd, hfree, fun hx name hname => ?_⟩
  have hvariables : ∀ y ∈ d.freeVariables, y = x := fun y hy => hx y (hfree y hy)
  have hemit := emit_eq hd hvariables hname
  refine ⟨fun hheight => ?_, fun error herror => ?_, fun text htext => ?_⟩
  · obtain ⟨phrase, hphrase, -⟩ := emit_of_height hd hvariables hname hheight
    exact ⟨_, hphrase⟩
  · rcases phraseOf_cases hd name Stack.writing with ⟨phrase, hphrase, -⟩ | hdeep
    · rw [hemit, hphrase] at herror
      cases herror
    · rw [hemit, hdeep] at herror
      exact (Except.error.inj herror).symm
  · obtain ⟨phrase, hphrase, rfl⟩ := phraseOf_of_emit htext
    obtain ⟨ls, hlexes, hnames⟩ := linked_of_phraseOf hd.arithmetic (resolved_of_standard hd) hphrase
    exact ⟨phrase.text, ls, rfl, lexemes_functionText hname hlexes, hnames⟩

/-- The tree of `sin(x) * x`. -/
def sineProduct : Expr Float :=
  .binary .mul (.call "sin" [.var "x"]) (.var "x")

/-- The tree of `cos(x) * x + sin(x)`. -/
def sineProductForward : Expr Float :=
  .binary .add (.binary .mul (.call "cos" [.var "x"]) (.var "x")) (.call "sin" [.var "x"])

/-- The derivative of `sin(x) * x` is written, and refers to `cos` and `sin` only. -/
theorem emit_differentiate_sineProduct :
    sineProduct.Arithmetic ∧ differentiate .forward "x" sineProduct = .ok sineProductForward ∧
      ∃ text, emit "f" "x" sineProductForward = .ok text ∧
        ∃ body ls, text = functionText "f" body ∧
          lexemes text = some (headerLexemes "f" ++ ls) ∧
          ∀ symbol, Lexeme.name symbol ∈ ls →
            symbol = argumentName ∨ symbol ∈ defaultLinkTable.map Prod.fst := by
  have htree : sineProduct.Arithmetic :=
    .binary rfl (.call (List.forall_mem_singleton.mpr (.var "x"))) (.var "x")
  have hderivative : differentiate .forward "x" sineProduct = .ok sineProductForward := by rfl
  obtain ⟨-, -, hcode⟩ := emit_differentiate htree hderivative
  obtain ⟨hwritten, -, hlinked⟩ := hcode (by decide) "f" (by decide)
  obtain ⟨text, htext⟩ := hwritten (by decide)
  exact ⟨htree, hderivative, text, htext, hlinked text htext⟩

end Fluxion.Code
