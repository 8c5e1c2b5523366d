import Fluxion.Code.Basic
import Fluxion.Proofs.Code.Lexing
import Fluxion.Proofs.Code.Parens
import Fluxion.Proofs.Code.Reading
import Fluxion.Proofs.Code.Unbound
import Fluxion.Proofs.Decimal.ReadBack
import Fluxion.Proofs.Outcome

/-!
# Written code reads back

A written phrase spells a term at its strength: the text becomes lexemes, and the reader
of that level takes them for the term.  The parentheses of `wrap` are those that raise
a phrase to the strength its place asks for, so by induction on the tree the text of an
expression spells the code that it stands for.
-/

namespace Fluxion.Code

open Fluxion.Decimal Fluxion.Number Fluxion.Text

/-- What a phrase of a strength is read as. -/
def Reads : Nat → Nat → List Lexeme → Term → Prop
  | 0 => SumReads
  | 1 => SumReads
  | 2 => ProductReads
  | _ + 3 => FactorReads

theorem Reads.weaken {strength strength' depth : Nat} {ls : List Lexeme} {t : Term}
    (h : Reads strength depth ls t) (hle : strength' ≤ strength) : Reads strength' depth ls t := by
  match strength, strength', hle with
  | 0, 0, _ => exact h
  | 1, 0, _ => exact h
  | 1, 1, _ => exact h
  | 2, 0, _ => exact ProductReads.sum h
  | 2, 1, _ => exact ProductReads.sum h
  | 2, 2, _ => exact h
  | _ + 3, 0, _ => exact (FactorReads.product h).sum
  | _ + 3, 1, _ => exact (FactorReads.product h).sum
  | _ + 3, 2, _ => exact FactorReads.product h
  | _ + 3, _ + 3, _ => exact h

/-- The text nests its parentheses `depth` deep, becomes the lexemes, and is read as the
term where a phrase of the strength may stand. -/
structure Spelling (strength depth : Nat) (text : List Char) (ls : List Lexeme) (t : Term) :
    Prop where
  starts : ∃ c rest, text = c :: rest ∧ startsLexeme c = true
  lexes : LexesTo text ls
  balanced : Balanced depth text
  /-- Each parenthesis is a lexeme. -/
  depth_le : depth ≤ ls.length
  opens : Opens ls
  reads : Reads strength depth ls t

/-- The text is a spelling of the term. -/
def Spells (strength : Nat) (text : List Char) (t : Term) : Prop :=
  ∃ depth ls, Spelling strength depth text ls t

section Spellings

variable {strength strength' : Nat} {text text' : List Char} {a b t : Term}

/-- A phrase may stand wherever a weaker one may. -/
theorem Spells.weaken (h : Spells strength text t) (hle : strength' ≤ strength) :
    Spells strength' text t := by
  obtain ⟨depth, ls, hstarts, hlexes, hbalanced, hdepth, hopens, hreads⟩ := h
  exact ⟨depth, ls, hstarts, hlexes, hbalanced, hdepth, hopens, hreads.weaken hle⟩

/-- Parentheses make any phrase an atom. -/
theorem Spells.group (h : Spells strength text t) :
    Spells atomStrength ('(' :: (text ++ [')'])) t := by
  obtain ⟨depth, ls, _, hlexes, hbalanced, hdepth, hopens, hreads⟩ := h.weaken (Nat.zero_le _)
  have hclose : LexesTo [')'] [.punctuation ')'] := lexesTo_nil.punctuation rfl
  refine ⟨depth + 1, .punctuation '(' :: (ls ++ [.punctuation ')']), ⟨_, _, rfl, rfl⟩, ?_, ?_, ?_,
    ?_, ?_⟩
  · exact (hlexes.append hclose (by simp [Separated])).punctuation rfl
  · exact hbalanced.group
  · simp only [List.length_cons, List.length_append]
    omega
  · simp [Opens]
  · exact SumReads.group hreads hopens

/-- Parentheses stand just where the place asks for more strength. -/
theorem Spells.wrap {phrase : Phrase} {required : Nat} (hrequired : required ≤ atomStrength)
    (h : Spells phrase.strength phrase.text t) :
    Spells required (wrap phrase (decide (phrase.strength < required))) t := by
  by_cases hweak : phrase.strength < required
  · simpa [Code.wrap, hweak] using h.group.weaken hrequired
  · simpa [Code.wrap, hweak] using h.weaken (Nat.not_lt.mp hweak)

/-- The same where the place asks for more strength than `bound`. -/
theorem Spells.wrap_above {phrase : Phrase} {bound : Nat} (hbound : bound < atomStrength)
    (h : Spells phrase.strength phrase.text t) :
    Spells (bound + 1) (Code.wrap phrase (decide (phrase.strength ≤ bound))) t := by
  have hdecide : decide (phrase.strength ≤ bound) = decide (phrase.strength < bound + 1) := by
    rw [decide_eq_decide]
    exact Nat.lt_succ_iff.symm
  rw [hdecide]
  exact h.wrap hbound

theorem Spells.neg (h : Spells negStrength text a) : Spells negStrength ('-' :: text) (.neg a) := by
  obtain ⟨depth, ls, _, hlexes, hbalanced, hdepth, hopens, hreads⟩ := h
  refine ⟨depth, .punctuation '-' :: ls, ⟨_, _, rfl, rfl⟩, hlexes.punctuation rfl, ?_, ?_, ?_, ?_⟩
  · exact hbalanced.cons (by decide) (by decide)
  · exact Nat.le_succ_of_le hdepth
  · simp [Opens]
  · exact FactorReads.neg hreads

/-- A sign of an operation with blanks around it. -/
theorem Spells.operation {c : Char} {strength'' : Nat}
    (hc : isPunctuation c = true) (hplain : c ≠ '(' ∧ c ≠ ')')
    (ha : Spells strength text a) (hb : Spells strength' text' b)
    (hreads : ∀ {depth depth' ls ls'}, Reads strength depth ls a → Reads strength' depth' ls' b →
      Reads strength'' (max depth depth') (ls ++ .punctuation c :: ls') t) :
    Spells strength'' (text ++ ' ' :: c :: ' ' :: text') t := by
  obtain ⟨depth, ls, ⟨d, rest, hstarts, hd⟩, hlexes, hbalanced, hdepth, hopens, hread⟩ := ha
  obtain ⟨depth', ls', _, hlexes', hbalanced', hdepth', _, hread'⟩ := hb
  have hright : Balanced depth' (' ' :: c :: ' ' :: text') :=
    ((hbalanced'.cons (by decide) (by decide)).cons hplain.1 hplain.2).cons (by decide) (by decide)
  refine ⟨max depth depth', ls ++ .punctuation c :: ls', ?_, ?_, hbalanced.append hright, ?_,
    hopens.append, hreads hread hread'⟩
  · exact ⟨d, rest ++ ' ' :: c :: ' ' :: text', by simp [hstarts], hd⟩
  · exact hlexes.append ((hlexes'.blank.punctuation hc).blank) (Or.inl rfl)
  · simp only [List.length_append, List.length_cons]
    omega

theorem Spells.sum {c : Char} {op : ArithmeticOp} (ha : Spells 1 text a) (hb : Spells 2 text' b)
    (hop : sumOp? (.punctuation c) = some op) :
    Spells 1 (text ++ ' ' :: c :: ' ' :: text') (.binary op a b) := by
  have hc : c = '+' ∨ c = '-' := by
    rw [sumOp?.eq_def] at hop
    split at hop <;> simp_all
  apply ha.operation _ _ hb
  · intro depth depth' ls ls' hread hread'
    exact SumReads.chain hread hread' hop
  · rcases hc with rfl | rfl <;> rfl
  · rcases hc with rfl | rfl <;> decide

theorem Spells.product {c : Char} {op : ArithmeticOp} (ha : Spells 2 text a)
    (hb : Spells 3 text' b) (hop : productOp? (.punctuation c) = some op) :
    Spells 2 (text ++ ' ' :: c :: ' ' :: text') (.binary op a b) := by
  have hc : c = '*' ∨ c = '/' := by
    rw [productOp?.eq_def] at hop
    split at hop <;> simp_all
  apply ha.operation _ _ hb
  · intro depth depth' ls ls' hread hread'
    exact ProductReads.chain hread hread' hop
  · rcases hc with rfl | rfl <;> rfl
  · rcases hc with rfl | rfl <;> decide

/-! ### Words -/

theorem opens_name {symbol : String} (hsymbol : PlainName symbol) : Opens [.name symbol] := by
  refine ⟨?_, by simp⟩
  intro hlambda
  obtain rfl : symbol = "lambda" := Lexeme.name.inj hlambda
  exact absurd hsymbol.2.2 (by decide)

theorem spells_name {symbol : String} (hsymbol : PlainName symbol)
    (hidentifier : isIdentifier symbol = true) :
    Spells atomStrength symbol.toList (.name symbol) := by
  obtain ⟨c, cs, hchars, hc⟩ := starts_of_isIdentifier hidentifier
  exact ⟨0, [.name symbol], ⟨c, cs, hchars, hc⟩, lexesTo_name hidentifier,
    balanced_of_plain (plain_of_isIdentifier hidentifier), Nat.zero_le _, opens_name hsymbol,
    factorReads_name hsymbol⟩

theorem spells_integer (n : Nat) : Spells atomStrength (digitChars n) (.integer n) := by
  obtain ⟨c, cs, hchars⟩ := List.exists_cons_of_ne_nil (digitChars_ne_nil n)
  have hc : isAsciiDigit c = true :=
    isAsciiDigit_of_mem_digitChars c (hchars ▸ List.mem_cons_self)
  refine ⟨0, [.integer n], ⟨c, cs, hchars, ?_⟩, lexesTo_integer n, ?_, Nat.zero_le _, ?_, ?_⟩
  · exact (startsLexeme_of_isAsciiDigit hc).2.2
  · exact balanced_of_plain fun d hd => plain_of_isAsciiDigit (isAsciiDigit_of_mem_digitChars d hd)
  · simp [Opens]
  · exact factorReads_integer n

theorem spells_float {x : Numeral} (hx : IsFloatNumeral x) :
    Spells atomStrength x.text (.float x.value) := by
  obtain ⟨hwellFormed, hnonempty, hpart⟩ := hx
  obtain ⟨d, ds, hwhole⟩ := List.exists_cons_of_ne_nil hnonempty
  have hd : isAsciiDigit d = true := hwellFormed.whole d (by simp [hwhole])
  refine ⟨0, [.float x.value], ⟨d, _, by simp [Numeral.text, hwhole]; rfl, ?_⟩,
    lexesTo_float ⟨hwellFormed, hnonempty, hpart⟩, ?_, Nat.zero_le _, ?_, ?_⟩
  · exact (startsLexeme_of_isAsciiDigit hd).2.2
  · exact balanced_of_plain (plain_of_wellFormed hwellFormed)
  · simp [Opens]
  · exact factorReads_float x.value

/-! ### Calls -/

/-- A name in front of arguments in parentheses. -/
theorem Spells.applied {symbol : String} {depth : Nat} {ls : List Lexeme}
    (hsymbol : PlainName symbol) (hidentifier : isIdentifier symbol = true)
    (hlexes : LexesTo text ls) (hbalanced : Balanced depth text) (hdepth : depth ≤ ls.length)
    (hreads : FactorReads (depth + 1)
      (.name symbol :: .punctuation '(' :: (ls ++ [.punctuation ')'])) t) :
    Spells atomStrength (symbol.toList ++ '(' :: (text ++ [')'])) t := by
  obtain ⟨c, cs, hchars, hc⟩ := starts_of_isIdentifier hidentifier
  have hclose : LexesTo [')'] [.punctuation ')'] := lexesTo_nil.punctuation rfl
  have hargs : LexesTo ('(' :: (text ++ [')'])) (.punctuation '(' :: (ls ++ [.punctuation ')'])) :=
    (hlexes.append hclose (by simp [Separated])).punctuation rfl
  refine ⟨max 0 (depth + 1), [.name symbol] ++ .punctuation '(' :: (ls ++ [.punctuation ')']),
    ⟨c, cs ++ '(' :: (text ++ [')']), by simp [hchars], hc⟩, ?_, ?_, ?_, ?_, ?_⟩
  · exact (lexesTo_name hidentifier).append hargs (by simp [Separated])
  · exact (balanced_of_plain (plain_of_isIdentifier hidentifier)).append hbalanced.group
  · simp only [List.length_cons, List.length_append]
    omega
  · exact (opens_name hsymbol).append
  · rw [Nat.zero_max]
    exact hreads

theorem Spells.call {symbol : String} (hsymbol : PlainName symbol)
    (hidentifier : isIdentifier symbol = true) (h : Spells strength text a) :
    Spells atomStrength (symbol.toList ++ '(' :: (text ++ [')'])) (.call (.name symbol) [a]) := by
  obtain ⟨depth, ls, _, hlexes, hbalanced, hdepth, hopens, hreads⟩ := h.weaken (Nat.zero_le _)
  exact Spells.applied hsymbol hidentifier hlexes hbalanced hdepth
    (SumReads.call hsymbol hreads hopens)

theorem Spells.call_pair {symbol : String} (hsymbol : PlainName symbol)
    (hidentifier : isIdentifier symbol = true) (ha : Spells strength text a)
    (hb : Spells strength' text' b) :
    Spells atomStrength (symbol.toList ++ '(' :: (text ++ ',' :: ' ' :: text' ++ [')']))
      (.call (.name symbol) [a, b]) := by
  obtain ⟨depth, ls, _, hlexes, hbalanced, hdepth, hopens, hreads⟩ := ha.weaken (Nat.zero_le _)
  obtain ⟨depth', ls', _, hlexes', hbalanced', hdepth', hopens', hreads'⟩ :=
    hb.weaken (Nat.zero_le _)
  have hpair : LexesTo (text ++ ',' :: ' ' :: text') (ls ++ .punctuation ',' :: ls') :=
    hlexes.append (hlexes'.blank.punctuation rfl) (by simp [Separated])
  have hright : Balanced depth' (',' :: ' ' :: text') :=
    (hbalanced'.cons (by decide) (by decide)).cons (by decide) (by decide)
  apply Spells.applied hsymbol hidentifier hpair (hbalanced.append hright)
  · simp only [List.length_append, List.length_cons]
    omega
  · simpa using SumReads.call_pair hsymbol hreads hopens hreads' hopens'

end Spellings

/-! ## Expressions -/

theorem plainName_function (f : Function) : PlainName f.name := by
  cases f <;> exact ⟨by decide, by decide, by decide⟩

theorem isIdentifier_function (f : Function) : isIdentifier f.name = true := by
  cases f <;> decide

theorem plainName_power : PlainName powerSymbol :=
  ⟨by decide, by decide, by decide⟩

theorem isIdentifier_power : isIdentifier powerSymbol = true := by
  decide

theorem spells_argument : Spells atomStrength argumentName.toList (.name argumentName) :=
  spells_name ⟨by decide, by decide, by decide⟩ (by decide)

theorem spells_constant (c : Float) :
    Spells atomStrength (constantChars c) (Term.ofFloat c) := by
  have hnan : Spells atomStrength "nan".toList (.name "nan") :=
    spells_name ⟨by decide, by decide, by decide⟩ (by decide)
  have hinf : Spells atomStrength "inf".toList (.name "inf") :=
    spells_name ⟨by decide, by decide, by decide⟩ (by decide)
  rw [constantChars, Term.ofFloat]
  cases hc : Binary64.ofFloat c with
  | nan => exact hnan
  | infinite negative =>
      cases negative with
      | false => exact hinf
      | true => exact (Spells.neg (hinf.weaken (by decide))).group
  | finite negative m e =>
      obtain ⟨x, hx, htext, hvalue⟩ := floatChars_finite hc
      cases negative with
      | false =>
          have hspells := spells_float hx
          rw [htext, ← hvalue]
          exact hspells
      | true =>
          have hspells := (Spells.neg ((spells_float hx).weaken (by decide))).group
          rw [x.value_eq_neg, hvalue] at hspells
          rw [htext]
          exact hspells

theorem spells_integerExponent (n : Int) :
    Spells atomStrength (integerChars n) (Term.ofInt n) := by
  rw [integerChars, Term.ofInt]
  split_ifs
  · exact (Spells.neg ((spells_integer n.natAbs).weaken (by decide))).group
  · exact spells_integer n.natAbs

/-- How an operation is written between its operands. -/
theorem phraseOf_operation {name : String} {levels strength : Nat} {op : BinaryOp}
    (a b : Expr Float) (hop : operatorStrength? op = some strength) :
    phraseOf name (levels + 1) (.binary op a b) = do
      let p ← phraseOf name levels a
      let q ← phraseOf name levels b
      return ⟨wrap p (p.strength < strength) ++ ' ' :: op.symbol.toList ++
        ' ' :: wrap q (q.strength ≤ strength), strength⟩ := by
  have hpow : op ≠ .pow := by
    rintro rfl
    exact Option.some_ne_none strength hop.symm
  rw [phraseOf, hop]
  exact hpow

theorem operation_of_known {op : BinaryOp} (hknown : op.known = true) (hpow : op ≠ .pow) :
    ∃ strength op', operatorStrength? op = some strength ∧ Term.arithmetic? op = some op' := by
  cases op with
  | add => exact ⟨_, _, rfl, rfl⟩
  | sub => exact ⟨_, _, rfl, rfl⟩
  | mul => exact ⟨_, _, rfl, rfl⟩
  | div => exact ⟨_, _, rfl, rfl⟩
  | pow => exact absurd rfl hpow
  | other symbol => exact absurd hknown (by simp [BinaryOp.known])

/-- The left operand may be as strong as the operation; the right one has to be stronger. -/
theorem spells_operation {op : BinaryOp} {op' : ArithmeticOp} {strength : Nat} {p q : Phrase}
    {a b : Term} (hstrength : operatorStrength? op = some strength)
    (hop : Term.arithmetic? op = some op') (ha : Spells p.strength p.text a)
    (hb : Spells q.strength q.text b) :
    Spells strength (wrap p (p.strength < strength) ++ ' ' :: op.symbol.toList ++
      ' ' :: wrap q (q.strength ≤ strength)) (.binary op' a b) := by
  have hsum : ∀ {c : Char}, op.symbol.toList = [c] → sumOp? (.punctuation c) = some op' →
      Spells 1 (wrap p (p.strength < 1) ++ ' ' :: op.symbol.toList ++
        ' ' :: wrap q (q.strength ≤ 1)) (.binary op' a b) := by
    intro c hsymbol hc
    rw [hsymbol]
    simpa using Spells.sum (ha.wrap (by decide)) (hb.wrap_above (by decide)) hc
  have hproduct : ∀ {c : Char}, op.symbol.toList = [c] → productOp? (.punctuation c) = some op' →
      Spells 2 (wrap p (p.strength < 2) ++ ' ' :: op.symbol.toList ++
        ' ' :: wrap q (q.strength ≤ 2)) (.binary op' a b) := by
    intro c hsymbol hc
    rw [hsymbol]
    simpa using Spells.product (ha.wrap (by decide)) (hb.wrap_above (by decide)) hc
  cases op with
  | add =>
      obtain rfl : 1 = strength := Option.some.inj hstrength
      exact hsum rfl hop
  | sub =>
      obtain rfl : 1 = strength := Option.some.inj hstrength
      exact hsum rfl hop
  | mul =>
      obtain rfl : 2 = strength := Option.some.inj hstrength
      exact hproduct rfl hop
  | div =>
      obtain rfl : 2 = strength := Option.some.inj hstrength
      exact hproduct rfl hop
  | pow => exact absurd hstrength.symm (Option.some_ne_none strength)
  | other symbol => exact absurd hstrength.symm (Option.some_ne_none strength)

/-- An exponent is an integer or whatever it is elsewhere. -/
theorem exponentOf_spells {name : String} {e : Expr Float} {levels : Nat} {text : List Char}
    (hphrase : ∀ {phrase}, phraseOf name levels e = .ok phrase →
      ∃ t, Term.ofExpr? e = some t ∧ Spells phrase.strength phrase.text t)
    (h : exponentOf name levels e = .ok text) :
    ∃ t, Term.ofExponent? e = some t ∧ Spells 0 text t := by
  rw [exponentOf] at h
  rw [Term.ofExponent?]
  cases hn : integerExponent? e with
  | some n =>
      rw [hn] at h
      obtain rfl := Except.ok.inj h
      exact ⟨_, rfl, (spells_integerExponent n).weaken (Nat.zero_le _)⟩
  | none =>
      rw [hn] at h
      obtain ⟨phrase, hp, h⟩ := bind_eq_ok.mp h
      obtain rfl := Except.ok.inj h
      obtain ⟨t, ht, hspells⟩ := hphrase hp
      exact ⟨t, ht, hspells.weaken (Nat.zero_le _)⟩

/-- Without a level left nothing is written. -/
theorem levels_of_phraseOf {name : String} {levels : Nat} {e : Expr Float} {phrase : Phrase}
    (h : phraseOf name levels e = .ok phrase) : ∃ below, levels = below + 1 := by
  cases levels with
  | zero => simp [phraseOf] at h
  | succ below => exact ⟨below, rfl⟩

/-- What is written for a standard tree spells the term of the tree. -/
theorem phraseOf_spells {name : String} {e : Expr Float} (he : e.Standard) {levels : Nat}
    {phrase : Phrase} (h : phraseOf name levels e = .ok phrase) :
    ∃ t, Term.ofExpr? e = some t ∧ Spells phrase.strength phrase.text t := by
  induction he generalizing levels phrase with
  | const value =>
      obtain ⟨below, rfl⟩ := levels_of_phraseOf h
      obtain rfl : ⟨constantChars value, atomStrength⟩ = phrase := by simpa [phraseOf] using h
      exact ⟨_, by rw [Term.ofExpr?], spells_constant value⟩
  | var symbol =>
      obtain ⟨below, rfl⟩ := levels_of_phraseOf h
      obtain rfl : ⟨argumentName.toList, atomStrength⟩ = phrase := by simpa [phraseOf] using h
      exact ⟨_, by rw [Term.ofExpr?], spells_argument⟩
  | neg ha ih =>
      obtain ⟨below, rfl⟩ := levels_of_phraseOf h
      rw [phraseOf] at h
      obtain ⟨p, hp, h⟩ := bind_eq_ok.mp h
      obtain rfl := Except.ok.inj h
      obtain ⟨t, ht, hspells⟩ := ih hp
      refine ⟨.neg t, by simp [Term.ofExpr?, ht], ?_⟩
      have hoperand : negStrength < atomStrength := by decide
      exact ((hspells.wrap_above hoperand).weaken (Nat.le_succ _)).neg
  | @binary op a b hop ha hb iha ihb =>
      obtain ⟨below, rfl⟩ := levels_of_phraseOf h
      by_cases hpow : op = .pow
      · subst hpow
        rw [phraseOf] at h
        obtain ⟨p, hp, h⟩ := bind_eq_ok.mp h
        obtain ⟨exponent, hexponent, h⟩ := bind_eq_ok.mp h
        obtain rfl := Except.ok.inj h
        obtain ⟨s, hs, hspells⟩ := iha hp
        obtain ⟨t, ht, hspells'⟩ := exponentOf_spells ihb hexponent
        refine ⟨.call (.name powerSymbol) [s, t], by simp [Term.ofExpr?, hs, ht], ?_⟩
        simpa using Spells.call_pair plainName_power isIdentifier_power hspells hspells'
      · obtain ⟨strength, op', hstrength, hop'⟩ := operation_of_known hop hpow
        rw [phraseOf_operation a b hstrength] at h
        obtain ⟨p, hp, h⟩ := bind_eq_ok.mp h
        obtain ⟨q, hq, h⟩ := bind_eq_ok.mp h
        obtain rfl := Except.ok.inj h
        obtain ⟨s, hs, hspells⟩ := iha hp
        obtain ⟨t, ht, hspells'⟩ := ihb hq
        refine ⟨.binary op' s t, ?_, spells_operation hstrength hop' hspells hspells'⟩
        rw [Term.ofExpr?]
        · rw [hop', hs, ht]
        · exact hpow
  | call f ha ih =>
      obtain ⟨below, rfl⟩ := levels_of_phraseOf h
      rw [phraseOf] at h
      obtain ⟨args, hargs, h⟩ := bind_eq_ok.mp h
      obtain rfl := Except.ok.inj h
      rw [argumentsOf] at hargs
      obtain ⟨p, hp, hargs⟩ := bind_eq_ok.mp hargs
      obtain rfl := Except.ok.inj hargs
      obtain ⟨t, ht, hspells⟩ := ih hp
      refine ⟨.call (.name f.name) [t], by simp [Term.ofExpr?, Term.ofExprs?, ht], ?_⟩
      simpa using Spells.call (plainName_function f) (isIdentifier_function f) hspells

theorem exponentOf_of_phraseOf {name : String} {e : Expr Float} {levels : Nat} {phrase : Phrase}
    (h : phraseOf name levels e = .ok phrase) : ∃ text, exponentOf name levels e = .ok text := by
  rw [exponentOf]
  cases integerExponent? e with
  | some n => exact ⟨_, rfl⟩
  | none => exact ⟨phrase.text, by rw [h]; rfl⟩

/-- Arguments are written if each of them is, also if there are none. -/
theorem argumentsOf_of_forall {name : String} {levels : Nat} {args : List (Expr Float)}
    (h : ∀ a ∈ args, ∃ phrase, phraseOf name levels a = .ok phrase) :
    ∃ text, argumentsOf name levels args = .ok text := by
  induction args with
  | nil => exact ⟨[], by rw [argumentsOf]⟩
  | cons a rest ih =>
      obtain ⟨phrase, hphrase⟩ := h a List.mem_cons_self
      obtain ⟨text, htext⟩ := ih fun b hb => h b (List.mem_cons_of_mem a hb)
      cases rest with
      | nil => exact ⟨phrase.text, by rw [argumentsOf, hphrase]; rfl⟩
      | cons b rest => exact ⟨_, by rw [argumentsOf, hphrase, ok_bind, htext]; rfl⟩

/-- A tree over the five operators and any calls is written unless it is too deep. -/
theorem phraseOf_of_height (name : String) {e : Expr Float} (he : e.Arithmetic) {levels : Nat}
    (hlevels : e.height ≤ levels) : ∃ phrase, phraseOf name levels e = .ok phrase := by
  induction he generalizing levels with
  | const value =>
      obtain ⟨below, rfl⟩ := Expr.levels_of_height_le hlevels
      exact ⟨_, by rw [phraseOf]⟩
  | var symbol =>
      obtain ⟨below, rfl⟩ := Expr.levels_of_height_le hlevels
      exact ⟨_, by rw [phraseOf]⟩
  | neg ha ih =>
      obtain ⟨below, rfl⟩ := Expr.levels_of_height_le hlevels
      rw [Expr.height] at hlevels
      obtain ⟨p, hp⟩ := ih (Nat.le_of_succ_le_succ hlevels)
      exact ⟨_, by rw [phraseOf, hp]; rfl⟩
  | @binary op a b hop ha hb iha ihb =>
      obtain ⟨below, rfl⟩ := Expr.levels_of_height_le hlevels
      rw [Expr.height] at hlevels
      obtain ⟨hleft, hright⟩ := Nat.max_le.mp (Nat.le_of_succ_le_succ hlevels)
      obtain ⟨p, hp⟩ := iha hleft
      obtain ⟨q, hq⟩ := ihb hright
      by_cases hpow : op = .pow
      · subst hpow
        obtain ⟨exponent, hexponent⟩ := exponentOf_of_phraseOf hq
        exact ⟨_, by rw [phraseOf, hp, ok_bind, hexponent]; rfl⟩
      · obtain ⟨strength, op', hstrength, _⟩ := operation_of_known hop hpow
        exact ⟨_, by rw [phraseOf_operation a b hstrength, hp, hq]; rfl⟩
  | call hargs ih =>
      obtain ⟨below, rfl⟩ := Expr.levels_of_height_le hlevels
      rw [Expr.height] at hlevels
      obtain ⟨text, htext⟩ := argumentsOf_of_forall fun a ha =>
        ih a ha ((Expr.height_le_heightList ha).trans (Nat.le_of_succ_le_succ hlevels))
      exact ⟨_, by rw [phraseOf, htext]; rfl⟩

/-! ## Whole texts -/

/-- The term that a text is, if no more than `parens` parentheses may be open at once. -/
def readTermWithin (parens : Nat) (source : String) : Option Term :=
  match lexemes source with
  | some (.line _ :: ls) =>
      match termWithin (ls.length + 1) parens ls with
      | some (t, []) => some t
      | _ => none
  | _ => none

/-- The lexemes of a spelling are read to their end. -/
theorem Spelling.termWithin_eq {strength depth parens : Nat} {text : List Char}
    {ls : List Lexeme} {t : Term} (h : Spelling strength depth text ls t)
    (hparens : parenDepth text ≤ parens) :
    termWithin (ls.length + 1) parens ls = some (t, []) := by
  obtain ⟨_, _, hbalanced, hdepth, hopens, hreads⟩ := h
  rw [hbalanced.parenDepth_eq] at hparens
  have hsum : SumReads depth ls t := hreads.weaken (Nat.zero_le _)
  have hterm : termWithin (ls.length + 1) parens (ls ++ []) = some (t, []) := by
    apply SumReads.termWithin_eq_some hsum hopens hdepth hparens
    trivial
  rwa [List.append_nil] at hterm

/-- A spelling is read as its term if there are enough parentheses. -/
theorem Spells.readTermWithin_eq {strength : Nat} {text : List Char} {t : Term}
    (h : Spells strength text t) {parens : Nat} (hparens : parenDepth text ≤ parens) :
    readTermWithin parens (String.ofList text) = some t := by
  obtain ⟨depth, ls, hspelling⟩ := h
  have hterm := hspelling.termWithin_eq hparens
  obtain ⟨⟨c, rest, hstarts, hc⟩, hlexes, -⟩ := hspelling
  obtain ⟨opened, hfrom⟩ := hlexes 0 [] trivial
  have hlexemes : lexemes (String.ofList text) = some (.line 0 :: ls) := by
    calc
      lexemes (String.ofList text)
        = (lexemesFrom false 0 0 text).map (.line 0 :: ·) := by
          rw [lexemes, String.toList_ofList, hstarts, lexemesFrom_start 0 0 rest hc]
      _ = some (.line 0 :: ls) := by
          rw [List.append_nil] at hfrom
          rw [hfrom, lexemesFrom]
          simp
  simp only [readTermWithin, hlexemes, hterm]

/-- A tree goes to the writer as soon as the name is valid and all names in it are bound. -/
theorem emit_of_bound [Stack] {name x : String} {e : Expr Float} (hname : isIdentifier name = true)
    (hbound : unboundNames x e = []) :
    emit name x e = do
      let body ← phraseOf name Stack.writing e
      return functionText name body.text := by
  simp [emit, hname, hbound]

theorem emit_eq [Stack] {name x : String} {e : Expr Float} (he : e.Standard)
    (hvariables : ∀ y ∈ e.freeVariables, y = x) (hname : isIdentifier name = true) :
    emit name x e = do
      let body ← phraseOf name Stack.writing e
      return functionText name body.text :=
  emit_of_bound hname (unboundNames_eq_nil_iff.mpr ⟨hvariables, resolved_of_standard he⟩)

/-- What `emit` writes is a function whose body is the code of the tree: a reader with
enough parentheses reads it as nothing else. -/
theorem emit_reads_back [Stack] (name x : String) (e : Expr Float) (he : e.Standard)
    (hvariables : ∀ y ∈ e.freeVariables, y = x) :
    ∃ t, Term.ofExpr? e = some t ∧
      (isIdentifier name = true → e.height ≤ Stack.writing → ∃ text, emit name x e = .ok text) ∧
      ∀ text, emit name x e = .ok text → ∃ body, text = functionText name body ∧
        ∀ parens, parenDepth body ≤ parens →
          readTermWithin parens (String.ofList body) = some t := by
  obtain ⟨_, hphrase⟩ := phraseOf_of_height name he.arithmetic (Nat.le_refl e.height)
  obtain ⟨t, ht, _⟩ := phraseOf_spells he hphrase
  refine ⟨t, ht, ?_, ?_⟩
  · intro hname hheight
    obtain ⟨body, hbody⟩ := phraseOf_of_height name he.arithmetic hheight
    exact ⟨_, by rw [emit_eq he hvariables hname, hbody]; rfl⟩
  · intro text h
    have hname : isIdentifier name = true := by
      by_contra hname
      rw [Bool.not_eq_true] at hname
      simp [emit, hname] at h
    rw [emit_eq he hvariables hname] at h
    obtain ⟨body, hbody, h⟩ := bind_eq_ok.mp h
    obtain rfl := Except.ok.inj h
    obtain ⟨t', ht', hspells⟩ := phraseOf_spells he hbody
    obtain rfl : t = t' := Option.some.inj (ht.symm.trans ht')
    exact ⟨body.text, rfl, fun parens hparens => hspells.readTermWithin_eq hparens⟩

/-- The tree of `2.5 - (x - x^(-3))`. -/
def nestedDifference : Expr Float :=
  .binary .sub (.const 2.5) (.binary .sub (.var "x") (.binary .pow (.var "x") (.const (-3))))

def nestedDifferenceTerm : Term :=
  .binary .sub (.float 2.5) (.binary .sub (.name "_x")
    (.call (.name "pow") [.name "_x", .neg (.integer 3)]))

theorem ofExpr?_nestedDifference : Term.ofExpr? nestedDifference = some nestedDifferenceTerm := by
  have hconstant : Binary64.ofFloat 2.5 = .finite false 5629499534213120 (-51) := by
    decide
  have hexponent : integerExponent? (.const (-3)) = some (-3) := by
    decide
  simp [nestedDifference, nestedDifferenceTerm, Term.ofExpr?, Term.ofExponent?, Term.arithmetic?,
    Term.ofFloat, Term.ofInt, hconstant, hexponent, argumentName, powerSymbol]

/-- The right operand keeps its grouping when the text is read. -/
theorem emit_reads_back_nestedDifference :
    ∃ body, emit "f" "x" nestedDifference = .ok (functionText "f" body) ∧
      ∀ parens, parenDepth body ≤ parens →
        readTermWithin parens (String.ofList body) = some nestedDifferenceTerm := by
  have hstandard : nestedDifference.Standard :=
    .binary rfl (.const 2.5) (.binary rfl (.var "x") (.binary rfl (.var "x") (.const (-3))))
  obtain ⟨t, ht, hwritten, hread⟩ := emit_reads_back "f" "x" nestedDifference hstandard
    (by decide)
  obtain rfl : nestedDifferenceTerm = t :=
    Option.some.inj (ofExpr?_nestedDifference.symm.trans ht)
  obtain ⟨text, htext⟩ := hwritten (by decide) (by decide)
  obtain ⟨body, rfl, hbody⟩ := hread text htext
  exact ⟨body, htext, hbody⟩

end Fluxion.Code
