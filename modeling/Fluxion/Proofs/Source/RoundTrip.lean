import Fluxion.Proofs.Source.Respelling

/-!
# Reading what was rendered

The text of a tree puts a pair of parentheses around every operator.  So it is read as
the tree again, and the only thing that can go wrong is that these parentheses nest too
deeply: `parse_render` says that there is nothing else, and when it happens.

The text of a tree is one primary phrase of the grammar.  The proof goes along the tree;
each constructor is written by one primary phrase around the phrases of the subtrees.
-/

namespace Fluxion.Source

open Fluxion.Decimal Fluxion.Expr Fluxion.Number Fluxion.Text

/-- How many operands lie inside one another in `a op b`, where `a` and `b` are primaries
with so many operands inside.  The exponent is one level below its power. -/
def operatorNesting : BinaryOp → Nat → Nat → Nat
  | .pow, m, n => max m (n + 1) + 1
  | _, m, n => max (m + 1) (n + 1)

mutual
/-- How many operands lie inside one another in the text of a tree. -/
def textNesting : Tree → Nat
  | .const _ => 0
  | .var _ => 0
  | .unary _ a => textNesting a + 2
  | .binary op a b => operatorNesting op (textNesting a) (textNesting b)
  | .call _ args => textNestingList args

def textNestingList : List Tree → Nat
  | [] => 0
  | a :: as => max (textNesting a + 1) (textNestingList as)
end

section Phrases

variable {lenient : Bool} {m n : Nat} {ts us : List Token} {a b : Tree}

theorem PrimaryPhrase.operand (h : PrimaryPhrase lenient n ts a) :
    OperandPhrase lenient (n + 1) ts a :=
  .power (.base h)

theorem PrimaryPhrase.sum (h : PrimaryPhrase lenient n ts a) : SumPhrase lenient (n + 1) ts a :=
  .single (.single h.operand)

/-- Two primaries with an operator between them, whichever phrase the operator makes. -/
theorem sumPhrase_operator {op : BinaryOp} {sign : Token} (ha : PrimaryPhrase lenient m ts a)
    (hop : operatorKind? op = some sign.kind) (hb : PrimaryPhrase lenient n us b) :
    SumPhrase lenient (operatorNesting op m n) (ts ++ sign :: us) (.binary op a b) := by
  cases op with
  | add => exact .chain ha.sum (by rw [← Option.some.inj hop]; rfl) (.single hb.operand)
  | sub => exact .chain ha.sum (by rw [← Option.some.inj hop]; rfl) (.single hb.operand)
  | mul =>
      exact .single (.chain (.single ha.operand) (by rw [← Option.some.inj hop]; rfl) hb.operand)
  | div =>
      exact .single (.chain (.single ha.operand) (by rw [← Option.some.inj hop]; rfl) hb.operand)
  | pow => exact .single (.single (.power (.raised ha (Option.some.inj hop).symm hb.operand)))
  | other symbol => cases hop

end Phrases

/-! ## Trees as phrases -/

section Text

variable {lenient : Bool}

/-- The text of the tree is a primary phrase for the tree. -/
def WrittenAsPrimary (lenient : Bool) (e : Tree) : Prop :=
  TokenizesTo e.renderChars fun ts => PrimaryPhrase lenient (textNesting e) ts e

theorem tokenizesTo_close :
    TokenizesTo [')'] fun ts => ∃ t, t.kind = .rparen ∧ ts = [t] :=
  (tokenizesTo_nil.sign ')' .rparen ")" (fun _ => rfl) (by decide)).imp
    fun _ ⟨t, _, hkind, hus, hts⟩ => ⟨t, hkind, hus ▸ hts⟩

theorem stops_close (rest : List Char) : Stops continuesWord (')' :: rest) := by
  have hclose : continuesWord ')' = false := by decide
  exact hclose

theorem stops_laterArgs (as : List Tree) : Stops continuesWord (laterArgs as) := by
  cases as with
  | nil => trivial
  | cons a as =>
      have hcomma : continuesWord ',' = false := by decide
      exact hcomma

theorem writtenAsPrimary_neg {a : Tree} (ha : WrittenAsPrimary lenient a) :
    WrittenAsPrimary lenient (.unary .neg a) := by
  have hinner := ((ha.append tokenizesTo_close (stops_close [])).sign '-' .minus "-"
    (fun _ => rfl) (by decide)).sign '(' .lparen "(" (fun _ => rfl) (by decide)
  refine hinner.imp ?_
  rintro _ ⟨opener, _, hopener, ⟨sign, _, hsign, ⟨ts, _, hphrase, ⟨closer, hcloser, rfl⟩, rfl⟩, rfl⟩,
    rfl⟩
  have hoperand : OperandPhrase lenient (textNesting a + 2) (sign :: ts) (.unary .neg a) :=
    .minus hsign hphrase.operand
  exact .group hopener (.single (.single hoperand)) hcloser

/-- An operation is written as a group around its operands. -/
theorem writtenAsPrimary_binary {op : BinaryOp} {a b : Tree} (hop : op.known = true)
    (ha : WrittenAsPrimary lenient a) (hb : WrittenAsPrimary lenient b) :
    WrittenAsPrimary lenient (.binary op a b) := by
  have hblank : Stops continuesWord (' ' :: op.symbol.toList ++ ' ' :: (renderChars b ++ [')'])) := by
    have hspace : continuesWord ' ' = false := by decide
    exact hspace
  have hinner := (ha.append ((hb.append tokenizesTo_close (stops_close [])).operator hop)
    hblank).sign '(' .lparen "(" (fun _ => rfl) (by decide)
  rw [WrittenAsPrimary, renderChars]
  simp only [List.cons_append, List.append_assoc] at hinner ⊢
  refine hinner.imp ?_
  rintro _ ⟨opener, _, hopener, ⟨ts, _, hleft, ⟨sign, _, hsign, ⟨us, _, hright,
    ⟨closer, hcloser, rfl⟩, rfl⟩, rfl⟩, rfl⟩, rfl⟩
  have hsum := sumPhrase_operator hleft hsign hright
  simpa [textNesting] using PrimaryPhrase.group hopener hsum hcloser

/-- The arguments behind the first one go on with its list. -/
theorem tokenizesTo_laterArgs {as : List Tree} (has : ∀ a ∈ as, WrittenAsPrimary lenient a) :
    TokenizesTo (laterArgs as) fun us => ∀ {m ts before},
      ArgumentsPhrase lenient m ts before →
        ArgumentsPhrase lenient (max m (textNestingList as)) (ts ++ us) (before ++ as) := by
  induction as with
  | nil =>
      refine tokenizesTo_nil.imp ?_
      rintro _ rfl m ts before h
      simpa [textNestingList] using h
  | cons a as ih =>
      obtain ⟨ha, hlater⟩ := List.forall_mem_cons.mp has
      have hpiece := (ha.append (ih hlater) (stops_laterArgs as)).blank.sign ',' .comma ","
        (fun _ => rfl) (by decide)
      rw [laterArgs, renderArgs_cons]
      refine hpiece.imp ?_
      rintro _ ⟨comma, _, hcomma, ⟨us, vs, hphrase, hrest, rfl⟩, rfl⟩ m ts before h
      have hmore := hrest (.more h hcomma hphrase.sum)
      rw [textNestingList, ← Nat.max_assoc]
      simpa using hmore

/-- A call is written as its name and its arguments in parentheses. -/
theorem writtenAsPrimary_call {name : String} {args : List Tree} (hname : isName name = true)
    (hargs : ∀ a ∈ args, WrittenAsPrimary lenient a) (hnonempty : args ≠ [])
    (hcallable : Callable lenient name args.length) :
    WrittenAsPrimary lenient (.call name args) := by
  obtain ⟨a, as, rfl⟩ := List.exists_cons_of_ne_nil hnonempty
  obtain ⟨ha, hlater⟩ := List.forall_mem_cons.mp hargs
  have hbehind : Stops continuesWord (laterArgs as ++ [')']) :=
    stops_append (stops_laterArgs as) (stops_close [])
  have hopen : Stops continuesWord ('(' :: (renderChars a ++ (laterArgs as ++ [')']))) := by
    have hparen : continuesWord '(' = false := by decide
    exact hparen
  have hinner := (ha.append ((tokenizesTo_laterArgs hlater).append tokenizesTo_close
    (stops_close [])) hbehind).sign '(' .lparen "(" (fun _ => rfl) (by decide)
  have hcall := (tokenizesTo_name hname).append hinner hopen
  rw [WrittenAsPrimary, renderChars, renderArgs_cons]
  simp only [List.cons_append, List.append_assoc] at hcall ⊢
  refine hcall.imp ?_
  rintro _ ⟨_, _, ⟨token, ⟨hkind, rfl⟩, rfl⟩, ⟨opener, _, hopener, ⟨ts, _, hfirst,
    ⟨us, _, hrest, ⟨closer, hcloser, rfl⟩, rfl⟩, rfl⟩, rfl⟩, rfl⟩
  have harguments := hrest (.single hfirst.sum)
  simpa [textNesting, textNestingList] using
    PrimaryPhrase.call hkind hopener harguments hcloser hcallable

/-- What phrases make is written as a primary phrase again, unless it holds infinity,
whose text is a name. -/
theorem Readable.writtenAsPrimary {e : Tree} (h : Readable lenient e)
    (hfinite : e.hasInfinity = false) : WrittenAsPrimary lenient e := by
  induction h with
  | const hc =>
      rcases hc with rfl | ⟨m, e, hvalue⟩
      · exact absurd hfinite (by rw [hasInfinity, isInfinite_infinity]; decide)
      · exact (tokenizesTo_float hvalue).imp fun ts ⟨t, ⟨hkind, hread⟩, hts⟩ =>
          hts ▸ .number hkind hread
  | var hname hconstant hfunction =>
      refine (tokenizesTo_name hname).imp ?_
      rintro _ ⟨t, ⟨hkind, rfl⟩, rfl⟩
      exact .free hkind hconstant hfunction
  | neg _ ih => exact writtenAsPrimary_neg (ih hfinite)
  | binary hop _ _ iha ihb =>
      obtain ⟨ha, hb⟩ := Bool.or_eq_false_iff.mp hfinite
      exact writtenAsPrimary_binary hop (iha ha) (ihb hb)
  | @call _ args hname _ hnonempty hcallable ih =>
      have hargs : args.any hasInfinity = false := anyHasInfinity_eq_any args ▸ hfinite
      exact writtenAsPrimary_call hname (fun a ha => ih a ha
        (Bool.eq_false_iff.mpr (List.any_eq_false.mp hargs a ha))) hnonempty hcallable

end Text

/-! ## Reading the text -/

/-- A text whose tokens are a phrase is read, or refused for the bound on nesting. -/
theorem parse_of_tokenizesTo {lenient : Bool} {n : Nat} {cs : List Char} {e : Tree}
    (h : TokenizesTo cs fun ts => SumPhrase lenient n ts e) (hheight : e.height ≤ maxDepth) :
    (n ≤ maxNesting → parse lenient (String.ofList cs) = .ok e) ∧
      (maxNesting < n → NestsTooDeep (parse lenient (String.ofList cs))) := by
  obtain ⟨ts, next, hphrase, -, htokens⟩ := h 0 [] trivial
  have htokenize : tokenize (String.ofList cs) = .ok (ts ++ [endMark next]) := by
    rw [tokenize, String.toList_ofList, ← List.append_nil cs, htokens, tokenizeFrom]
    rfl
  exact parse_of_sumPhrase htokenize hphrase hheight

/-- What was read from a text and rendered is read as the same tree, or refused because
the text nests too deeply, which depends on the tree alone.  Infinity is set apart: it is
rendered as a name. -/
theorem parse_render {lenient : Bool} {source : String} {e : Tree}
    (h : parse lenient source = .ok e) (hfinite : e.hasInfinity = false) :
    (textNesting e < maxNesting ∧ parse lenient e.render = .ok e) ∨
      (maxNesting ≤ textNesting e ∧ ∃ error, parse lenient e.render = .error (.rejected error) ∧
        error.cause.kind = .nestingTooDeep) := by
  have hreadable : Readable lenient e := readable_of_parse h
  obtain ⟨body, -, -, hheight⟩ := denotes_of_parse h
  have hwritten : TokenizesTo e.renderChars fun ts => SumPhrase lenient (textNesting e + 1) ts e :=
    (hreadable.writtenAsPrimary hfinite).imp fun _ hphrase => hphrase.sum
  obtain ⟨hread, hrefused⟩ :=
    parse_of_tokenizesTo hwritten hheight
  rcases Nat.lt_or_ge (textNesting e) maxNesting with hdeep | hdeep
  · exact .inl ⟨hdeep, hread hdeep⟩
  · obtain ⟨error, herror, hcause⟩ := hrefused (Nat.lt_succ_of_le hdeep)
    exact .inr ⟨hdeep, error, herror, by rw [hcause]; rfl⟩

def raisedCallTokens : List Token :=
  [⟨.name, "f", 0, 1⟩, ⟨.lparen, "(", 1, 2⟩, ⟨.name, "x", 2, 3⟩, ⟨.comma, ",", 3, 4⟩,
    ⟨.number, "1e-5", 5, 9⟩, ⟨.rparen, ")", 9, 10⟩, ⟨.caret, "^", 10, 11⟩, ⟨.minus, "-", 11, 12⟩,
    ⟨.number, "2", 12, 13⟩, endMark 13]

/-- The tree of `f(x, 1e-5)^-2`. -/
def raisedCall : Tree :=
  .binary .pow (.call "f" [.var "x", .const 1e-5]) (.unary .neg (.const 2))

theorem parse_raisedCall : parse true "f(x, 1e-5)^-2" = .ok raisedCall := by
  have htokens : tokenize "f(x, 1e-5)^-2" = .ok raisedCallTokens := by cbv
  have htree : ofTokens true raisedCallTokens = .ok raisedCall := by rfl
  exact parse_of_tokenize (by decide) htokens htree (by decide)

/-- The text of `f(x, 1e-5)^-2` is `(f(x, 1e-05) ^ (-2.0))`, and this is read as the same
tree. -/
theorem parse_render_raisedCall :
    parse true "f(x, 1e-5)^-2" = .ok raisedCall ∧ raisedCall.hasInfinity = false ∧
      textNesting raisedCall < maxNesting ∧ parse true raisedCall.render = .ok raisedCall := by
  have hfinite : raisedCall.hasInfinity = false := by decide
  rcases parse_render parse_raisedCall hfinite with hsame | ⟨hdeep, -⟩
  · exact ⟨parse_raisedCall, hfinite, hsame⟩
  · exact absurd hdeep (by decide)

end Fluxion.Source
