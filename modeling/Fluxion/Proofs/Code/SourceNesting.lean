import Fluxion.Proofs.Code.Nesting
import Fluxion.Proofs.Source.Tokens

/-!
# The nesting of code and the nesting of its source

Each pair of parentheses in the code of a tree is charged to an operand of the source that
the tree was read from.  An operand pays for two pairs: one around a group or a call in it,
and one that a sign or a power writes.  Sums and products pay for nothing, however long
they are, since they are grouped to the left and written without parentheses.

The proof goes along the phrases of the grammar.  What is bounded for each kind of phrase
is the nesting in a place that asks for as much strength as this kind has.
-/

namespace Fluxion.Source

open Fluxion.Code Fluxion.Text

theorem operatorStrength?_of_sumOp? {kind : TokenKind} {op : BinaryOp}
    (h : sumOp? kind = some op) : operatorStrength? op = some 1 := by
  unfold sumOp? at h
  split at h <;> cases h <;> rfl

theorem operatorStrength?_of_productOp? {kind : TokenKind} {op : BinaryOp}
    (h : productOp? kind = some op) : operatorStrength? op = some 2 := by
  unfold productOp? at h
  split at h <;> cases h <;> rfl

theorem nestingList_append (as : List Tree) (e : Tree) :
    nestingList (as ++ [e]) = max (nestingList as) (nesting 0 e) := by
  induction as with
  | nil => simp [nestingList]
  | cons a as ih => rw [List.cons_append, nestingList, ih, nestingList, Nat.max_assoc]

mutual

/-- Each level of nesting in a source makes up for two pairs of parentheses in its code. -/
theorem SumPhrase.nesting_le {lenient : Bool} : ∀ {n : Nat} {ts : List Token} {e : Tree},
    SumPhrase lenient n ts e → (∀ t ∈ ts, Lexed t) → nesting 0 e + 2 ≤ 2 * n
  | _, _, e, .single h, hts => by
      have hproduct := h.nesting_le hts
      have hplace : nesting 0 e ≤ nesting 1 e := nesting_mono (by decide) (by decide)
      omega
  | _, _, _, .chain ha hop hb, hts => by
      obtain ⟨hbefore, hbehind⟩ := List.forall_mem_append.mp hts
      have hleft := ha.nesting_le hbefore
      have hright := hb.nesting_le (List.forall_mem_cons.mp hbehind).2
      rw [nesting_sum (operatorStrength?_of_sumOp? hop), parensAround_of_lt (by decide)]
      omega

theorem ProductPhrase.nesting_le {lenient : Bool} : ∀ {n : Nat} {ts : List Token} {e : Tree},
    ProductPhrase lenient n ts e → (∀ t ∈ ts, Lexed t) → nesting 1 e + 2 ≤ 2 * n
  | _, _, e, .single h, hts => by
      have hoperand := h.nesting_le hts
      have hplace : nesting 1 e ≤ nesting 2 e := nesting_mono (by decide) (by decide)
      omega
  | _, _, _, .chain ha hop hb, hts => by
      obtain ⟨hbefore, hbehind⟩ := List.forall_mem_append.mp hts
      have hleft := ha.nesting_le hbefore
      have hright := hb.nesting_le (List.forall_mem_cons.mp hbehind).2
      rw [nesting_product (operatorStrength?_of_productOp? hop), parensAround_of_lt (by decide)]
      omega

theorem OperandPhrase.nesting_le {lenient : Bool} : ∀ {n : Nat} {ts : List Token} {e : Tree},
    OperandPhrase lenient n ts e → (∀ t ∈ ts, Lexed t) → nesting 2 e + 2 ≤ 2 * n
  | _, _, _, @OperandPhrase.minus _ _ _ _ a _ ha, hts => by
      -- a sign behind a sign is put in parentheses, and this is one pair
      have hoperand := ha.nesting_le (List.forall_mem_cons.mp hts).2
      have hplace : nesting 3 a ≤ nesting 2 a + 1 := nesting_le_succ a (by decide) (by decide)
      rw [nesting_unary, parensAround_of_lt (by decide)]
      omega
  | _, _, _, .plus _ ha, hts => by
      have hoperand := ha.nesting_le (List.forall_mem_cons.mp hts).2
      omega
  | _, _, _, .power h, hts => by
      have hpower := h.nesting_le hts
      omega

theorem PowerPhrase.nesting_le {lenient : Bool} : ∀ {n : Nat} {ts : List Token} {e : Tree},
    PowerPhrase lenient n ts e → (∀ t ∈ ts, Lexed t) → nesting 2 e ≤ 2 * n
  | _, _, e, .base h, hts => by
      have hprimary := h.nesting_le hts
      have hplace : nesting 2 e ≤ nesting 3 e := nesting_mono (by decide) (by decide)
      omega
  | _, _, _, @PowerPhrase.raised _ _ _ _ _ _ a b ha _ hb, hts => by
      obtain ⟨hbefore, hbehind⟩ := List.forall_mem_append.mp hts
      have hbase := ha.nesting_le hbefore
      have hexponent := hb.nesting_le (List.forall_mem_cons.mp hbehind).2
      have hleft : nesting 0 a ≤ nesting 3 a := nesting_mono (by decide) (by decide)
      have hright : nesting 0 b ≤ nesting 2 b := nesting_mono (by decide) (by decide)
      have hinteger := exponentNesting_le b
      rw [nesting_pow]
      omega

theorem PrimaryPhrase.nesting_le {lenient : Bool} : ∀ {n : Nat} {ts : List Token} {e : Tree},
    PrimaryPhrase lenient n ts e → (∀ t ∈ ts, Lexed t) → nesting 3 e ≤ 2 * n - 1
  | _, _, _, .number ht hvalue, hts => by
      have hunsigned := (hts _ List.mem_cons_self).unsigned_of_number ht _ hvalue
      rw [nesting, constantNesting_of_unsigned hunsigned]
  | _, _, _, .constant _ hvalue, _ => by
      rw [nesting, constantNesting_of_unsigned (unsigned_of_namedConstant? hvalue)]
  | _, _, _, .free _ _ _, _ => by
      rw [nesting]
  | _, _, e, .group _ he _, hts => by
      obtain ⟨hinner, -⟩ := List.forall_mem_append.mp (List.forall_mem_cons.mp hts).2
      have hsum := he.nesting_le hinner
      have hplace : nesting 3 e ≤ nesting 0 e + 1 := nesting_le_succ e (by decide) (by decide)
      omega
  | _, _, _, .call _ _ hargs _ _, hts => by
      obtain ⟨-, hbehind⟩ := List.forall_mem_cons.mp (List.forall_mem_cons.mp hts).2
      have harguments := hargs.nestingList_le (List.forall_mem_append.mp hbehind).1
      rw [nesting]
      omega

theorem ArgumentsPhrase.nestingList_le {lenient : Bool} :
    ∀ {n : Nat} {ts : List Token} {args : List Tree}, ArgumentsPhrase lenient n ts args →
      (∀ t ∈ ts, Lexed t) → nestingList args + 2 ≤ 2 * n
  | _, _, _, .single h, hts => by
      have hargument := h.nesting_le hts
      rw [nestingList, nestingList, Nat.max_zero]
      exact hargument
  | _, _, _, .more hargs _ he, hts => by
      obtain ⟨hbefore, hbehind⟩ := List.forall_mem_append.mp hts
      have hfirst := hargs.nestingList_le hbefore
      have hlast := he.nesting_le (List.forall_mem_cons.mp hbehind).2
      rw [nestingList_append]
      omega

end

/-- A tree that was read with unknown functions refused is a standard one. -/
theorem Readable.standard {e : Tree} (h : Readable false e) : e.Standard := by
  induction h with
  | @const c _ => exact .const c
  | @var name _ _ _ => exact .var name
  | neg _ ih => exact .neg ih
  | binary hop _ _ iha ihb => exact .binary hop iha ihb
  | @call name args _ _ _ hcallable ih =>
      rw [Callable] at hcallable
      split at hcallable
      · next f hname =>
          obtain ⟨a, rfl⟩ := List.length_eq_one_iff.mp hcallable
          rw [← Function.name_of_ofName? hname]
          exact .call f (ih a List.mem_cons_self)
      · cases hcallable

/-- How deep the parentheses nest in the code of what was read: two pairs for each of the
nested operands of the source but the innermost, and so 126 at most. -/
theorem parenDepth_emit [Stack] {source name x text : String} {e : Tree}
    (h : parse false source = .ok e) (hemit : emit name x e = .ok text) :
    ∃ body, text = functionText name body ∧ parenDepth body ≤ 126 ∧
      ∃ ts mark n, tokenize source = .ok (ts ++ [mark]) ∧ SumPhrase false n ts e ∧
        n ≤ maxNesting ∧ parenDepth body ≤ 2 * (n - 1) := by
  obtain ⟨phrase, htext, hwritten⟩ := written_of_emit (readable_of_parse h).standard hemit
  obtain ⟨ts, mark, htokens, -, hlexed, ⟨n, hn, hsum⟩, -⟩ := tokens_of_parse h
  have hnesting := hsum.nesting_le hlexed
  refine ⟨phrase.text, htext, ?_, ts, mark, n, htokens, hsum, hn, ?_⟩ <;>
    rw [hwritten.parenDepth_eq] <;> omega

/-- The tree of `x*(x + 1)`. -/
def groupedSum : Tree :=
  .binary .mul (.var "x") (.binary .add (.var "x") (.const 1))

def groupedSumTokens : List Token :=
  [⟨.name, "x", 0, 1⟩, ⟨.star, "*", 1, 2⟩, ⟨.lparen, "(", 2, 3⟩, ⟨.name, "x", 3, 4⟩,
    ⟨.plus, "+", 5, 6⟩, ⟨.number, "1", 7, 8⟩, ⟨.rparen, ")", 8, 9⟩, endMark 9]

theorem parse_groupedSum : parse false "x*(x + 1)" = .ok groupedSum := by
  have htokens : tokenize "x*(x + 1)" = .ok groupedSumTokens := by cbv
  have htree : ofTokens false groupedSumTokens = .ok groupedSum := by rfl
  exact parse_of_tokenize (by decide) htokens htree (by decide)

/-- The code of `x*(x + 1)` keeps the parentheses of its source, within the bound. -/
theorem parenDepth_emit_groupedSum :
    parse false "x*(x + 1)" = .ok groupedSum ∧ ∃ text, emit "f" "x" groupedSum = .ok text ∧
      ∃ body, text = functionText "f" body ∧ parenDepth body ≤ 126 := by
  have hstandard : groupedSum.Standard := (readable_of_parse parse_groupedSum).standard
  have hname : isIdentifier "f" = true := by decide
  have hvariables : ∀ y ∈ groupedSum.freeVariables, y = "x" := by decide
  obtain ⟨phrase, hemit, -⟩ := emit_of_height hstandard hvariables hname (by decide)
  obtain ⟨body, htext, hdepth, -⟩ := parenDepth_emit parse_groupedSum hemit
  exact ⟨parse_groupedSum, _, hemit, body, htext, hdepth⟩

end Fluxion.Source
