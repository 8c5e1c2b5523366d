import Fluxion.Session.Basic
import Fluxion.Proofs.Source.Strictness

/-!
# The variable of a derivative

A session is asked for a derivative with respect to a name.  What counts as such a name is
decided three times: by the check of the variable, by the parser, which makes a name a
constant, a variable or the head of a call, and by the search for the name in the tree.

The three agree but for the names of constants: `dependsOn_of_parse_iff`.  The check lets the
name of a constant pass, and a tree never depends on it, wherever it stands in the text.
-/

namespace Fluxion

open Fluxion.Text

namespace Source

/-- The names that no opening parenthesis follows, in the order in which they stand. -/
def bareNames : List Token → List Token
  | [] => []
  | t :: ts =>
      if t.kind = .name ∧ ts.head?.map Token.kind ≠ some .lparen then t :: bareNames ts
      else bareNames ts

/-- The name stands somewhere among the tokens without a parenthesis behind it, and it is not
the name of a constant. -/
def Mentions (ts : List Token) (x : String) : Prop :=
  (∃ t ∈ bareNames ts, t.text = x) ∧ namedConstant? x = none

section Names

variable {t u : Token} {ts us : List Token} {x : String}

theorem mem_of_mem_bareNames (h : t ∈ bareNames ts) : t ∈ ts ∧ t.kind = .name := by
  induction ts with
  | nil => cases h
  | cons first ts ih =>
      rw [bareNames] at h
      split_ifs at h with hfirst
      · rcases List.mem_cons.mp h with rfl | hlater
        · exact ⟨List.mem_cons_self, hfirst.1⟩
        · exact (ih hlater).imp_left (List.mem_cons_of_mem first)
      · exact (ih h).imp_left (List.mem_cons_of_mem first)

theorem bareNames_cons (h : t.kind ≠ .name) : bareNames (t :: ts) = bareNames ts := by
  rw [bareNames, if_neg fun hname => h hname.1]

theorem bareNames_called (hu : u.kind = .lparen) : bareNames (t :: u :: us) = bareNames us := by
  have hopener : u.kind ≠ .name := by
    rw [hu]
    decide
  rw [bareNames, if_neg fun hname => hname.2 (congrArg some hu), bareNames_cons hopener]

/-- A token that is neither a name nor an opening parenthesis separates names. -/
theorem bareNames_append (hname : t.kind ≠ .name) (hopener : t.kind ≠ .lparen) :
    bareNames (ts ++ t :: us) = bareNames ts ++ bareNames us := by
  induction ts with
  | nil => exact bareNames_cons hname
  | cons first ts ih =>
      have hhead : (ts ++ t :: us).head?.map Token.kind = some .lparen ↔
          ts.head?.map Token.kind = some .lparen := by
        cases ts with
        | nil => simp [hopener]
        | cons _ _ => rfl
      simp only [List.cons_append, bareNames, ne_eq, hhead, ih]
      split_ifs <;> rfl

theorem mentions_cons (h : t.kind ≠ .name) : Mentions (t :: ts) x ↔ Mentions ts x := by
  rw [Mentions, bareNames_cons h, Mentions]

theorem mentions_called (hu : u.kind = .lparen) : Mentions (t :: u :: us) x ↔ Mentions us x := by
  rw [Mentions, bareNames_called hu, Mentions]

theorem mentions_append (hname : t.kind ≠ .name) (hopener : t.kind ≠ .lparen) :
    Mentions (ts ++ t :: us) x ↔ Mentions ts x ∨ Mentions us x := by
  simp only [Mentions, bareNames_append hname hopener, List.mem_append, or_and_right, exists_or]

theorem not_mentions_nil : ¬ Mentions [] x := by
  simp [Mentions, bareNames]

/-- Nothing is mentioned by a closing parenthesis or an end mark. -/
theorem mentions_concat (hname : t.kind ≠ .name) (hopener : t.kind ≠ .lparen) :
    Mentions (ts ++ [t]) x ↔ Mentions ts x := by
  rw [mentions_append hname hopener, or_iff_left not_mentions_nil]

theorem mentions_name (ht : t.kind = .name) :
    Mentions [t] x ↔ t.text = x ∧ namedConstant? x = none := by
  simp [Mentions, bareNames, ht]

end Names

/-! ## Trees

The tree of a phrase depends on the names that its tokens mention.  The induction is on the
derivation of the phrase. -/

mutual

/-- A variable of the tree is a name among its tokens that is neither called nor a constant. -/
theorem SumPhrase.dependsOn {lenient : Bool} {x : String} :
    ∀ {n : Nat} {ts : List Token} {e : Tree}, SumPhrase lenient n ts e →
      (e.dependsOn x = true ↔ Mentions ts x)
  | _, _, _, .single h => h.dependsOn
  | _, _, _, .chain ha hop hb => by
      obtain ⟨hname, hopener⟩ := ne_name_of_sumOp? hop
      rw [Expr.dependsOn, Bool.or_eq_true, mentions_append hname hopener, ha.dependsOn,
        hb.dependsOn]

theorem ProductPhrase.dependsOn {lenient : Bool} {x : String} :
    ∀ {n : Nat} {ts : List Token} {e : Tree}, ProductPhrase lenient n ts e →
      (e.dependsOn x = true ↔ Mentions ts x)
  | _, _, _, .single h => h.dependsOn
  | _, _, _, .chain ha hop hb => by
      obtain ⟨hname, hopener⟩ := ne_name_of_productOp? hop
      rw [Expr.dependsOn, Bool.or_eq_true, mentions_append hname hopener, ha.dependsOn,
        hb.dependsOn]

theorem OperandPhrase.dependsOn {lenient : Bool} {x : String} :
    ∀ {n : Nat} {ts : List Token} {e : Tree}, OperandPhrase lenient n ts e →
      (e.dependsOn x = true ↔ Mentions ts x)
  | _, _, _, .minus hsign ha => by
      rw [Expr.dependsOn, ha.dependsOn, mentions_cons (by rw [hsign]; decide)]
  | _, _, _, .plus hsign ha => by rw [ha.dependsOn, mentions_cons (by rw [hsign]; decide)]
  | _, _, _, .power h => h.dependsOn

theorem PowerPhrase.dependsOn {lenient : Bool} {x : String} :
    ∀ {n : Nat} {ts : List Token} {e : Tree}, PowerPhrase lenient n ts e →
      (e.dependsOn x = true ↔ Mentions ts x)
  | _, _, _, .base h => h.dependsOn
  | _, _, _, .raised ha hcaret hb => by
      rw [Expr.dependsOn, Bool.or_eq_true, ha.dependsOn, hb.dependsOn,
        mentions_append (by rw [hcaret]; decide) (by rw [hcaret]; decide)]

/-- A name by itself is a constant or a variable of that name; the name of a call is not in
its arguments. -/
theorem PrimaryPhrase.dependsOn {lenient : Bool} {x : String} :
    ∀ {n : Nat} {ts : List Token} {e : Tree}, PrimaryPhrase lenient n ts e →
      (e.dependsOn x = true ↔ Mentions ts x)
  | _, _, _, .number ht _ => by
      rw [mentions_cons (by rw [ht]; decide)]
      simp [Expr.dependsOn, not_mentions_nil]
  | _, _, _, .constant ht hvalue => by
      rw [mentions_name ht]
      simp only [Expr.dependsOn, Bool.false_eq_true, false_iff, not_and]
      rintro rfl hnone
      rw [hvalue] at hnone
      cases hnone
  | _, _, _, .free ht hconstant _ => by
      rw [mentions_name ht, Expr.dependsOn, beq_iff_eq]
      exact ⟨fun hname => ⟨hname, hname ▸ hconstant⟩, And.left⟩
  | _, _, _, .group hopener he hcloser => by
      rw [he.dependsOn, mentions_cons (by rw [hopener]; decide),
        mentions_concat (by rw [hcloser]; decide) (by rw [hcloser]; decide)]
  | _, _, _, .call _ hopener hargs hcloser _ => by
      rw [Expr.dependsOn, hargs.dependsOn, mentions_called hopener,
        mentions_concat (by rw [hcloser]; decide) (by rw [hcloser]; decide)]

theorem ArgumentsPhrase.dependsOn {lenient : Bool} {x : String} :
    ∀ {n : Nat} {ts : List Token} {args : List Tree}, ArgumentsPhrase lenient n ts args →
      (Expr.dependsOnAny x args = true ↔ Mentions ts x)
  | _, _, _, .single h => by
      rw [Expr.dependsOnAny, Expr.dependsOnAny, Bool.or_false, h.dependsOn]
  | _, _, _, .more hargs hcomma he => by
      have hbefore := hargs.dependsOn (x := x)
      rw [Expr.dependsOnAny_eq_any] at hbefore ⊢
      rw [List.any_append, Bool.or_eq_true, hbefore, List.any_cons, List.any_nil, Bool.or_false,
        he.dependsOn, mentions_append (by rw [hcomma]; decide) (by rw [hcomma]; decide)]

end

/-- What is read from a text depends on the names that its tokens mention. -/
theorem dependsOn_of_parse {lenient : Bool} {source : String} {e : Tree}
    (h : parse lenient source = .ok e) {ts : List Token} (hts : tokenize source = .ok ts)
    (x : String) : e.dependsOn x = true ↔ Mentions ts x := by
  obtain ⟨body, mark, htokens, hmark, -, ⟨n, -, hsum⟩, -⟩ := tokens_of_parse h
  obtain rfl := Except.ok.inj (hts.symm.trans htokens)
  rw [hsum.dependsOn, mentions_concat (by rw [hmark]; decide) (by rw [hmark]; decide)]

end Source

namespace Session

open Source

/-- A tree that is read depends on a name other than that of a constant exactly if the name
stands in the text without a parenthesis behind it.  It depends on no name of a constant, though
every name that stands so passes as the variable of a derivative. -/
theorem dependsOn_of_parse_iff {source : String} {e : Tree} (h : parse true source = .ok e) :
    ∃ ts, tokenize source = .ok ts ∧
      (∀ x, namedConstant? x = none →
        (e.dependsOn x = true ↔ ∃ t ∈ bareNames ts, t.text = x)) ∧
      (∀ x, namedConstant? x ≠ none → e.dependsOn x = false) ∧
      ∀ t ∈ bareNames ts, checkVariable t.text = .ok () := by
  obtain ⟨body, mark, htokens, hmark, hbody, -⟩ := tokens_of_parse h
  refine ⟨body ++ [mark], htokens, fun x hx => ?_, fun x hx => ?_, fun t ht => ?_⟩
  · rw [dependsOn_of_parse h htokens, Mentions, and_iff_left hx]
  · rw [← Bool.not_eq_true, dependsOn_of_parse h htokens]
    exact fun hmentions => hx hmentions.2
  · obtain ⟨hmem, hname⟩ := mem_of_mem_bareNames ht
    rcases List.mem_append.mp hmem with hmem | hmem
    · rw [checkVariable, if_pos ((hbody t hmem).isName_of_name hname)]
    · obtain rfl := List.mem_singleton.mp hmem
      rw [hmark] at hname
      cases hname

def calledVariableTokens : List Token :=
  [⟨.name, "x", 0, 1⟩, ⟨.star, "*", 1, 2⟩, ⟨.name, "x", 2, 3⟩, ⟨.lparen, "(", 3, 4⟩,
    ⟨.name, "e", 4, 5⟩, ⟨.rparen, ")", 5, 6⟩, endMark 6]

/-- In `x*x(e)` the name of the variable is called, too, and a constant is its argument. -/
theorem dependsOn_of_parse_iff_calledVariable :
    let e : Tree := .binary .mul (.var "x") (.call "x" [.const 2.718281828459045])
    parse true "x*x(e)" = .ok e ∧ namedConstant? "x" = none ∧ namedConstant? "e" ≠ none ∧
      e.dependsOn "x" = true ∧ e.dependsOn "e" = false := by
  intro e
  have htokens : tokenize "x*x(e)" = .ok calledVariableTokens := by cbv
  have htree : ofTokens true calledVariableTokens = .ok e := by rfl
  have hparse : parse true "x*x(e)" = .ok e :=
    parse_of_tokenize (by decide) htokens htree (by decide)
  have hx : namedConstant? "x" = none := rfl
  have he : namedConstant? "e" ≠ none := by simp [namedConstant?]
  obtain ⟨ts, hts, hvariable, hconstant, -⟩ := dependsOn_of_parse_iff hparse
  obtain rfl := Except.ok.inj (htokens.symm.trans hts)
  exact ⟨hparse, hx, he, (hvariable "x" hx).mpr ⟨⟨.name, "x", 0, 1⟩, by decide, rfl⟩,
    hconstant "e" he⟩

/-- The text `e` holds the name `e`, which may be the variable of a derivative, and no
parenthesis behind it, but its tree is a constant. -/
theorem not_dependsOn_of_bareName_constant :
    let e : Tree := .const 2.718281828459045
    let t : Token := ⟨.name, "e", 0, 1⟩
    parse true "e" = .ok e ∧ checkVariable "e" = .ok () ∧
      tokenize "e" = .ok [t, endMark 1] ∧ t ∈ bareNames [t, endMark 1] ∧ t.text = "e" ∧
      e.dependsOn "e" = false := by
  intro e t
  have htokens : tokenize "e" = .ok [t, endMark 1] := by cbv
  have htree : ofTokens true [t, endMark 1] = .ok e := by rfl
  exact ⟨parse_of_tokenize (by decide) htokens htree (by decide), rfl, htokens, by decide, rfl,
    rfl⟩

end Session

end Fluxion
