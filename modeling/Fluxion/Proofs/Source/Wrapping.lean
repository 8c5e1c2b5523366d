import Fluxion.Proofs.Source.Regrouping
import Fluxion.Proofs.Source.Respelling

/-!
# Parentheses in the text

Parentheses are put into a text in front of a token and behind one.  No token goes on with a
parenthesis, so each is still the longest of its kind and the others are read as before, two
places further on at most.

So parentheses around the whole text, or around what a primary was read from, leave the tree
as it is, and the only new thing that may happen is that there is no level of nesting left.
-/

namespace Fluxion.Source

open Fluxion.Decimal Fluxion.Expr Fluxion.Text

/-- The text with parentheses around the characters between two positions. -/
def wrap (source : String) (start stop : Nat) : String :=
  String.ofList (source.toList.take start ++
    '(' :: (slice source.toList start stop ++ ')' :: source.toList.drop stop))

/-! ## In front of a parenthesis -/

def IsParenthesis (c : Char) : Prop :=
  c = '(' ∨ c = ')'

theorem stops_parenthesis {p : Char → Bool} {c : Char} {between behind behind' : List Char}
    (hc : p c = false) (h : Stops p (between ++ behind)) : Stops p (between ++ c :: behind') := by
  cases between with
  | nil => exact hc
  | cons d between => exact h

/-- What is written in front of other characters may be written in front of a parenthesis, or
with a parenthesis further behind. -/
theorem Spelled.parenthesis {kind : TokenKind} {text : String} {c : Char}
    {piece between behind : List Char} (h : Spelled kind text piece (between ++ behind))
    (hc : IsParenthesis c) (behind' : List Char) :
    Spelled kind text piece (between ++ c :: behind') := by
  have hclass : ∀ p : Char → Bool, p '(' = false → p ')' = false → p c = false := by
    intro p hopener hcloser
    rcases hc with rfl | rfl
    · exact hopener
    · exact hcloser
  cases h with
  | sign hsign hpiece hstar =>
      refine .sign hsign hpiece fun hone => ?_
      cases between with
      | nil => rcases hc with rfl | rfl <;> simp
      | cons d between => exact hstar hone
  | number hpiece hletter =>
      exact .number
        (hpiece.of_stops (fun _ => Numeral.numeralChar_of_mem) (hclass _ (by decide) (by decide)))
        (stops_parenthesis (hclass _ (by decide) (by decide)) hletter)
  | name hpiece =>
      exact .name
        (hpiece.of_stops (fun _ => isNameChar_of_isNameText) (hclass _ (by decide) (by decide)))

/-- The front of a text reads alike in front of a parenthesis. -/
theorem LaidOut.front {pos stop : Nat} {cs rest : List Char} {ts : List Token}
    (h : LaidOut pos cs ts stop rest) :
    ∃ front, cs = front ++ rest ∧ ∀ c behind, IsParenthesis c →
      ReadsAs (front ++ c :: behind) (contents ts) (c :: behind) := by
  induction h with
  | done => exact ⟨[], rfl, fun c behind _ => readsAs_nil⟩
  | @blank pos stop d cs rest ts hd h ih =>
      obtain ⟨front, rfl, hfront⟩ := ih
      exact ⟨d :: front, rfl, fun c behind hc => (hfront c behind hc).blank hd⟩
  | @token pos stop kind text piece behind rest ts hspelled h ih =>
      obtain ⟨front, rfl, hfront⟩ := ih
      refine ⟨piece ++ front, (List.append_assoc _ _ _).symm, fun c behind hc => ?_⟩
      rw [List.append_assoc]
      exact ReadsAs.token (hspelled.parenthesis hc behind) (hfront c behind hc)

theorem ReadsAs.opener {cs rest : List Char} {ks : List (TokenKind × String)}
    (h : ReadsAs cs ks rest) : ReadsAs ('(' :: cs) ((.lparen, "(") :: ks) rest := by
  have hspelled : Spelled .lparen "(" ['('] cs := .sign (by decide) (.inl rfl) (by simp)
  exact ReadsAs.token hspelled h

theorem ReadsAs.closer {cs rest : List Char} {ks : List (TokenKind × String)}
    (h : ReadsAs cs ks rest) : ReadsAs (')' :: cs) ((.rparen, ")") :: ks) rest := by
  have hspelled : Spelled .rparen ")" [')'] cs := .sign (by decide) (.inl rfl) (by simp)
  exact ReadsAs.token hspelled h

/-- A text with parentheses around some of its tokens has the tokens that one expects. -/
theorem readsAs_wrap {source : String} {start stop final : Nat} {inside behind : List Char}
    {ts us vs : List Token} (hts : LaidOut 0 source.toList ts start inside)
    (hus : LaidOut start inside us stop behind) (hvs : LaidOut stop behind vs final []) :
    ReadsAs (wrap source start stop).toList
      (contents ts ++ (.lparen, "(") :: (contents us ++ (.rparen, ")") :: contents vs)) [] := by
  obtain ⟨front, hfront, hreadFront⟩ := hts.front
  have hstart : front.length = start := by
    have hlength := hts.length_eq
    rw [hfront, List.length_append] at hlength
    omega
  obtain ⟨inner, rfl, hreadInner⟩ := hus.front
  have hstop : start + inner.length = stop := by
    have hlength := hus.length_eq
    rw [List.length_append] at hlength
    omega
  have hdrop : source.toList.drop stop = behind := by
    rw [hfront, ← List.append_assoc]
    exact List.drop_left' (by rw [List.length_append, hstart, hstop])
  have hslice : slice source.toList start stop = inner := by
    rw [hfront, ← hstop, ← hstart]
    exact slice_append_left
  rw [wrap, String.toList_ofList, hdrop, hslice, hfront, List.take_left' hstart]
  refine (hreadFront '(' _ (.inl rfl)).append (ReadsAs.opener ?_)
  exact (hreadInner ')' behind (.inr rfl)).append hvs.readsAs.closer

/-! ## Between tokens -/

section Split

variable {pos stop : Nat} {cs rest : List Char} {ts us : List Token} {t : Token}

/-- A text can be cut where a token starts. -/
theorem LaidOut.split_before (h : LaidOut pos cs (ts ++ t :: us) stop rest) :
    ∃ middle, LaidOut pos cs ts t.start middle ∧ LaidOut t.start middle (t :: us) stop rest := by
  generalize hbody : ts ++ t :: us = body at h
  induction h generalizing ts with
  | done => simp at hbody
  | blank hc h ih =>
      obtain ⟨middle, hleft, hright⟩ := ih hbody
      exact ⟨middle, .blank hc hleft, hright⟩
  | token hspelled h ih =>
      cases ts with
      | nil =>
          obtain ⟨rfl, rfl⟩ := List.cons.inj hbody
          exact ⟨_, .done, .token hspelled h⟩
      | cons first ts =>
          obtain ⟨rfl, htail⟩ := List.cons.inj hbody
          obtain ⟨middle, hleft, hright⟩ := ih htail
          exact ⟨middle, .token hspelled hleft, hright⟩

/-- A text can be cut where a token ends. -/
theorem LaidOut.split_behind (h : LaidOut pos cs (ts ++ t :: us) stop rest) :
    ∃ middle, LaidOut pos cs (ts ++ [t]) t.stop middle ∧ LaidOut t.stop middle us stop rest := by
  generalize hbody : ts ++ t :: us = body at h
  induction h generalizing ts with
  | done => simp at hbody
  | blank hc h ih =>
      obtain ⟨middle, hleft, hright⟩ := ih hbody
      exact ⟨middle, .blank hc hleft, hright⟩
  | token hspelled h ih =>
      cases ts with
      | nil =>
          obtain ⟨rfl, rfl⟩ := List.cons.inj hbody
          exact ⟨_, .token hspelled .done, h⟩
      | cons first ts =>
          obtain ⟨rfl, htail⟩ := List.cons.inj hbody
          obtain ⟨middle, hleft, hright⟩ := ih htail
          exact ⟨middle, .token hspelled hleft, hright⟩

end Split

/-! ## Trees -/

/-- The text is read as the tree, unless it nests too deeply. -/
def ReadUnlessTooDeep (lenient : Bool) (source : String) (e : Tree) : Prop :=
  parse lenient source = .ok e ∨
    ∃ error, parse lenient source = .error (.rejected error) ∧ error.cause.kind = .nestingTooDeep

theorem readUnlessTooDeep_of_readsAs {lenient : Bool} {source : String} {n : Nat}
    {body : List Token} {e : Tree} (hread : ReadsAs source.toList (contents body) [])
    (h : SumPhrase lenient n body e) (hheight : e.height ≤ maxDepth) :
    ReadUnlessTooDeep lenient source e := by
  obtain ⟨ts, stop, htokens, hcontents⟩ := hread.tokenize
  obtain ⟨hok, hrefused⟩ := parse_of_sumPhrase htokens (h.of_contents hcontents) hheight
  rcases Nat.lt_or_ge maxNesting n with hdeep | hn
  · obtain ⟨error, herror, hcause⟩ := hrefused hdeep
    exact .inr ⟨error, herror, by rw [hcause]; rfl⟩
  · exact .inl (hok hn)

/-- Parentheses around the whole text change nothing but its nesting. -/
theorem parse_wrap_whole {lenient : Bool} {source : String} {e : Tree}
    (h : parse lenient source = .ok e) :
    ReadUnlessTooDeep lenient (wrap source 0 source.toList.length) e := by
  obtain ⟨body, mark, htokens, -, -, ⟨n, -, hsum⟩, hheight⟩ := tokens_of_parse h
  obtain ⟨body', stop, hbody, hlaid⟩ := laidOut_of_tokenizeFrom htokens
  obtain ⟨rfl, -⟩ := List.append_inj' hbody rfl
  have hstop := hlaid.length_eq
  rw [List.length_nil, Nat.add_zero, Nat.zero_add] at hstop
  rw [hstop] at hlaid
  have hgroup : PrimaryPhrase lenient n
      (⟨.lparen, "(", 0, 0⟩ :: (body ++ [⟨.rparen, ")", 0, 0⟩])) e := .group rfl hsum rfl
  refine readUnlessTooDeep_of_readsAs ?_ (.single (.single (.power (.base hgroup)))) hheight
  have hread := readsAs_wrap .done hlaid .done
  rw [contents_cons, contents_append]
  exact hread

/-- Every call of the reader of primaries takes some tokens, and parentheses may be put around
what these stand for. -/
theorem parse_wrap_primary {lenient : Bool} {source : String} {e : Tree}
    {tokens ts : List Token} {left groups : Nat} (h : parse lenient source = .ok e)
    (htokens : tokenize source = .ok tokens)
    (hcalled : Called lenient tokens .primary left groups ts) :
    ∃ value us rest first last,
      primary lenient (operand lenient left) groups ts = .ok (value, rest) ∧ ts = us ++ rest ∧
      us.head? = some first ∧ us.getLast? = some last ∧
      ReadUnlessTooDeep lenient (wrap source first.start last.stop) e := by
  obtain ⟨body, mark, hbody, hmark, hlexed, ⟨n, hn, hsum⟩, hheight⟩ := tokens_of_parse h
  obtain rfl := Except.ok.inj (htokens.symm.trans hbody)
  have hread : ofTokens lenient (body ++ [mark]) = .ok e :=
    (ofTokens_eq_ok hmark fun t ht => (hlexed t ht).not_eof).mpr ⟨n, hn, hsum⟩
  obtain ⟨result, hpower⟩ := hcalled.runs hread
  obtain ⟨⟨value, rest⟩, hprimary, -⟩ := bind_eq_ok.mp hpower
  obtain ⟨k, us, -, rfl, hphrase⟩ := primary_readsOnly (operand_readsOnly _ _) _ _ _ hprimary
  obtain ⟨first, more, rfl, -⟩ := hphrase.head
  obtain ⟨init, last, hlast⟩ := (List.eq_nil_or_concat' (first :: more)).resolve_left (by simp)
  refine ⟨value, first :: more, rest, first, last, hprimary, rfl, rfl, by simp [hlast], ?_⟩
  obtain ⟨before, hsplit, hbefore⟩ := hcalled.behind
  obtain ⟨behind, rfl, hwrapped⟩ := hsum.wrapped hmark hsplit hbefore hprimary
  obtain ⟨body', stop, hbody', hlaid⟩ := laidOut_of_tokenizeFrom htokens
  obtain ⟨rfl, -⟩ := List.append_inj' hbody' rfl
  rw [List.cons_append] at hlaid
  obtain ⟨inside, hfront, hlaid⟩ := hlaid.split_before
  rw [← List.cons_append, hlast, List.append_assoc, List.singleton_append] at hlaid
  obtain ⟨final, hinner, hend⟩ := hlaid.split_behind
  rw [← hlast] at hinner
  obtain ⟨m, hsum'⟩ := hwrapped ⟨.lparen, "(", 0, 0⟩ ⟨.rparen, ")", 0, 0⟩ rfl rfl
  refine readUnlessTooDeep_of_readsAs ?_ hsum' hheight
  have hreads := readsAs_wrap hfront hinner hend
  simpa [contents, Token.content] using hreads

end Fluxion.Source
