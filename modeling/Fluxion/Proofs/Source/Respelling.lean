import Fluxion.Proofs.Source.Layout
import Fluxion.Proofs.Source.Refusal

/-!
# The same tokens in another text

The grammar looks at the kinds and the texts of tokens and never at their places, so two
texts whose tokens have the same contents are read as the same tree: `parse_of_contents`.

A piece of text `ReadsAs` contents wherever it stands.  The texts of tokens, with a blank
between any two, read as the contents of these tokens again: each is the longest of its kind
in front of a blank, as it was in front of what stood there before.
-/

namespace Fluxion.Source

open Fluxion.Decimal Fluxion.Expr Fluxion.Text

def Token.content (t : Token) : TokenKind × String :=
  (t.kind, t.text)

def contents (ts : List Token) : List (TokenKind × String) :=
  ts.map Token.content

section Contents

variable {t : Token} {ts us vs : List Token}

theorem contents_append : contents (ts ++ us) = contents ts ++ contents us :=
  List.map_append

theorem contents_cons : contents (t :: ts) = t.content :: contents ts :=
  rfl

theorem exists_of_contents_cons (h : contents us = contents (t :: ts)) :
    ∃ u vs, us = u :: vs ∧ u.kind = t.kind ∧ u.text = t.text ∧ contents vs = contents ts := by
  obtain ⟨u, vs, rfl, hu, hvs⟩ := List.map_eq_cons_iff.mp h
  obtain ⟨hkind, htext⟩ := Prod.mk.inj hu
  exact ⟨u, vs, rfl, hkind, htext, hvs⟩

theorem exists_of_contents_append (h : contents us = contents (ts ++ t :: vs)) :
    ∃ before u behind, us = before ++ u :: behind ∧ contents before = contents ts ∧
      u.kind = t.kind ∧ u.text = t.text ∧ contents behind = contents vs := by
  rw [contents_append] at h
  obtain ⟨before, rest, rfl, hbefore, hrest⟩ := List.map_eq_append_iff.mp h
  obtain ⟨u, behind, rfl, hkind, htext, hbehind⟩ := exists_of_contents_cons hrest
  exact ⟨before, u, behind, rfl, hbefore, hkind, htext, hbehind⟩

end Contents

/-! ## Phrases -/

mutual

/-- The grammar does not look at the places of tokens. -/
theorem SumPhrase.of_contents {lenient : Bool} : ∀ {n : Nat} {ts us : List Token} {e : Tree},
    SumPhrase lenient n ts e → contents us = contents ts → SumPhrase lenient n us e
  | _, _, _, _, .single h, hus => .single (h.of_contents hus)
  | _, _, _, _, .chain ha hop hb, hus => by
      obtain ⟨before, u, behind, rfl, hbefore, hkind, -, hbehind⟩ := exists_of_contents_append hus
      exact .chain (ha.of_contents hbefore) (hkind ▸ hop) (hb.of_contents hbehind)

theorem ProductPhrase.of_contents {lenient : Bool} :
    ∀ {n : Nat} {ts us : List Token} {e : Tree}, ProductPhrase lenient n ts e →
      contents us = contents ts → ProductPhrase lenient n us e
  | _, _, _, _, .single h, hus => .single (h.of_contents hus)
  | _, _, _, _, .chain ha hop hb, hus => by
      obtain ⟨before, u, behind, rfl, hbefore, hkind, -, hbehind⟩ := exists_of_contents_append hus
      exact .chain (ha.of_contents hbefore) (hkind ▸ hop) (hb.of_contents hbehind)

theorem OperandPhrase.of_contents {lenient : Bool} :
    ∀ {n : Nat} {ts us : List Token} {e : Tree}, OperandPhrase lenient n ts e →
      contents us = contents ts → OperandPhrase lenient n us e
  | _, _, _, _, .minus hsign ha, hus => by
      obtain ⟨u, behind, rfl, hkind, -, hbehind⟩ := exists_of_contents_cons hus
      exact .minus (hkind.trans hsign) (ha.of_contents hbehind)
  | _, _, _, _, .plus hsign ha, hus => by
      obtain ⟨u, behind, rfl, hkind, -, hbehind⟩ := exists_of_contents_cons hus
      exact .plus (hkind.trans hsign) (ha.of_contents hbehind)
  | _, _, _, _, .power h, hus => .power (h.of_contents hus)

theorem PowerPhrase.of_contents {lenient : Bool} :
    ∀ {n : Nat} {ts us : List Token} {e : Tree}, PowerPhrase lenient n ts e →
      contents us = contents ts → PowerPhrase lenient n us e
  | _, _, _, _, .base h, hus => .base (h.of_contents hus)
  | _, _, _, _, .raised ha hcaret hb, hus => by
      obtain ⟨before, u, behind, rfl, hbefore, hkind, -, hbehind⟩ := exists_of_contents_append hus
      exact .raised (ha.of_contents hbefore) (hkind.trans hcaret) (hb.of_contents hbehind)

theorem PrimaryPhrase.of_contents {lenient : Bool} :
    ∀ {n : Nat} {ts us : List Token} {e : Tree}, PrimaryPhrase lenient n ts e →
      contents us = contents ts → PrimaryPhrase lenient n us e
  | _, _, _, _, .number ht hvalue, hus => by
      obtain ⟨u, vs, rfl, hkind, htext, hvs⟩ := exists_of_contents_cons hus
      obtain rfl := List.map_eq_nil_iff.mp hvs
      exact .number (hkind.trans ht) (htext ▸ hvalue)
  | _, _, _, _, .constant ht hvalue, hus => by
      obtain ⟨u, vs, rfl, hkind, htext, hvs⟩ := exists_of_contents_cons hus
      obtain rfl := List.map_eq_nil_iff.mp hvs
      exact .constant (hkind.trans ht) (htext ▸ hvalue)
  | _, _, _, _, .free ht hconstant hfunction, hus => by
      obtain ⟨u, vs, rfl, hkind, htext, hvs⟩ := exists_of_contents_cons hus
      obtain rfl := List.map_eq_nil_iff.mp hvs
      rw [← htext] at hconstant hfunction ⊢
      exact .free (hkind.trans ht) hconstant hfunction
  | _, _, _, _, .group hopener he hcloser, hus => by
      obtain ⟨u, vs, rfl, hkind, -, hvs⟩ := exists_of_contents_cons hus
      obtain ⟨inner, v, ws, rfl, hinner, hkind', -, hws⟩ := exists_of_contents_append hvs
      obtain rfl := List.map_eq_nil_iff.mp hws
      exact .group (hkind.trans hopener) (he.of_contents hinner) (hkind'.trans hcloser)
  | _, _, _, _, .call hname hopener hargs hcloser hcallable, hus => by
      obtain ⟨name, vs, rfl, hkind, htext, hvs⟩ := exists_of_contents_cons hus
      obtain ⟨u, vs, rfl, hkind', -, hvs⟩ := exists_of_contents_cons hvs
      obtain ⟨inner, v, ws, rfl, hinner, hkind'', -, hws⟩ := exists_of_contents_append hvs
      obtain rfl := List.map_eq_nil_iff.mp hws
      rw [← htext] at hcallable ⊢
      exact .call (hkind.trans hname) (hkind'.trans hopener) (hargs.of_contents hinner)
        (hkind''.trans hcloser) hcallable

theorem ArgumentsPhrase.of_contents {lenient : Bool} :
    ∀ {n : Nat} {ts us : List Token} {args : List Tree}, ArgumentsPhrase lenient n ts args →
      contents us = contents ts → ArgumentsPhrase lenient n us args
  | _, _, _, _, .single h, hus => .single (h.of_contents hus)
  | _, _, _, _, .more hargs hcomma he, hus => by
      obtain ⟨before, u, behind, rfl, hbefore, hkind, -, hbehind⟩ := exists_of_contents_append hus
      exact .more (hargs.of_contents hbefore) (hkind.trans hcomma) (he.of_contents hbehind)

end

/-! ## Texts -/

theorem OperandPhrase.ne_nil {lenient : Bool} {n : Nat} {ts : List Token} {e : Tree}
    (h : OperandPhrase lenient n ts e) : ts ≠ [] := by
  cases h with
  | minus | plus => exact List.cons_ne_nil _ _
  | power h =>
      obtain ⟨t, us, rfl, -⟩ := h.head
      exact List.cons_ne_nil _ _

theorem SumPhrase.ne_nil {lenient : Bool} {n : Nat} {ts : List Token} {e : Tree}
    (h : SumPhrase lenient n ts e) : ts ≠ [] := by
  cases h with
  | chain => simp
  | single h =>
      cases h with
      | chain => simp
      | single h => exact h.ne_nil

/-- No token starts with a blank. -/
theorem Spelled.isBlank_eq_false {kind : TokenKind} {text : String} {c : Char}
    {piece behind : List Char} (h : Spelled kind text (c :: piece) behind) : isBlank c = false := by
  generalize hcs : c :: piece = cs at h
  cases h with
  | sign hsign hpiece =>
      simp only [signs, List.mem_cons, Prod.mk.injEq, List.not_mem_nil, or_false] at hsign
      simp only [aliases, List.mem_cons, Prod.mk.injEq, List.not_mem_nil, or_false] at hpiece
      rcases hpiece with rfl | ⟨rfl, -⟩ | ⟨rfl, -⟩ | ⟨rfl, -⟩ | ⟨rfl, -⟩
      · rcases hsign with ⟨-, rfl⟩ | ⟨-, rfl⟩ | ⟨-, rfl⟩ | ⟨-, rfl⟩ | ⟨-, rfl⟩ |
          ⟨-, rfl⟩ | ⟨-, rfl⟩ | ⟨-, rfl⟩ <;> obtain rfl := (List.cons.inj hcs).1 <;> decide
      all_goals
        obtain rfl := (List.cons.inj hcs).1
        decide
  | number hpiece =>
      subst hcs
      rcases Numeral.starts_of_isNumeral hpiece.shaped with ⟨d, tail, hcons, hd⟩ |
        ⟨d, tail, hcons, -⟩
      · obtain rfl := (List.cons.inj hcons).1
        exact (startsWord_plain (by simp [startsWord, hd])).2.1
      · obtain rfl := (List.cons.inj hcons).1
        decide
  | name hpiece =>
      subst hcs
      obtain ⟨hletter, -⟩ := isNameText_cons.mp hpiece.shaped
      exact (startsWord_plain (by simp [startsWord, hletter])).2.1

theorem LaidOut.eq_nil_of_allBlank {pos stop : Nat} {cs rest : List Char} {ts : List Token}
    (h : LaidOut pos cs ts stop rest) (hblank : allBlank cs = true) : ts = [] := by
  induction h with
  | done => rfl
  | blank hc h ih =>
      obtain ⟨-, hcs⟩ := Bool.and_eq_true_iff.mp (List.all_cons.symm.trans hblank)
      exact ih hcs
  | token hspelled h ih =>
      obtain ⟨c, piece, rfl⟩ := List.exists_cons_of_ne_nil hspelled.ne_nil
      have hc : isBlank c = true := List.all_eq_true.mp hblank c List.mem_cons_self
      rw [hspelled.isBlank_eq_false] at hc
      cases hc

/-- A text whose tokens are a phrase is read, or refused for the bound on nesting. -/
theorem parse_of_sumPhrase {lenient : Bool} {source : String} {n : Nat} {body : List Token}
    {mark : Token} {e : Tree} (htokens : tokenize source = .ok (body ++ [mark]))
    (h : SumPhrase lenient n body e) (hheight : e.height ≤ maxDepth) :
    (n ≤ maxNesting → parse lenient source = .ok e) ∧
      (maxNesting < n → NestsTooDeep (parse lenient source)) := by
  obtain ⟨body', stop, hbody, hlaid⟩ := laidOut_of_tokenizeFrom htokens
  obtain ⟨rfl, hmark⟩ := List.append_inj' hbody rfl
  obtain rfl := (List.cons.inj hmark).1
  have hsource : allBlank source.toList = false := by
    by_contra hblank
    exact h.ne_nil (hlaid.eq_nil_of_allBlank (Bool.not_eq_false _ ▸ hblank))
  have hmark : (endMark stop).kind = .eof := rfl
  obtain ⟨hread, hrefused⟩ := ofTokens_of_sumPhrase h hmark
  refine ⟨fun hn => parse_of_tokenize hsource htokens (hread hn) hheight, fun hn => ?_⟩
  rw [parse_of_not_blank hsource, htokens, ok_bind]
  exact (hrefused hn).bind _

/-- What a text is read as is told by the contents of its tokens. -/
theorem parse_of_contents {lenient : Bool} {source source' : String} {tokens tokens' : List Token}
    {e : Tree} (h : parse lenient source = .ok e) (htokens : tokenize source = .ok tokens)
    (htokens' : tokenize source' = .ok tokens') (hcontents : contents tokens' = contents tokens) :
    parse lenient source' = .ok e := by
  obtain ⟨body, mark, hbody, hmark, -, ⟨n, hn, hsum⟩, hheight⟩ := tokens_of_parse h
  obtain rfl := Except.ok.inj (htokens.symm.trans hbody)
  obtain ⟨body', mark', behind, rfl, hbody', -, -, hbehind⟩ := exists_of_contents_append hcontents
  obtain rfl := List.map_eq_nil_iff.mp hbehind
  exact (parse_of_sumPhrase htokens' (hsum.of_contents hbody') hheight).1 hn

/-! ## Pieces of text -/

/-- Wherever the text stands, it is read as tokens with these contents up to `rest`. -/
def ReadsAs (cs : List Char) (ks : List (TokenKind × String)) (rest : List Char) : Prop :=
  ∀ pos, ∃ ts stop, LaidOut pos cs ts stop rest ∧ contents ts = ks

section Pieces

variable {cs middle rest : List Char} {ks ls : List (TokenKind × String)}

/-- A text is read as the contents of its tokens wherever it stands. -/
theorem LaidOut.readsAs {pos stop : Nat} {ts : List Token} (h : LaidOut pos cs ts stop rest) :
    ReadsAs cs (contents ts) rest := by
  induction h with
  | done => exact fun pos => ⟨[], pos, .done, rfl⟩
  | blank hc h ih =>
      intro pos
      obtain ⟨us, stop, hus, hcontents⟩ := ih (pos + 1)
      exact ⟨us, stop, .blank hc hus, hcontents⟩
  | @token _ stop kind text piece behind rest ts hspelled h ih =>
      intro pos
      obtain ⟨us, stop, hus, hcontents⟩ := ih (pos + piece.length)
      exact ⟨_, stop, .token hspelled hus, by rw [contents_cons, hcontents]; rfl⟩

theorem readsAs_nil : ReadsAs cs [] cs :=
  fun pos => ⟨[], pos, .done, rfl⟩

theorem ReadsAs.blank {c : Char} (hc : isSpacing c = true) (h : ReadsAs cs ks rest) :
    ReadsAs (c :: cs) ks rest := by
  intro pos
  obtain ⟨ts, stop, hlaid, hcontents⟩ := h (pos + 1)
  exact ⟨ts, stop, .blank hc hlaid, hcontents⟩

theorem ReadsAs.token {kind : TokenKind} {text : String} {piece : List Char}
    (hspelled : Spelled kind text piece cs) (h : ReadsAs cs ks rest) :
    ReadsAs (piece ++ cs) ((kind, text) :: ks) rest := by
  intro pos
  obtain ⟨ts, stop, hlaid, rfl⟩ := h (pos + piece.length)
  exact ⟨_, stop, .token hspelled hlaid, rfl⟩

theorem LaidOut.append {pos mid stop : Nat} {ts us : List Token}
    (h : LaidOut pos cs ts mid middle) (h' : LaidOut mid middle us stop rest) :
    LaidOut pos cs (ts ++ us) stop rest := by
  induction h with
  | done => exact h'
  | blank hc _ ih => exact .blank hc (ih h')
  | token hspelled _ ih => exact .token hspelled (ih h')

theorem ReadsAs.append (h : ReadsAs cs ks middle) (h' : ReadsAs middle ls rest) :
    ReadsAs cs (ks ++ ls) rest := by
  intro pos
  obtain ⟨ts, mid, hts, rfl⟩ := h pos
  obtain ⟨us, stop, hus, rfl⟩ := h' mid
  exact ⟨ts ++ us, stop, hts.append hus, contents_append⟩

theorem ReadsAs.tokenize {source : String} (h : ReadsAs source.toList ks []) :
    ∃ body stop, tokenize source = .ok (body ++ [endMark stop]) ∧ contents body = ks := by
  obtain ⟨ts, stop, hlaid, rfl⟩ := h 0
  refine ⟨ts, stop, ?_, rfl⟩
  rw [Source.tokenize, hlaid.tokenizeFrom_eq, tokenizeFrom]
  rfl

end Pieces

/-- A token may be written as its text, in front of a blank or the end. -/
theorem Spelled.alone {kind : TokenKind} {text : String} {piece behind behind' : List Char}
    (h : Spelled kind text piece behind) (hfirst : ∀ c ∈ behind'.head?, c = ' ') :
    Spelled kind text text.toList behind' := by
  have hstops : ∀ p : Char → Bool, p ' ' = false → Stops p behind' := by
    intro p hp
    cases behind' with
    | nil => trivial
    | cons c behind' =>
        obtain rfl := hfirst c rfl
        exact hp
  cases h with
  | sign hsign =>
      refine .sign hsign (.inl rfl) fun _ hstar => ?_
      exact absurd (hfirst '*' hstar) (by decide)
  | @number piece behind hpiece =>
      rw [String.toList_ofList]
      have hpiece : Longest Numeral.IsNumeral piece ([] ++ behind) := hpiece
      exact .number (hpiece.of_stops (fun _ => Numeral.numeralChar_of_mem) (hstops _ (by decide)))
        (hstops _ (by decide))
  | @name piece behind hpiece =>
      rw [String.toList_ofList]
      have hpiece : Longest IsNameText piece ([] ++ behind) := hpiece
      exact .name (hpiece.of_stops (fun _ => isNameChar_of_isNameText) (hstops _ (by decide)))

/-- The texts of the tokens, with a blank between any two. -/
def spaced (ts : List Token) : String :=
  " ".intercalate (ts.map Token.text)

/-- With blanks between them the texts of tokens are read as these tokens. -/
theorem readsAs_spaced {ts : List Token}
    (h : ∀ t ∈ ts, ∃ piece behind, Spelled t.kind t.text piece behind) :
    ReadsAs (spaced ts).toList (contents ts) [] := by
  have hblank : isSpacing ' ' = true := by decide
  rw [spaced, String.toList_intercalate, List.map_map]
  induction ts with
  | nil => exact readsAs_nil
  | cons t ts ih =>
      obtain ⟨⟨piece, behind, ht⟩, hts⟩ := List.forall_mem_cons.mp h
      have hbehind := ih hts
      cases ts with
      | nil =>
          have halone : Spelled t.kind t.text t.text.toList [] := ht.alone (by simp)
          have hread := ReadsAs.token halone readsAs_nil
          rw [List.append_nil] at hread
          rw [List.map_singleton, List.intercalate_singleton]
          exact hread
      | cons u ts =>
          rw [List.map_cons, List.map_cons, List.intercalate_cons_cons, List.append_assoc]
          refine ReadsAs.token (ht.alone fun c hc => ?_) (hbehind.blank hblank)
          exact (Option.some.inj hc).symm

/-- The texts of the tokens of a text, with blanks between them, have the same tokens. -/
theorem tokenize_spaced {source : String} {body : List Token} {mark : Token}
    (h : tokenize source = .ok (body ++ [mark])) :
    ∃ tokens, tokenize (spaced body) = .ok tokens ∧
      contents tokens = contents (body ++ [mark]) := by
  obtain ⟨body', hbody, -, hlayout⟩ := layout_of_tokenize h
  obtain ⟨rfl, hmark⟩ := List.append_inj' hbody rfl
  obtain ⟨ts, stop, htokens, hcontents⟩ :=
    (readsAs_spaced fun t ht => ⟨_, _, hlayout.spelled t ht⟩).tokenize
  refine ⟨_, htokens, ?_⟩
  rw [contents_append, contents_append, hcontents, hmark]
  rfl

end Fluxion.Source
