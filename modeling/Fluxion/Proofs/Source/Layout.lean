import Fluxion.Proofs.Decimal.Longest
import Fluxion.Proofs.Source.Lexing

/-!
# How a text is laid out

What `tokenize` reads is told by the text alone, without the scan: `Spelled` says how a token
is written and what may stand behind it, and `Layout` where the tokens of a text stand.

* An operator is written as itself or with its second spelling, and a star that another star
  follows is not a product.
* A number and a name are the longest of their kind where they start.
* Between the tokens there are only blanks.

`tokenize_eq_ok_iff_layout` says that these facts hold of the tokens of a text, and of no
other list.
-/

namespace Fluxion.Source

open Fluxion.Decimal Fluxion.Expr Fluxion.Text

/-- The operators and parentheses, as tokens carry them. -/
def signs : List (TokenKind × String) :=
  [(.plus, "+"), (.minus, "-"), (.star, "*"), (.slash, "/"), (.caret, "^"), (.lparen, "("),
    (.rparen, ")"), (.comma, ",")]

/-- The second spellings of four operators. -/
def aliases : List (List Char × String) :=
  [(['*', '*'], "^"), (['×'], "*"), (['÷'], "/"), (['−'], "-")]

def IsNameText (cs : List Char) : Prop :=
  isName (String.ofList cs) = true

/-- The text has the shape, and no longer text at the front of `piece ++ behind` has. -/
structure Longest (shape : List Char → Prop) (piece behind : List Char) : Prop where
  shaped : shape piece
  longest : ∀ longer, longer <+: piece ++ behind → shape longer → longer.length ≤ piece.length

/-- How a token is written: as `piece`, in front of `behind`. -/
inductive Spelled : TokenKind → String → List Char → List Char → Prop
  | sign {kind : TokenKind} {text : String} {piece behind : List Char}
      (hsign : (kind, text) ∈ signs) (hpiece : piece = text.toList ∨ (piece, text) ∈ aliases)
      (hstar : piece = ['*'] → behind.head? ≠ some '*') : Spelled kind text piece behind
  | number {piece behind : List Char} (hpiece : Longest Numeral.IsNumeral piece behind)
      (hletter : Stops Numeral.isExponentLetter behind) :
      Spelled .number (String.ofList piece) piece behind
  | name {piece behind : List Char} (hpiece : Longest IsNameText piece behind) :
      Spelled .name (String.ofList piece) piece behind

def slice (cs : List Char) (start stop : Nat) : List Char :=
  (cs.drop start).take (stop - start)

/-- Where the tokens of a text stand, from a position on: in the text, one after the other,
with blanks between them. -/
structure Layout (cs : List Char) (pos : Nat) (body : List Token) : Prop where
  inside : ∀ t ∈ body, pos ≤ t.start ∧ t.start < t.stop ∧ t.stop ≤ cs.length
  ordered : body.Pairwise fun t u => t.stop ≤ u.start
  blank : ∀ i c, pos ≤ i → cs[i]? = some c → (∀ t ∈ body, i < t.start ∨ t.stop ≤ i) →
    isSpacing c = true
  spelled : ∀ t ∈ body, Spelled t.kind t.text (slice cs t.start t.stop) (cs.drop t.stop)

/-! ## Longest texts -/

/-- A text of characters that do not go on behind `piece` ends there. -/
theorem prefix_of_stops {p : Char → Bool} {piece behind longer : List Char}
    (hfront : longer <+: piece ++ behind) (hlonger : ∀ c ∈ longer, p c = true)
    (hstops : Stops p behind) : longer <+: piece := by
  rcases List.prefix_or_prefix_of_prefix hfront (List.prefix_append piece behind) with
    hfits | ⟨more, rfl⟩
  · exact hfits
  · cases more with
    | nil => simp
    | cons d more =>
        obtain ⟨rest, hrest⟩ := (List.prefix_append_right_inj piece).mp hfront
        rw [← hrest] at hstops
        have hd : p d = false := hstops
        rw [hlonger d (by simp)] at hd
        cases hd

theorem Longest.of_stops {shape : List Char → Prop} {p : Char → Bool}
    {piece between behind behind' : List Char} (h : Longest shape piece (between ++ behind))
    (hshape : ∀ cs, shape cs → ∀ c ∈ cs, p c = true) (hstops : Stops p behind') :
    Longest shape piece (between ++ behind') := by
  refine ⟨h.shaped, fun longer hfront hlonger => h.longest longer ?_ hlonger⟩
  rw [← List.append_assoc] at hfront ⊢
  have hfits := prefix_of_stops hfront (hshape longer hlonger) hstops
  exact hfits.trans (List.prefix_append _ _)

theorem isNameText_cons {c : Char} {cs : List Char} :
    IsNameText (c :: cs) ↔ isLetter c = true ∧ ∀ d ∈ cs, isNameChar d = true := by
  rw [IsNameText, isName, String.toList_ofList, Bool.and_eq_true, List.all_eq_true]

theorem exists_cons_of_isNameText {cs : List Char} (h : IsNameText cs) :
    ∃ c tail, cs = c :: tail ∧ isLetter c = true ∧ ∀ d ∈ tail, isNameChar d = true := by
  cases cs with
  | nil =>
      rw [IsNameText, isName, String.toList_ofList] at h
      cases h
  | cons c tail => exact ⟨c, tail, rfl, isNameText_cons.mp h⟩

theorem isNameChar_of_isNameText {cs : List Char} (h : IsNameText cs) :
    ∀ c ∈ cs, isNameChar c = true := by
  obtain ⟨c, tail, rfl, hletter, htail⟩ := exists_cons_of_isNameText h
  exact List.forall_mem_cons.mpr ⟨by simp [isNameChar, hletter], htail⟩

/-- A name is the longest one if nothing behind it goes on with it. -/
theorem longest_isNameText_iff {piece behind : List Char} :
    Longest IsNameText piece behind ↔ IsNameText piece ∧ Stops isNameChar behind := by
  constructor
  · rintro ⟨hname, hlongest⟩
    refine ⟨hname, ?_⟩
    cases behind with
    | nil => trivial
    | cons d behind =>
        by_contra hcontinues
        have hd : isNameChar d = true := by simpa [Stops] using hcontinues
        obtain ⟨c, tail, rfl, hletter, htail⟩ := exists_cons_of_isNameText hname
        have hlonger : IsNameText (c :: tail ++ [d]) :=
          isNameText_cons.mpr ⟨hletter, List.forall_mem_append.mpr
            ⟨htail, List.forall_mem_singleton.mpr hd⟩⟩
        have hlength := hlongest (c :: tail ++ [d]) ⟨behind, by simp⟩ hlonger
        rw [List.length_append, List.length_singleton] at hlength
        omega
  · rintro ⟨hname, hstops⟩
    refine ⟨hname, fun longer hfront hlonger => ?_⟩
    exact (prefix_of_stops hfront (isNameChar_of_isNameText hlonger) hstops).length_le

/-! ## One token -/

theorem Spelled.ne_nil {kind : TokenKind} {text : String} {piece behind : List Char}
    (h : Spelled kind text piece behind) : piece ≠ [] := by
  rintro rfl
  cases h with
  | sign hsign hpiece =>
      have hsigns : ∀ s ∈ signs, s.2.toList ≠ [] ∧ ([], s.2) ∉ aliases := by simp [signs, aliases]
      obtain ⟨hwritten, halias⟩ := hsigns _ hsign
      exact hpiece.elim (fun htext => hwritten htext.symm) halias
  | number hpiece =>
      rcases Numeral.starts_of_isNumeral hpiece.shaped with ⟨c, tail, hcons, -⟩ |
        ⟨c, tail, hcons, -⟩ <;> cases hcons
  | name hpiece =>
      obtain ⟨c, tail, hcons, -⟩ := exists_cons_of_isNameText hpiece.shaped
      cases hcons

theorem Spelled.kind_ne_eof {kind : TokenKind} {text : String} {piece behind : List Char}
    (h : Spelled kind text piece behind) : kind ≠ .eof := by
  rintro rfl
  cases h with
  | sign hsign => simp [signs] at hsign

/-- An operator is scanned with both of its characters if it has two. -/
theorem spelled_of_scanOperator {cs rest : List Char} {kind : TokenKind} {text : String}
    (h : scanOperator cs = some (kind, text, rest)) :
    ∃ piece, cs = piece ++ rest ∧ Spelled kind text piece rest := by
  unfold scanOperator at h
  split at h <;> cases h
  case h_5 hstars =>
    refine ⟨['*'], rfl, .sign (by simp [signs]) (.inl rfl) fun _ hstar => ?_⟩
    obtain ⟨behind, rfl⟩ := List.head?_eq_some_iff.mp hstar
    exact hstars behind rfl
  case h_1 => exact ⟨['*', '*'], rfl, .sign (by simp [signs]) (.inr (by simp [aliases])) (by simp)⟩
  all_goals first
    | exact ⟨[_], rfl, .sign (by simp [signs]) (.inl rfl) (by simp)⟩
    | exact ⟨[_], rfl, .sign (by simp [signs]) (.inr (by simp [aliases])) (by simp)⟩

theorem scanOperator_star {behind : List Char} (h : behind.head? ≠ some '*') :
    scanOperator ('*' :: behind) = some (.star, "*", behind) := by
  cases behind with
  | nil => rfl
  | cons c behind =>
      have hc : c ≠ '*' := by simpa using h
      simp [scanOperator, hc]

theorem scanOperator_of_sign {kind : TokenKind} {text : String} {piece behind : List Char}
    (hsign : (kind, text) ∈ signs) (hpiece : piece = text.toList ∨ (piece, text) ∈ aliases)
    (hstar : piece = ['*'] → behind.head? ≠ some '*') :
    scanOperator (piece ++ behind) = some (kind, text, behind) := by
  simp only [signs, List.mem_cons, Prod.mk.injEq, List.not_mem_nil, or_false] at hsign
  rcases hpiece with rfl | halias
  · rcases hsign with ⟨rfl, rfl⟩ | ⟨rfl, rfl⟩ | ⟨rfl, rfl⟩ | ⟨rfl, rfl⟩ | ⟨rfl, rfl⟩ |
      ⟨rfl, rfl⟩ | ⟨rfl, rfl⟩ | ⟨rfl, rfl⟩
    case inr.inr.inl => exact scanOperator_star (hstar rfl)
    all_goals rfl
  · simp only [aliases, List.mem_cons, Prod.mk.injEq, List.not_mem_nil, or_false] at halias
    rcases halias with ⟨rfl, rfl⟩ | ⟨rfl, rfl⟩ | ⟨rfl, rfl⟩ | ⟨rfl, rfl⟩ <;>
      simp at hsign <;> subst hsign <;> rfl

/-- A number is scanned as the longest numeral at its place. -/
theorem spelled_of_scanNumber {pos : Nat} {c : Char} {cs rest : List Char} {t : Token}
    (h : scanNumber pos c cs = .ok (t, rest)) : ∃ piece, cs = piece ++ rest ∧
      t = ⟨.number, String.ofList piece, pos, pos + piece.length⟩ ∧
      Spelled .number (String.ofList piece) piece rest := by
  unfold scanNumber at h
  split at h
  · cases h
  · next numeral after hscan =>
      obtain ⟨htext, -⟩ := Numeral.scan_text hscan
      have hlongest : Longest Numeral.IsNumeral numeral.text after :=
        ⟨⟨numeral, Numeral.wellFormed_of_scan hscan, rfl⟩,
          fun longer hfront => Numeral.length_le_of_scan hscan (htext ▸ hfront)⟩
      dsimp only at h
      split at h
      · next letter behind =>
          split_ifs at h with hletter
          obtain ⟨rfl, rfl⟩ := Prod.mk.inj (Except.ok.inj h)
          have hstops : Stops Numeral.isExponentLetter (letter :: behind) :=
            Bool.eq_false_iff.mpr hletter
          exact ⟨numeral.text, htext.symm, rfl, .number hlongest hstops⟩
      · obtain ⟨rfl, rfl⟩ := Prod.mk.inj (Except.ok.inj h)
        exact ⟨numeral.text, htext.symm, rfl, .number hlongest trivial⟩

/-- A token is written at the front of the text that it is scanned from. -/
theorem spelled_of_scanToken {pos : Nat} {c : Char} {cs rest : List Char} {t : Token}
    (h : scanToken pos c cs = .ok (t, rest)) : ∃ kind text piece, c :: cs = piece ++ rest ∧
      t = ⟨kind, text, pos, pos + piece.length⟩ ∧ Spelled kind text piece rest := by
  unfold scanToken at h
  split at h
  · next kind text after hoperator =>
      obtain ⟨rfl, rfl⟩ := Prod.mk.inj (Except.ok.inj h)
      obtain ⟨piece, hpiece, hspelled⟩ := spelled_of_scanOperator hoperator
      have hlength := congrArg List.length hpiece
      rw [List.length_cons, List.length_append] at hlength
      refine ⟨kind, text, piece, hpiece, ?_, hspelled⟩
      rw [hlength, Nat.add_sub_cancel]
  · split_ifs at h with hnumber hletter
    · obtain ⟨piece, hpiece, ht, hspelled⟩ := spelled_of_scanNumber h
      exact ⟨.number, _, piece, hpiece, ht, hspelled⟩
    · obtain ⟨rfl, rfl⟩ := Prod.mk.inj (Except.ok.inj h)
      have hname : IsNameText (c :: cs.takeWhile isNameChar) :=
        isNameText_cons.mpr ⟨hletter, fun d hd => List.mem_takeWhile_imp hd⟩
      have hstops : Stops isNameChar (cs.dropWhile isNameChar) := stops_dropWhile isNameChar cs
      refine ⟨.name, _, c :: cs.takeWhile isNameChar, ?_, ?_,
        .name (longest_isNameText_iff.mpr ⟨hname, hstops⟩)⟩
      · rw [List.cons_append, List.takeWhile_append_dropWhile]
      · rw [List.length_cons, Nat.add_right_comm, Nat.add_assoc]

theorem isSpacing_of_scanOperator {c : Char} {cs rest : List Char} {kind : TokenKind}
    {text : String} (h : scanOperator (c :: cs) = some (kind, text, rest)) :
    isSpacing c = false := by
  unfold scanOperator at h
  split at h
  case h_13 => cases h
  all_goals
    rename_i heq
    obtain rfl := (List.cons.inj heq).1
    decide

/-- What is written at the front of a text is scanned, and there is no blank in front of it. -/
theorem scanToken_of_spelled {kind : TokenKind} {text : String} {c : Char}
    {piece behind : List Char} (h : Spelled kind text (c :: piece) behind) (pos : Nat) :
    isSpacing c = false ∧ scanToken pos c (piece ++ behind) =
      .ok (⟨kind, text, pos, pos + (c :: piece).length⟩, behind) := by
  cases h with
  | sign hsign hpiece hstar =>
      have hscan : scanOperator (c :: (piece ++ behind)) = some (kind, text, behind) :=
        scanOperator_of_sign hsign hpiece hstar
      have hlength : (piece ++ behind).length + 1 - behind.length = (c :: piece).length := by
        rw [List.length_append, List.length_cons]
        omega
      refine ⟨isSpacing_of_scanOperator hscan, ?_⟩
      rw [scanToken, hscan]
      dsimp only
      rw [hlength]
  | number hpiece hletter =>
      obtain ⟨x, hx, hscan⟩ := Numeral.scan_eq_some hpiece.shaped hpiece.longest
      rw [List.cons_append] at hscan
      have hstart : isSpacing c = false ∧ scanOperator (c :: (piece ++ behind)) = none ∧
          startsNumber (c :: (piece ++ behind)) = true := by
        rcases Numeral.starts_of_isNumeral hpiece.shaped with ⟨d, tail, hcons, hd⟩ |
          ⟨d, tail, hcons, hd⟩
        · obtain ⟨rfl, rfl⟩ := List.cons.inj hcons
          have hstart : startsWord c = true := by simp [startsWord, hd]
          refine ⟨(startsWord_plain hstart).1, scanOperator_of_startsWord hstart _, ?_⟩
          rw [startsNumber_cons hstart, isDigit_of_isAsciiDigit hd]
        · obtain ⟨rfl, rfl⟩ := List.cons.inj hcons
          exact ⟨by decide, rfl, isDigit_of_isAsciiDigit hd⟩
      obtain ⟨hspacing, hoperator, hnumber⟩ := hstart
      refine ⟨hspacing, ?_⟩
      rw [scanToken, hoperator]
      dsimp only
      rw [if_pos hnumber, scanNumber, hscan]
      dsimp only
      rw [hx]
      cases behind with
      | nil => rfl
      | cons letter behind =>
          have hletter : (letter == 'e' || letter == 'E') = false := hletter
          dsimp only
          rw [hletter, if_neg Bool.false_ne_true]
  | name hpiece =>
      obtain ⟨hname, hstops⟩ := longest_isNameText_iff.mp hpiece
      obtain ⟨hletter, hpiece⟩ := isNameText_cons.mp hname
      have hstart : startsWord c = true := by simp [startsWord, hletter]
      refine ⟨(startsWord_plain hstart).1, ?_⟩
      rw [scanToken, scanOperator_of_startsWord hstart]
      dsimp only
      rw [startsNumber_of_isLetter hletter, if_neg Bool.false_ne_true, if_pos hletter,
        hstops.takeWhile_append hpiece, hstops.dropWhile_append hpiece, List.length_cons,
        Nat.add_right_comm, Nat.add_assoc]

/-! ## A text -/

/-- The text `cs`, which starts at `pos`, is made of blanks and these tokens up to `stop`, where
`rest` is left over. -/
inductive LaidOut : Nat → List Char → List Token → Nat → List Char → Prop
  | done {pos : Nat} {cs : List Char} : LaidOut pos cs [] pos cs
  | blank {pos stop : Nat} {c : Char} {cs rest : List Char} {ts : List Token}
      (hc : isSpacing c = true) (h : LaidOut (pos + 1) cs ts stop rest) :
      LaidOut pos (c :: cs) ts stop rest
  | token {pos stop : Nat} {kind : TokenKind} {text : String} {piece behind rest : List Char}
      {ts : List Token} (hspelled : Spelled kind text piece behind)
      (h : LaidOut (pos + piece.length) behind ts stop rest) :
      LaidOut pos (piece ++ behind) (⟨kind, text, pos, pos + piece.length⟩ :: ts) stop rest

/-- What is read from a text makes it up. -/
theorem laidOut_of_tokenizeFrom {pos : Nat} {cs : List Char} {ts : List Token}
    (h : tokenizeFrom pos cs = .ok ts) :
    ∃ body stop, ts = body ++ [endMark stop] ∧ LaidOut pos cs body stop [] := by
  induction hn : cs.length using Nat.strong_induction_on generalizing pos cs ts with
  | h n ih =>
      subst hn
      cases cs with
      | nil =>
          rw [tokenizeFrom] at h
          exact ⟨[], pos, (Except.ok.inj h).symm, .done⟩
      | cons c rest =>
          by_cases hspacing : isSpacing c = true
          · rw [tokenizeFrom, if_pos hspacing] at h
            obtain ⟨body, stop, hts, hlaid⟩ := ih rest.length (Nat.lt_succ_self _) h rfl
            exact ⟨body, stop, hts, .blank hspacing hlaid⟩
          · obtain ⟨t, after, more, hscan, hmore, rfl⟩ := tokenizeFrom_cons_eq_ok hspacing h
            obtain ⟨body, stop, rfl, hlaid⟩ := ih after.length (scanToken_length hscan) hmore rfl
            obtain ⟨kind, text, piece, hpiece, rfl, hspelled⟩ := spelled_of_scanToken hscan
            rw [hpiece]
            exact ⟨_ :: body, stop, rfl, .token hspelled hlaid⟩

/-- Where a text cannot be read, there is a place where no token can. -/
theorem exists_scanToken_of_tokenizeFrom {pos : Nat} {cs : List Char} {failure : Failure}
    (h : tokenizeFrom pos cs = .error failure) :
    ∃ before c rest, cs = before ++ c :: rest ∧
      scanToken (pos + before.length) c rest = .error failure := by
  induction pos, cs using tokenizeFrom.induct with
  | case1 pos =>
      rw [tokenizeFrom] at h
      cases h
  | case2 pos c rest hspacing ih =>
      rw [tokenizeFrom, if_pos hspacing] at h
      obtain ⟨before, d, behind, rfl, hscan⟩ := ih h
      rw [Nat.add_assoc, Nat.add_comm 1] at hscan
      exact ⟨c :: before, d, behind, rfl, hscan⟩
  | case3 pos c rest hspacing e hscan =>
      rw [tokenizeFrom, if_neg hspacing] at h
      split at h
      · next hscan' =>
          obtain rfl := Except.error.inj h
          exact ⟨[], c, rest, rfl, hscan'⟩
      · next hscan' => cases hscan.symm.trans hscan'
  | case4 pos c rest hspacing t after hscan e hrest ih =>
      rw [tokenizeFrom_scan (Bool.not_eq_true _ ▸ hspacing) hscan, hrest] at h
      obtain rfl := Except.error.inj h
      obtain ⟨before, d, behind, rfl, hfail⟩ := ih hrest
      obtain ⟨kind, text, piece, hpiece, rfl, -⟩ := spelled_of_scanToken hscan
      rw [Nat.add_assoc, ← List.length_append] at hfail
      exact ⟨piece ++ before, d, behind, by rw [hpiece, List.append_assoc], hfail⟩
  | case5 pos c rest hspacing t after hscan ts' hrest ih =>
      rw [tokenizeFrom_scan (Bool.not_eq_true _ ▸ hspacing) hscan, hrest] at h
      cases h

/-- What makes up a text is read from it. -/
theorem LaidOut.tokenizeFrom_eq {pos stop : Nat} {cs rest : List Char} {body : List Token}
    (h : LaidOut pos cs body stop rest) :
    tokenizeFrom pos cs = (body ++ ·) <$> tokenizeFrom stop rest := by
  induction h with
  | @done pos cs => cases tokenizeFrom pos cs <;> rfl
  | blank hc h ih => rw [tokenizeFrom, if_pos hc, ih]
  | @token pos stop kind text piece behind rest ts hspelled h ih =>
      obtain ⟨c, piece, rfl⟩ := List.exists_cons_of_ne_nil hspelled.ne_nil
      obtain ⟨hspacing, hscan⟩ := scanToken_of_spelled hspelled pos
      rw [List.cons_append, tokenizeFrom_scan hspacing hscan]
      dsimp only
      rw [ih]
      cases tokenizeFrom stop rest <;> rfl

theorem LaidOut.length_eq {pos stop : Nat} {cs rest : List Char} {body : List Token}
    (h : LaidOut pos cs body stop rest) : stop + rest.length = pos + cs.length := by
  induction h with
  | done => rfl
  | blank hc h ih =>
      rw [List.length_cons]
      omega
  | token hspelled h ih =>
      rw [List.length_append]
      omega

/-- Blanks in front of a text. -/
theorem LaidOut.blanks {gap cs rest : List Char} {stop : Nat} {ts : List Token}
    (hgap : ∀ c ∈ gap, isSpacing c = true) {pos : Nat}
    (h : LaidOut (pos + gap.length) cs ts stop rest) : LaidOut pos (gap ++ cs) ts stop rest := by
  induction gap generalizing pos with
  | nil => exact h
  | cons c gap ih =>
      obtain ⟨hc, hgap⟩ := List.forall_mem_cons.mp hgap
      refine .blank hc (ih hgap ?_)
      rwa [List.length_cons, Nat.add_comm gap.length, ← Nat.add_assoc] at h

/-! ## Where tokens stand -/

theorem slice_append_drop {cs : List Char} {start stop : Nat} (h : start ≤ stop) :
    slice cs start stop ++ cs.drop stop = cs.drop start := by
  have hsum : start + (stop - start) = stop := Nat.add_sub_cancel' h
  have hdrop : (cs.drop start).drop (stop - start) = cs.drop stop := by rw [List.drop_drop, hsum]
  rw [slice, ← hdrop, List.take_append_drop]

theorem length_slice {cs : List Char} {start stop : Nat} (h : stop ≤ cs.length) :
    (slice cs start stop).length = stop - start := by
  rw [slice, List.length_take, List.length_drop]
  omega

theorem slice_append_left {before piece behind : List Char} :
    slice (before ++ (piece ++ behind)) before.length (before.length + piece.length) = piece := by
  rw [slice, List.drop_left, Nat.add_sub_cancel_left, List.take_left]

theorem exists_of_mem_slice {cs : List Char} {start stop : Nat} {c : Char}
    (h : c ∈ slice cs start stop) : ∃ i, start ≤ i ∧ i < stop ∧ cs[i]? = some c := by
  obtain ⟨j, hj⟩ := List.mem_iff_getElem?.mp h
  rw [slice, List.getElem?_take] at hj
  split_ifs at hj with hlt
  rw [List.getElem?_drop] at hj
  exact ⟨start + j, Nat.le_add_right _ _, by omega, hj⟩

section Layout

variable {cs : List Char} {pos : Nat} {t : Token} {body : List Token}

theorem layout_nil_iff : Layout cs pos [] ↔
    ∀ i c, pos ≤ i → cs[i]? = some c → isSpacing c = true :=
  ⟨fun h i c hi hc => h.blank i c hi hc (by simp),
    fun h => ⟨by simp, .nil, fun i c hi hc _ => h i c hi hc, by simp⟩⟩

theorem layout_cons_iff : Layout cs pos (t :: body) ↔
    (pos ≤ t.start ∧ t.start < t.stop ∧ t.stop ≤ cs.length) ∧
    (∀ i c, pos ≤ i → i < t.start → cs[i]? = some c → isSpacing c = true) ∧
    Spelled t.kind t.text (slice cs t.start t.stop) (cs.drop t.stop) ∧ Layout cs t.stop body := by
  constructor
  · intro h
    obtain ⟨ht, hbody⟩ := List.forall_mem_cons.mp h.inside
    obtain ⟨hbehind, hordered⟩ := List.pairwise_cons.mp h.ordered
    obtain ⟨hspelled, hspells⟩ := List.forall_mem_cons.mp h.spelled
    refine ⟨ht, fun i c hi hlt hc => ?_, hspelled, fun u hu => ?_, hordered, fun i c hi hc hu => ?_,
      hspells⟩
    · refine h.blank i c hi hc (List.forall_mem_cons.mpr ⟨.inl hlt, fun u hu => .inl ?_⟩)
      have hstart := hbehind u hu
      omega
    · exact ⟨hbehind u hu, (hbody u hu).2⟩
    · have hpos : pos ≤ i := by omega
      exact h.blank i c hpos hc (List.forall_mem_cons.mpr ⟨.inr hi, hu⟩)
  · rintro ⟨ht, hgap, hspelled, h⟩
    refine ⟨List.forall_mem_cons.mpr ⟨ht, fun u hu => ?_⟩,
      List.pairwise_cons.mpr ⟨fun u hu => (h.inside u hu).1, h.ordered⟩, fun i c hi hc hu => ?_,
      List.forall_mem_cons.mpr ⟨hspelled, h.spelled⟩⟩
    · obtain ⟨hstart, hstop⟩ := h.inside u hu
      exact ⟨by omega, hstop⟩
    · obtain ⟨hout, hu⟩ := List.forall_mem_cons.mp hu
      rcases hout with hlt | hle
      · exact hgap i c hi hlt hc
      · exact h.blank i c hle hc hu

/-- A blank in front. -/
theorem Layout.of_blank {c : Char} (h : Layout cs (pos + 1) body) (hc : cs[pos]? = some c)
    (hspacing : isSpacing c = true) : Layout cs pos body := by
  refine ⟨fun u hu => ?_, h.ordered, fun i d hi hd hu => ?_, h.spelled⟩
  · obtain ⟨hstart, hstop⟩ := h.inside u hu
    exact ⟨Nat.le_of_succ_le hstart, hstop⟩
  · rcases Nat.eq_or_lt_of_le hi with rfl | hlt
    · obtain rfl := Option.some.inj (hc.symm.trans hd)
      exact hspacing
    · exact h.blank i d hlt hd hu

end Layout

/-- What makes up a text stands in it. -/
theorem LaidOut.layout {pos stop : Nat} {cs rest : List Char} {body : List Token}
    (h : LaidOut pos cs body stop rest) (hrest : rest = []) {before : List Char}
    (hpos : before.length = pos) : Layout (before ++ cs) pos body := by
  induction h generalizing before with
  | @done pos cs =>
      subst hrest hpos
      refine layout_nil_iff.mpr fun i c hi hc => ?_
      rw [List.append_nil, List.getElem?_eq_none hi] at hc
      cases hc
  | @blank pos stop c cs rest ts hc h ih =>
      subst hpos
      have hbehind : Layout (before ++ [c] ++ cs) (before.length + 1) ts := ih hrest (by simp)
      rw [List.append_assoc, List.singleton_append] at hbehind
      exact hbehind.of_blank (by simp) hc
  | @token pos stop kind text piece behind rest ts hspelled h ih =>
      subst hpos
      have hbehind : Layout (before ++ piece ++ behind) (before.length + piece.length) ts :=
        ih hrest (by simp)
      have hpiece := List.length_pos_iff.mpr hspelled.ne_nil
      have hdrop : (before ++ (piece ++ behind)).drop (before.length + piece.length) = behind := by
        rw [← List.append_assoc, ← List.length_append, List.drop_left]
      rw [List.append_assoc] at hbehind
      refine layout_cons_iff.mpr ⟨⟨Nat.le_refl _, ?_, ?_⟩, fun i c hi hlt => ?_, ?_, hbehind⟩
      · exact Nat.lt_add_of_pos_right hpiece
      · simp
      · exact absurd hlt (Nat.not_lt.mpr hi)
      · dsimp only
        rwa [slice_append_left, hdrop]

/-- What stands in a text makes it up. -/
theorem Layout.laidOut {cs : List Char} {pos : Nat} {body : List Token} (h : Layout cs pos body)
    (hpos : pos ≤ cs.length) : LaidOut pos (cs.drop pos) body cs.length [] := by
  induction body generalizing pos with
  | nil =>
      have hgap : ∀ c ∈ cs.drop pos, isSpacing c = true := by
        intro c hc
        obtain ⟨i, hi⟩ := List.mem_iff_getElem?.mp hc
        rw [List.getElem?_drop] at hi
        exact layout_nil_iff.mp h (pos + i) c (Nat.le_add_right _ _) hi
      have hlength : pos + (cs.drop pos).length = cs.length := by
        rw [List.length_drop]
        omega
      have hend : LaidOut (pos + (cs.drop pos).length) [] [] cs.length [] := hlength ▸ .done
      simpa using hend.blanks hgap
  | cons t body ih =>
      obtain ⟨⟨hstart, hlt, hstop⟩, hblank, hspelled, hbody⟩ := layout_cons_iff.mp h
      have hgap : ∀ c ∈ slice cs pos t.start, isSpacing c = true := by
        intro c hc
        obtain ⟨i, hi, hlt, hget⟩ := exists_of_mem_slice hc
        exact hblank i c hi hlt hget
      have htoken : t.start + (slice cs t.start t.stop).length = t.stop := by
        rw [length_slice hstop]
        omega
      have hbehind : LaidOut (t.start + (slice cs t.start t.stop).length) (cs.drop t.stop) body
          cs.length [] := by
        rw [htoken]
        exact ih hbody hstop
      have hlaid : LaidOut t.start (slice cs t.start t.stop ++ cs.drop t.stop)
          (⟨t.kind, t.text, t.start, t.start + (slice cs t.start t.stop).length⟩ :: body)
          cs.length [] := .token hspelled hbehind
      rw [htoken, slice_append_drop (Nat.le_of_lt hlt)] at hlaid
      rw [← slice_append_drop hstart]
      refine LaidOut.blanks hgap ?_
      rw [length_slice (by omega)]
      rwa [Nat.add_sub_cancel' hstart]

/-- The tokens of a text stand in it one after the other, and one end mark behind them. -/
theorem layout_of_tokenize {source : String} {tokens : List Token}
    (h : tokenize source = .ok tokens) :
    ∃ body, tokens = body ++ [endMark source.toList.length] ∧ (∀ t ∈ body, t.kind ≠ .eof) ∧
      Layout source.toList 0 body := by
  obtain ⟨body, stop, rfl, hlaid⟩ := laidOut_of_tokenizeFrom h
  have hstop := hlaid.length_eq
  rw [List.length_nil, Nat.add_zero, Nat.zero_add] at hstop
  have hlayout : Layout ([] ++ source.toList) 0 body := hlaid.layout rfl rfl
  exact ⟨body, by rw [hstop], fun t ht => (hlayout.spelled t ht).kind_ne_eof, hlayout⟩

/-- The tokens of a text are those that stand in it with only blanks between them, each the
longest of its kind where it starts, and the end mark behind the text. -/
theorem tokenize_eq_ok_iff_layout (source : String) (tokens : List Token) :
    tokenize source = .ok tokens ↔
      ∃ body, tokens = body ++ [endMark source.toList.length] ∧ (∀ t ∈ body, t.kind ≠ .eof) ∧
        Layout source.toList 0 body := by
  refine ⟨layout_of_tokenize, ?_⟩
  rintro ⟨body, rfl, -, hlayout⟩
  have hlaid := hlayout.laidOut (Nat.zero_le _)
  rw [List.drop_zero] at hlaid
  rw [tokenize, hlaid.tokenizeFrom_eq, tokenizeFrom]
  rfl

/-- A second star makes a power, and a point or an exponent belongs to the number. -/
example : tokenize "2.e1**.5×x1" = .ok
    [⟨.number, "2.e1", 0, 4⟩, ⟨.caret, "^", 4, 6⟩, ⟨.number, ".5", 6, 8⟩, ⟨.star, "*", 8, 9⟩,
      ⟨.name, "x1", 9, 11⟩, ⟨.eof, "", 11, 11⟩] := by cbv

end Fluxion.Source
