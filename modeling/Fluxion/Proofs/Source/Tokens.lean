import Fluxion.Proofs.Expr.Rendering
import Fluxion.Proofs.Source.Completeness
import Mathlib.Data.List.TakeWhile

/-!
# What a text is read as

What `tokenize` reads is a list of tokens with one end mark, at its end, and a token of
kind `name` carries a name of the language.  So whatever `parse` accepts is denoted by
such tokens: `denotes_of_parse`.

The phrases of the grammar over such tokens make `Readable` trees only, one case for each
phrase, and so every tree that is read is plain: `plain_of_parse`.
-/

namespace Fluxion.Source

open Fluxion.Decimal Fluxion.Expr Fluxion.Number Fluxion.Text

/-- A token that is no end mark, is a name only if its text is one, and is a number only if the
text has no sign. -/
structure Lexed (t : Token) : Prop where
  not_eof : t.kind ≠ .eof
  isName_of_name : t.kind = .name → isName t.text = true
  unsigned_of_number : t.kind = .number → ∀ value, readFloat? t.text = some value →
    Binary64.Unsigned value

theorem lexed_of_scanOperator {cs rest : List Char} {kind : TokenKind} {text : String}
    (h : scanOperator cs = some (kind, text, rest)) (start stop : Nat) :
    Lexed ⟨kind, text, start, stop⟩ := by
  have hkind : kind ≠ .eof ∧ kind ≠ .name ∧ kind ≠ .number := by
    unfold scanOperator at h
    split at h <;> cases h <;> decide
  exact ⟨hkind.1, fun hname => absurd hname hkind.2.1,
    fun hnumber => absurd hnumber hkind.2.2⟩

theorem lexed_of_scanNumber {pos : Nat} {c : Char} {cs rest : List Char} {t : Token}
    (h : scanNumber pos c cs = .ok (t, rest)) : Lexed t := by
  have hnumeral : t.kind = .number ∧ ∃ x : Numeral, x.WellFormed ∧ t.text = String.ofList x.text := by
    unfold scanNumber at h
    split at h
    · cases h
    · next x after hscan =>
        have hx := Numeral.wellFormed_of_scan hscan
        dsimp only at h
        split at h
        · split at h
          · cases h
          · obtain ⟨rfl, -⟩ := Prod.mk.inj (Except.ok.inj h)
            exact ⟨rfl, x, hx, rfl⟩
        · obtain ⟨rfl, -⟩ := Prod.mk.inj (Except.ok.inj h)
          exact ⟨rfl, x, hx, rfl⟩
  obtain ⟨hkind, x, hx, htext⟩ := hnumeral
  refine ⟨by rw [hkind]; decide, fun hname => ?_, fun _ value hvalue => ?_⟩
  · rw [hkind] at hname
    cases hname
  · rw [htext, readFloat?_text hx] at hvalue
    obtain rfl := Option.some.inj hvalue
    exact x.unsigned_value

theorem lexed_of_scanToken {pos : Nat} {c : Char} {cs rest : List Char} {t : Token}
    (h : scanToken pos c cs = .ok (t, rest)) : Lexed t := by
  unfold scanToken at h
  split at h
  · rename_i kind text after hoperator
    obtain ⟨rfl, -⟩ := Prod.mk.inj (Except.ok.inj h)
    exact lexed_of_scanOperator hoperator _ _
  · split_ifs at h with hnumber hletter
    · exact lexed_of_scanNumber h
    · obtain ⟨rfl, -⟩ := Prod.mk.inj (Except.ok.inj h)
      have htail : (cs.takeWhile isNameChar).all isNameChar = true :=
        List.all_eq_true.mpr fun _ hd => List.mem_takeWhile_imp hd
      refine ⟨fun heof => ?_, fun _ => by simp [isName, hletter, htail], fun hnumber => ?_⟩
      · cases heof
      · cases hnumber

/-- Where no blank stands, one token is read and then the rest. -/
theorem tokenizeFrom_cons_eq_ok {pos : Nat} {c : Char} {rest : List Char} {ts : List Token}
    (hspacing : ¬ isSpacing c = true) (h : tokenizeFrom pos (c :: rest) = .ok ts) :
    ∃ t after more, scanToken pos c rest = .ok (t, after) ∧
      tokenizeFrom t.stop after = .ok more ∧ ts = t :: more := by
  rw [tokenizeFrom, if_neg hspacing] at h
  split at h
  · cases h
  · rename_i t after hscan
    split at h
    · cases h
    · rename_i more hmore
      exact ⟨t, after, more, hscan, hmore, (Except.ok.inj h).symm⟩

/-- The tokens of a text end with an end mark, and there is no other one. -/
theorem tokenizeFrom_eq_ok {pos : Nat} {cs : List Char} {ts : List Token}
    (h : tokenizeFrom pos cs = .ok ts) :
    ∃ body mark, ts = body ++ [mark] ∧ mark.kind = .eof ∧ ∀ t ∈ body, Lexed t := by
  induction pos, cs using tokenizeFrom.induct generalizing ts with
  | case1 pos =>
      rw [tokenizeFrom] at h
      exact ⟨[], endMark pos, (Except.ok.inj h).symm, rfl, by simp⟩
  | case2 pos c rest hspacing ih =>
      rw [tokenizeFrom, if_pos hspacing] at h
      exact ih h
  | case3 pos c rest hspacing e hscan =>
      obtain ⟨t, after, more, hok, -, -⟩ := tokenizeFrom_cons_eq_ok hspacing h
      rw [hscan] at hok
      cases hok
  | case4 pos c rest hspacing t after hscan e hrest ih =>
      obtain ⟨t', after', more, hok, hmore, -⟩ := tokenizeFrom_cons_eq_ok hspacing h
      obtain ⟨rfl, rfl⟩ := Prod.mk.inj (Except.ok.inj (hscan.symm.trans hok))
      rw [hrest] at hmore
      cases hmore
  | case5 pos c rest hspacing t after hscan ts' hrest ih =>
      obtain ⟨t', after', more, hok, hmore, rfl⟩ := tokenizeFrom_cons_eq_ok hspacing h
      obtain ⟨rfl, rfl⟩ := Prod.mk.inj (Except.ok.inj (hscan.symm.trans hok))
      obtain ⟨body, mark, rfl, hmark, hbody⟩ := ih hmore
      refine ⟨t :: body, mark, rfl, hmark, fun u hu => ?_⟩
      rcases List.mem_cons.mp hu with rfl | hu
      · exact lexed_of_scanToken hscan
      · exact hbody u hu

theorem parse_of_blank {source : String} (h : allBlank source.toList = true) (lenient : Bool) :
    parse lenient source =
      .error (.rejected ⟨.empty, 0, source.toList.length, [], some "EOF"⟩) := by
  rw [parse, if_pos h]

/-- A text of more than blanks is read from its tokens. -/
theorem parse_of_not_blank {source : String} (h : allBlank source.toList = false)
    (lenient : Bool) :
    parse lenient source = tokenize source >>= boundedOfTokens lenient source.toList.length := by
  rw [parse, h, if_neg Bool.false_ne_true]

theorem not_blank_of_parse {lenient : Bool} {source : String} {e : Tree}
    (h : parse lenient source = .ok e) : allBlank source.toList = false := by
  cases hblank : allBlank source.toList with
  | false => rfl
  | true =>
      rw [parse_of_blank hblank] at h
      cases h

/-- What is read from a text is denoted by the tokens of the text. -/
theorem tokens_of_parse {lenient : Bool} {source : String} {e : Tree}
    (h : parse lenient source = .ok e) :
    ∃ body mark, tokenize source = .ok (body ++ [mark]) ∧ mark.kind = .eof ∧
      (∀ t ∈ body, Lexed t) ∧ Denotes lenient body e := by
  rw [parse_of_not_blank (not_blank_of_parse h)] at h
  obtain ⟨ts, htokens, hbounded⟩ := bind_eq_ok.mp h
  obtain ⟨body, mark, rfl, hmark, hbody⟩ := tokenizeFrom_eq_ok htokens
  exact ⟨body, mark, htokens, hmark, hbody,
    (boundedOfTokens_eq_ok hmark fun t ht => (hbody t ht).not_eof).mp hbounded⟩

theorem denotes_of_parse {lenient : Bool} {source : String} {e : Tree}
    (h : parse lenient source = .ok e) :
    ∃ body, (∀ t ∈ body, Lexed t) ∧ Denotes lenient body e := by
  obtain ⟨body, -, -, -, hbody, hdenotes⟩ := tokens_of_parse h
  exact ⟨body, hbody, hdenotes⟩

/-- A text is read if its tokens are, to a tree that is not too deep. -/
theorem parse_of_tokenize {lenient : Bool} {source : String} {ts : List Token} {e : Tree}
    (hblank : allBlank source.toList = false) (htokens : tokenize source = .ok ts)
    (htree : ofTokens lenient ts = .ok e) (hheight : e.height ≤ maxDepth) :
    parse lenient source = .ok e := by
  have hshallow : ¬ maxDepth < e.depth := by
    rw [depth_eq_height]
    exact Nat.not_lt.mpr hheight
  rw [parse_of_not_blank hblank, htokens, ok_bind, boundedOfTokens, htree, ok_bind,
    if_neg hshallow]
  rfl

/-! ## The trees of phrases -/

theorem known_of_sumOp? {kind : TokenKind} {op : BinaryOp} (h : sumOp? kind = some op) :
    op.known = true := by
  unfold sumOp? at h
  split at h <;> cases h <;> rfl

theorem known_of_productOp? {kind : TokenKind} {op : BinaryOp} (h : productOp? kind = some op) :
    op.known = true := by
  unfold productOp? at h
  split at h <;> cases h <;> rfl

theorem unsigned_of_namedConstant? {name : String} {value : Float}
    (h : namedConstant? name = some value) : Binary64.Unsigned value := by
  unfold namedConstant? at h
  split_ifs at h
  · obtain rfl := Option.some.inj h
    exact Or.inr ⟨7074237752028440, -51, by decide⟩
  · obtain rfl := Option.some.inj h
    exact Or.inr ⟨6121026514868073, -51, by decide⟩

/-- A tree that a phrase can make: names by themselves are neither constants nor
functions, and calls have the arguments that the grammar asks for. -/
inductive Readable (lenient : Bool) : Tree → Prop where
  | const {c : Float} (hc : Binary64.Unsigned c) : Readable lenient (.const c)
  | var {name : String} (hname : isName name = true) (hconstant : namedConstant? name = none)
      (hfunction : Function.ofName? name = none) : Readable lenient (.var name)
  | neg {a : Tree} (ha : Readable lenient a) : Readable lenient (.unary .neg a)
  | binary {op : BinaryOp} {a b : Tree} (hop : op.known = true) (ha : Readable lenient a)
      (hb : Readable lenient b) : Readable lenient (.binary op a b)
  | call {name : String} {args : List Tree} (hname : isName name = true)
      (hargs : ∀ a ∈ args, Readable lenient a) (hnonempty : args ≠ [])
      (hcallable : Callable lenient name args.length) : Readable lenient (.call name args)

/-- What can be read has a text that is unambiguous but for infinity. -/
theorem Readable.plain {lenient : Bool} {e : Tree} (h : Readable lenient e) : e.Plain := by
  induction h with
  | const hc => exact .const hc
  | var hname _ _ => exact .var hname
  | neg _ ih => exact .neg ih
  | binary hop _ _ iha ihb => exact .binary hop iha ihb
  | call hname _ hnonempty _ ih => exact .call hname ih hnonempty

theorem Readable.arithmetic {lenient : Bool} {e : Tree} (h : Readable lenient e) :
    e.Arithmetic := by
  induction h with
  | @const c _ => exact .const c
  | @var name _ _ _ => exact .var name
  | neg _ ih => exact .neg ih
  | binary hop _ _ iha ihb => exact .binary hop iha ihb
  | call _ _ _ _ ih => exact .call ih

mutual

/-- What the grammar derives from tokens of a text can be read. -/
theorem SumPhrase.readable {lenient : Bool} : ∀ {n : Nat} {ts : List Token} {e : Tree},
    SumPhrase lenient n ts e → (∀ t ∈ ts, Lexed t) → Readable lenient e
  | _, _, _, .single h, hts => h.readable hts
  | _, _, _, .chain ha hop hb, hts => by
      obtain ⟨hleft, hright⟩ := List.forall_mem_append.mp hts
      exact .binary (known_of_sumOp? hop) (ha.readable hleft)
        (hb.readable (List.forall_mem_cons.mp hright).2)

theorem ProductPhrase.readable {lenient : Bool} : ∀ {n : Nat} {ts : List Token} {e : Tree},
    ProductPhrase lenient n ts e → (∀ t ∈ ts, Lexed t) → Readable lenient e
  | _, _, _, .single h, hts => h.readable hts
  | _, _, _, .chain ha hop hb, hts => by
      obtain ⟨hleft, hright⟩ := List.forall_mem_append.mp hts
      exact .binary (known_of_productOp? hop) (ha.readable hleft)
        (hb.readable (List.forall_mem_cons.mp hright).2)

theorem OperandPhrase.readable {lenient : Bool} : ∀ {n : Nat} {ts : List Token} {e : Tree},
    OperandPhrase lenient n ts e → (∀ t ∈ ts, Lexed t) → Readable lenient e
  | _, _, _, .minus _ ha, hts => .neg (ha.readable (List.forall_mem_cons.mp hts).2)
  | _, _, _, .plus _ ha, hts => ha.readable (List.forall_mem_cons.mp hts).2
  | _, _, _, .power h, hts => h.readable hts

theorem PowerPhrase.readable {lenient : Bool} : ∀ {n : Nat} {ts : List Token} {e : Tree},
    PowerPhrase lenient n ts e → (∀ t ∈ ts, Lexed t) → Readable lenient e
  | _, _, _, .base h, hts => h.readable hts
  | _, _, _, .raised ha _ hb, hts => by
      obtain ⟨hleft, hright⟩ := List.forall_mem_append.mp hts
      exact .binary rfl (ha.readable hleft) (hb.readable (List.forall_mem_cons.mp hright).2)

theorem PrimaryPhrase.readable {lenient : Bool} : ∀ {n : Nat} {ts : List Token} {e : Tree},
    PrimaryPhrase lenient n ts e → (∀ t ∈ ts, Lexed t) → Readable lenient e
  | _, _, _, .number ht hvalue, hts =>
      .const ((hts _ List.mem_cons_self).unsigned_of_number ht _ hvalue)
  | _, _, _, .constant _ hvalue, _ => .const (unsigned_of_namedConstant? hvalue)
  | _, _, _, .free ht hconstant hfunction, hts =>
      .var ((hts _ List.mem_cons_self).isName_of_name ht) hconstant hfunction
  | _, _, _, .group _ he _, hts =>
      he.readable (List.forall_mem_append.mp (List.forall_mem_cons.mp hts).2).1
  | _, _, _, .call hname _ hargs _ hcallable, hts => by
      obtain ⟨hfirst, hbehind⟩ := List.forall_mem_cons.mp hts
      obtain ⟨-, hinner⟩ := List.forall_mem_cons.mp hbehind
      exact .call (hfirst.isName_of_name hname)
        (hargs.readable (List.forall_mem_append.mp hinner).1)
        (List.ne_nil_of_length_pos hargs.length_pos) hcallable

theorem ArgumentsPhrase.readable {lenient : Bool} :
    ∀ {n : Nat} {ts : List Token} {args : List Tree}, ArgumentsPhrase lenient n ts args →
      (∀ t ∈ ts, Lexed t) → ∀ a ∈ args, Readable lenient a
  | _, _, _, .single h, hts => List.forall_mem_singleton.mpr (h.readable hts)
  | _, _, _, .more hargs _ he, hts => by
      obtain ⟨hbefore, hlast⟩ := List.forall_mem_append.mp hts
      have harg := he.readable (List.forall_mem_cons.mp hlast).2
      exact List.forall_mem_append.mpr
        ⟨hargs.readable hbefore, List.forall_mem_singleton.mpr harg⟩

end

/-- Every tree that is read from a text is one that a phrase makes. -/
theorem readable_of_parse {lenient : Bool} {source : String} {e : Tree}
    (h : parse lenient source = .ok e) : Readable lenient e := by
  obtain ⟨body, hbody, ⟨n, -, hsum⟩, -⟩ := denotes_of_parse h
  exact hsum.readable hbody

/-- Every tree that is read from a text is plain. -/
theorem plain_of_parse {lenient : Bool} {source : String} {e : Tree}
    (h : parse lenient source = .ok e) : e.Plain :=
  (readable_of_parse h).plain

end Fluxion.Source
