import Fluxion.Proofs.Source.Tokens
import Mathlib.Tactic.Common

/-!
# The tokens of written text

`TokenizesTo` says which tokens a piece of text becomes wherever it stands in front of
something that no word goes on with.  Pieces are put together with `append`, `blank`,
`sign` and `operator`; names and the texts of finite values are the pieces.

Tokens carry their positions, which depend on what stands in front of the piece, so what
is said about the tokens of a piece is a condition and not a list.
-/

namespace Fluxion.Source

open Fluxion.Decimal Fluxion.Expr Fluxion.Number Fluxion.Text

/-- A character that a name or a number may go on with. -/
def continuesWord (c : Char) : Bool :=
  isNameChar c || Numeral.continuesNumeral c

/-- The text becomes tokens that meet the condition, none of them an end mark, wherever
no word goes on behind it. -/
def TokenizesTo (cs : List Char) (holds : List Token → Prop) : Prop :=
  ∀ pos rest, Stops continuesWord rest → ∃ ts next, holds ts ∧ (∀ t ∈ ts, t.kind ≠ .eof) ∧
    tokenizeFrom pos (cs ++ rest) = (ts ++ ·) <$> tokenizeFrom next rest

theorem stops_append {p : Char → Bool} {cs rest : List Char} (h : Stops p cs)
    (hrest : Stops p rest) : Stops p (cs ++ rest) := by
  cases cs with
  | nil => exact hrest
  | cons c cs => exact h

/-! ## Steps -/

theorem tokenizeFrom_blank (pos : Nat) (rest : List Char) :
    tokenizeFrom pos (' ' :: rest) = tokenizeFrom (pos + 1) rest := by
  rw [tokenizeFrom]
  rfl

theorem tokenizeFrom_scan {pos : Nat} {c : Char} {rest after : List Char} {t : Token}
    (hspacing : isSpacing c = false) (hscan : scanToken pos c rest = .ok (t, after)) :
    tokenizeFrom pos (c :: rest) = (t :: ·) <$> tokenizeFrom t.stop after := by
  rw [tokenizeFrom, hspacing, if_neg Bool.false_ne_true]
  split
  · next e herror => exact absurd (herror.symm.trans hscan) (by simp)
  · next t' after' hok =>
      obtain ⟨rfl, rfl⟩ := Prod.mk.inj (Except.ok.inj (hscan.symm.trans hok))
      cases tokenizeFrom t.stop after <;> rfl

/-! ## Pieces -/

section Pieces

variable {cs cs' : List Char} {holds holds' : List Token → Prop}

theorem TokenizesTo.imp (h : TokenizesTo cs holds) (himp : ∀ ts, holds ts → holds' ts) :
    TokenizesTo cs holds' := by
  intro pos rest hrest
  obtain ⟨ts, next, hts, heof, htokens⟩ := h pos rest hrest
  exact ⟨ts, next, himp ts hts, heof, htokens⟩

theorem tokenizesTo_nil : TokenizesTo [] (· = []) := by
  intro pos rest _
  refine ⟨[], pos, rfl, by simp, ?_⟩
  rw [List.nil_append]
  cases tokenizeFrom pos rest <;> rfl

/-- A piece in front of one that no word goes on with. -/
theorem TokenizesTo.append (h : TokenizesTo cs holds) (h' : TokenizesTo cs' holds')
    (hcs' : Stops continuesWord cs') :
    TokenizesTo (cs ++ cs') fun ts => ∃ us vs, holds us ∧ holds' vs ∧ ts = us ++ vs := by
  intro pos rest hrest
  obtain ⟨us, middle, hus, heof, hmiddle⟩ := h pos (cs' ++ rest) (stops_append hcs' hrest)
  obtain ⟨vs, final, hvs, heof', hfinal⟩ := h' middle rest hrest
  refine ⟨us ++ vs, final, ⟨us, vs, hus, hvs, rfl⟩, List.forall_mem_append.mpr ⟨heof, heof'⟩, ?_⟩
  rw [List.append_assoc, hmiddle, hfinal]
  cases tokenizeFrom final rest with
  | error e => rfl
  | ok ts => exact congrArg Except.ok (List.append_assoc us vs ts).symm

theorem TokenizesTo.blank (h : TokenizesTo cs holds) : TokenizesTo (' ' :: cs) holds := by
  intro pos rest hrest
  rw [List.cons_append, tokenizeFrom_blank]
  exact h (pos + 1) rest hrest

/-- A sign or a parenthesis in front of a piece. -/
theorem TokenizesTo.sign (c : Char) (kind : TokenKind) (text : String) (h : TokenizesTo cs holds)
    (hscan : ∀ rest, scanOperator (c :: (cs ++ rest)) = some (kind, text, cs ++ rest))
    (hspacing : isSpacing c = false) :
    TokenizesTo (c :: cs) fun ts => ∃ t us, t.kind = kind ∧ holds us ∧ ts = t :: us := by
  intro pos rest hrest
  have htoken : ∃ t, t.kind = kind ∧ Lexed t ∧ scanToken pos c (cs ++ rest) =
      .ok (t, cs ++ rest) := by
    rw [scanToken, hscan rest]
    exact ⟨_, rfl, lexed_of_scanOperator (hscan rest) _ _, rfl⟩
  obtain ⟨t, hkind, hlexed, htoken⟩ := htoken
  obtain ⟨us, final, hus, heof, hfinal⟩ := h t.stop rest hrest
  refine ⟨t :: us, final, ⟨t, us, hkind, hus, rfl⟩,
    List.forall_mem_cons.mpr ⟨hlexed.not_eof, heof⟩, ?_⟩
  rw [List.cons_append, tokenizeFrom_scan hspacing htoken, hfinal]
  cases tokenizeFrom final rest <;> rfl

def operatorKind? : BinaryOp → Option TokenKind
  | .add => some .plus
  | .sub => some .minus
  | .mul => some .star
  | .div => some .slash
  | .pow => some .caret
  | .other _ => none

/-- An operator between blanks in front of a piece.  The blank behind it keeps two stars
apart. -/
theorem TokenizesTo.operator {op : BinaryOp} (hop : op.known = true) (h : TokenizesTo cs holds) :
    TokenizesTo (' ' :: op.symbol.toList ++ ' ' :: cs) fun ts =>
      ∃ t us, operatorKind? op = some t.kind ∧ holds us ∧ ts = t :: us := by
  have hsigned : ∀ (c : Char) (kind : TokenKind) (text : String), op.symbol.toList = [c] →
      operatorKind? op = some kind →
      (∀ rest, scanOperator (c :: (' ' :: cs ++ rest)) = some (kind, text, ' ' :: cs ++ rest)) →
      isSpacing c = false → TokenizesTo (op.symbol.toList ++ ' ' :: cs) fun ts =>
        ∃ t us, operatorKind? op = some t.kind ∧ holds us ∧ ts = t :: us := by
    intro c kind text hsymbol hkind hscan hspacing
    rw [hsymbol, hkind]
    exact (h.blank.sign c kind text hscan hspacing).imp
      fun _ ⟨t, us, ht, hus, hts⟩ => ⟨t, us, congrArg some ht.symm, hus, hts⟩
  refine TokenizesTo.blank ?_
  cases op with
  | add => exact hsigned '+' .plus "+" rfl rfl (fun _ => rfl) (by decide)
  | sub => exact hsigned '-' .minus "-" rfl rfl (fun _ => rfl) (by decide)
  | mul => exact hsigned '*' .star "*" rfl rfl (fun _ => rfl) (by decide)
  | div => exact hsigned '/' .slash "/" rfl rfl (fun _ => rfl) (by decide)
  | pow => exact hsigned '^' .caret "^" rfl rfl (fun _ => rfl) (by decide)
  | other symbol => cases hop

end Pieces

/-! ## Words -/

theorem toNat_lt_of_startsWord {c : Char} (h : startsWord c = true) : c.toNat < 123 := by
  simp only [startsWord, isLetter, isAsciiDigit, Char.le_def, UInt32.le_iff_toNat_le,
    Bool.or_eq_true, Bool.and_eq_true, decide_eq_true_eq] at h
  have hz : 'z'.val.toNat = 122 := rfl
  have hZ : 'Z'.val.toNat = 90 := rfl
  have h9 : '9'.val.toNat = 57 := rfl
  have hc : c.toNat = c.val.toNat := rfl
  omega

/-- A character that a word starts with is no blank, and a digit only if no letter. -/
theorem startsWord_plain {c : Char} (h : startsWord c = true) :
    isSpacing c = false ∧ isBlank c = false ∧ (isLetter c = false ∨ isDigit c = false) := by
  have hall : (List.range 123).all (fun n => !startsWord (Char.ofNat n) ||
      (!isSpacing (Char.ofNat n) && (!isBlank (Char.ofNat n) &&
        (!isLetter (Char.ofNat n) || !isDigit (Char.ofNat n))))) = true := by
    decide
  have hc := List.all_eq_true.mp hall c.toNat (List.mem_range.mpr (toNat_lt_of_startsWord h))
  rw [Char.ofNat_toNat, h] at hc
  simpa using hc

theorem scanOperator_of_startsWord {c : Char} (h : startsWord c = true) (cs : List Char) :
    scanOperator (c :: cs) = none := by
  unfold scanOperator
  split
  case h_13 => rfl
  all_goals
    rename_i heq
    obtain rfl := (List.cons.inj heq).1
    exact absurd h (by decide)

theorem startsNumber_cons {c : Char} (h : startsWord c = true) (cs : List Char) :
    startsNumber (c :: cs) = isDigit c := by
  unfold startsNumber
  split
  · next heq =>
      obtain rfl := (List.cons.inj heq).1
      exact absurd h (by decide)
  · next heq => rw [(List.cons.inj heq).1]
  · next heq => cases heq

/-- No number starts with a letter. -/
theorem startsNumber_of_isLetter {c : Char} (h : isLetter c = true) (cs : List Char) :
    startsNumber (c :: cs) = false := by
  have hstart : startsWord c = true := by simp [startsWord, h]
  obtain ⟨-, -, hdigit⟩ := startsWord_plain hstart
  rw [startsNumber_cons hstart]
  exact hdigit.resolve_left (by simp [h])

/-- A word that is scanned as one token, wherever no word goes on behind it. -/
theorem tokenizesTo_word {c : Char} {word : List Char} {isToken : Token → Prop}
    (hstart : startsWord c = true) (hscan : ∀ pos rest, Stops continuesWord rest →
      ∃ t, isToken t ∧ t.kind ≠ .eof ∧ scanToken pos c (word ++ rest) = .ok (t, rest)) :
    TokenizesTo (c :: word) fun ts => ∃ t, isToken t ∧ ts = [t] := by
  intro pos rest hrest
  obtain ⟨t, ht, heof, htoken⟩ := hscan pos rest hrest
  exact ⟨[t], t.stop, ⟨t, ht, rfl⟩, List.forall_mem_singleton.mpr heof,
    tokenizeFrom_scan (startsWord_plain hstart).1 htoken⟩

/-- A name becomes one token. -/
theorem tokenizesTo_name {name : String} (h : isName name = true) :
    TokenizesTo name.toList fun ts => ∃ t, (t.kind = .name ∧ t.text = name) ∧ ts = [t] := by
  obtain ⟨c, cs, htext, hletter, -⟩ := toList_of_isName h
  have hcs : ∀ d ∈ cs, isNameChar d = true := by
    rw [isName, htext] at h
    exact List.all_eq_true.mp (Bool.and_eq_true_iff.mp h).2
  have hstart : startsWord c = true := by simp [startsWord, hletter]
  have hname : String.ofList (c :: cs) = name := by rw [← htext, String.ofList_toList]
  rw [htext]
  refine tokenizesTo_word hstart fun pos rest hrest =>
    ⟨⟨.name, name, pos, pos + 1 + cs.length⟩, ⟨rfl, rfl⟩, by simp, ?_⟩
  have hstops : Stops isNameChar rest := hrest.mono (by simp +contextual [continuesWord])
  simp [scanToken, scanOperator_of_startsWord hstart, startsNumber_of_isLetter hletter,
    hletter, hstops.takeWhile_append hcs, hstops.dropWhile_append hcs, hname]

/-- A numeral that starts with a digit is scanned to its end.  What stands behind it is
no letter of an exponent. -/
theorem scanNumber_text {x : Numeral} (hx : x.WellFormed) {c : Char} {cs rest : List Char}
    (htext : x.text = c :: cs) (hrest : Stops continuesWord rest) (pos : Nat) :
    scanNumber pos c (c :: (cs ++ rest)) =
      .ok (⟨.number, String.ofList x.text, pos, pos + x.text.length⟩, rest) := by
  have hstops : Stops Numeral.continuesNumeral rest :=
    hrest.mono (by simp +contextual [continuesWord])
  have hscan : Numeral.scan (c :: (cs ++ rest)) = some (x, rest) := by
    rw [← List.cons_append, ← htext]
    exact Numeral.scan_append hx hstops
  rw [scanNumber, hscan]
  cases rest with
  | nil => rfl
  | cons letter after =>
      have hcontinues : Numeral.continuesNumeral letter = false := hstops
      rw [Numeral.continuesNumeral, Bool.or_eq_false_iff] at hcontinues
      have hletter : (letter == 'e' || letter == 'E') = false := hcontinues.2
      simp [hletter]

/-- A finite value is written as a number that reads back as the value. -/
theorem tokenizesTo_float {c : Float} {m : Nat} {e : Int}
    (h : Binary64.ofFloat c = .finite false m e) :
    TokenizesTo (floatChars c) fun ts =>
      ∃ t, (t.kind = .number ∧ readFloat? t.text = some c) ∧ ts = [t] := by
  obtain ⟨x, ⟨hx, hnonempty, -⟩, htext, hvalue⟩ := floatChars_finite h
  obtain ⟨d, ds, hwhole⟩ := List.exists_cons_of_ne_nil hnonempty
  have hdigit : isAsciiDigit d = true := hx.whole d (by simp [hwhole])
  have hstart : startsWord d = true := by simp [startsWord, hdigit]
  obtain ⟨cs, hchars⟩ : ∃ cs, x.text = d :: cs := by simp [Numeral.text, hwhole]
  have hread : readFloat? (String.ofList x.text) = some c :=
    (readFloat?_text hx).trans (congrArg some hvalue)
  have hfloat : floatChars c = d :: cs := htext.trans hchars
  rw [hfloat]
  refine tokenizesTo_word hstart fun pos rest hrest =>
    ⟨⟨.number, String.ofList x.text, pos, pos + x.text.length⟩, ⟨rfl, hread⟩, by simp, ?_⟩
  have hnumber : startsNumber (d :: (cs ++ rest)) = true := by
    rw [startsNumber_cons hstart, isDigit_of_isAsciiDigit hdigit]
  rw [scanToken, scanOperator_of_startsWord hstart]
  simp only [hnumber, if_true]
  exact scanNumber_text hx hchars hrest pos

end Fluxion.Source
