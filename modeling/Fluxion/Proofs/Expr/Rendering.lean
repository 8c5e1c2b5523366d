import Fluxion.Expr.Text
import Fluxion.Text.Identifier
import Fluxion.Proofs.Decimal.ReadBack
import Fluxion.Proofs.Expr.Shape

/-!
# What the text of a tree tells

The text of a tree starts with a word (a number or a name) or with a parenthesis, and
what follows a tree inside a larger text is never a character of a word.  So the trees
can be read off a text one after the other, from left to right.

There is one exception.  The text of infinity is a name, so infinity and the variable
`inf` cannot be told apart.  What is read off is a tree up to that: `Plain.readsOff`.

* `Plain` is what can be said of the trees that texts denote.
* `nameInfinity` forgets the difference, `readInfinity` recovers a tree where no variable
  is called `inf`.
-/

namespace Fluxion.Expr

open Fluxion.Decimal Fluxion.Number Fluxion.Text

/-- A tree as expressions denote it: constants have no sign, names are names of the
language, operators are known and calls have arguments. -/
inductive Plain : Expr Float → Prop where
  | const {c : Float} (hc : Binary64.Unsigned c) : Plain (.const c)
  | var {name : String} (hname : isName name = true) : Plain (.var name)
  | neg {a : Expr Float} (ha : Plain a) : Plain (.unary .neg a)
  | binary {op : BinaryOp} {a b : Expr Float} (hop : op.known = true) (ha : Plain a)
      (hb : Plain b) : Plain (.binary op a b)
  | call {name : String} {args : List (Expr Float)} (hname : isName name = true)
      (hargs : ∀ a ∈ args, Plain a) (hnonempty : args ≠ []) : Plain (.call name args)

def isInfinite (c : Float) : Bool :=
  match Binary64.ofFloat c with
  | .infinite _ => true
  | _ => false

mutual
def hasInfinity : Expr Float → Bool
  | .const c => isInfinite c
  | .var _ => false
  | .unary _ a => hasInfinity a
  | .binary _ a b => hasInfinity a || hasInfinity b
  | .call _ args => anyHasInfinity args

def anyHasInfinity : List (Expr Float) → Bool
  | [] => false
  | a :: as => hasInfinity a || anyHasInfinity as
end

/-- The variable whose name is the text of infinity. -/
def infinityName : String := "inf"

mutual
/-- The tree with infinity read as a variable. -/
def nameInfinity : Expr Float → Expr Float
  | .const c => if isInfinite c then .var infinityName else .const c
  | .var name => .var name
  | .unary op a => .unary op (nameInfinity a)
  | .binary op a b => .binary op (nameInfinity a) (nameInfinity b)
  | .call name args => .call name (nameInfinityList args)

def nameInfinityList : List (Expr Float) → List (Expr Float)
  | [] => []
  | a :: as => nameInfinity a :: nameInfinityList as
end

mutual
/-- The tree with that variable read as infinity. -/
def readInfinity : Expr Float → Expr Float
  | .const c => .const c
  | .var name => if name = infinityName then .const infinity else .var name
  | .unary op a => .unary op (readInfinity a)
  | .binary op a b => .binary op (readInfinity a) (readInfinity b)
  | .call name args => .call name (readInfinityList args)

def readInfinityList : List (Expr Float) → List (Expr Float)
  | [] => []
  | a :: as => readInfinity a :: readInfinityList as
end

theorem isInfinite_infinity : isInfinite infinity = true := by
  rw [isInfinite, Binary64.ofFloat_infinity]

theorem isInfinite_of_finite {c : Float} {m : Nat} {e : Int}
    (h : Binary64.ofFloat c = .finite false m e) : isInfinite c = false := by
  rw [isInfinite, h]

theorem nameInfinity_infinity : nameInfinity (.const infinity) = .var infinityName := by
  rw [nameInfinity, if_pos isInfinite_infinity]

theorem nameInfinity_of_finite {c : Float} {m : Nat} {e : Int}
    (h : Binary64.ofFloat c = .finite false m e) : nameInfinity (.const c) = .const c := by
  rw [nameInfinity, isInfinite_of_finite h, if_neg Bool.false_ne_true]

/-! ## Words -/

def isWordChar (c : Char) : Bool :=
  isNameChar c || numeralChars.contains c

/-- What may follow a tree inside a larger text: nothing that goes on with a word, and
no parenthesis that makes a name into a call. -/
def Closes : List Char → Prop
  | [] => True
  | c :: _ => isWordChar c = false ∧ c ≠ '('

theorem Closes.stops {rest : List Char} (h : Closes rest) : Stops isWordChar rest := by
  cases rest with
  | nil => trivial
  | cons c rest => exact h.1

theorem Closes.ne_open {rest after : List Char} (h : Closes rest) : rest ≠ '(' :: after := by
  rintro rfl
  exact h.2 rfl

theorem closes_space (rest : List Char) : Closes (' ' :: rest) :=
  ⟨by decide, by decide⟩

theorem closes_comma (rest : List Char) : Closes (',' :: rest) :=
  ⟨by decide, by decide⟩

theorem closes_paren (rest : List Char) : Closes (')' :: rest) :=
  ⟨by decide, by decide⟩

theorem stops_open (rest : List Char) : Stops isWordChar ('(' :: rest) := by
  have hopen : isWordChar '(' = false := by decide
  exact hopen

def startsWord (c : Char) : Bool :=
  isLetter c || isAsciiDigit c

theorem not_isAsciiDigit_of_isLetter {c : Char} (h : isLetter c = true) :
    isAsciiDigit c = false := by
  simp only [isLetter, Char.le_def, UInt32.le_iff_toNat_le, Bool.or_eq_true, Bool.and_eq_true,
    decide_eq_true_eq] at h
  simp only [isAsciiDigit, Char.le_def, UInt32.le_iff_toNat_le, Bool.and_eq_false_iff,
    decide_eq_false_iff_not]
  have ha : 'a'.val.toNat = 97 := rfl
  have hA : 'A'.val.toNat = 65 := rfl
  have h9 : '9'.val.toNat = 57 := rfl
  omega

theorem toList_of_isName {name : String} (h : isName name = true) :
    ∃ c cs, name.toList = c :: cs ∧ isLetter c = true ∧ ∀ d ∈ name.toList, isWordChar d = true := by
  unfold isName at h
  cases hname : name.toList with
  | nil => simp [hname] at h
  | cons c cs =>
      simp only [hname, Bool.and_eq_true, List.all_eq_true] at h
      refine ⟨c, cs, rfl, h.1, fun d hd => ?_⟩
      rw [isWordChar, Bool.or_eq_true]
      left
      rcases List.mem_cons.mp hd with rfl | hd
      · simp [isNameChar, h.1]
      · exact h.2 d hd

theorem isName_infinityName : isName infinityName = true := by
  decide

theorem floatChars_infinity : floatChars infinity = infinityName.toList := by
  rw [floatChars, Binary64.ofFloat_infinity]
  rfl

/-- The text of a finite value without a sign is made of digits and signs, and starts
with a digit. -/
theorem floatChars_of_finite {c : Float} {m : Nat} {e : Int}
    (h : Binary64.ofFloat c = .finite false m e) :
    ∃ d ds, floatChars c = d :: ds ∧ isAsciiDigit d = true ∧
      ∀ d ∈ floatChars c, isWordChar d = true := by
  obtain ⟨x, ⟨hwellFormed, hnonempty, -⟩, htext, -⟩ := floatChars_finite h
  obtain ⟨d, ds, hwhole⟩ := List.exists_cons_of_ne_nil hnonempty
  rw [htext]
  refine ⟨d, ds ++ Numeral.fractionChars x.fraction ++ Numeral.exponentChars x.exponent, ?_,
    hwellFormed.whole d (by simp [hwhole]), fun d hd => ?_⟩
  · simp [signText, Numeral.text, hwhole]
  · rw [isWordChar, Bool.or_eq_true]
    right
    exact List.contains_iff_mem.mpr (mem_numeralChars_of_mem_text hwellFormed d hd)

/-- Characters that make a word. -/
structure IsWord (cs : List Char) : Prop where
  starts : ∃ c rest, cs = c :: rest ∧ startsWord c = true
  goesOn : ∀ c ∈ cs, isWordChar c = true

theorem isWord_of_isName {name : String} (h : isName name = true) : IsWord name.toList := by
  obtain ⟨c, cs, htext, hletter, hall⟩ := toList_of_isName h
  exact ⟨⟨c, cs, htext, by simp [startsWord, hletter]⟩, hall⟩

theorem isWord_floatChars {c : Float} (hc : Binary64.Unsigned c) : IsWord (floatChars c) := by
  rcases hc with rfl | ⟨m, e, hfinite⟩
  · rw [floatChars_infinity]
    exact isWord_of_isName isName_infinityName
  · obtain ⟨d, ds, htext, hd, hall⟩ := floatChars_of_finite hfinite
    exact ⟨⟨d, ds, htext, by simp [startsWord, hd]⟩, hall⟩

/-- The word that the text of a tree starts with. -/
def word : Expr Float → List Char
  | .const c => floatChars c
  | .var name => name.toList
  | .call name _ => name.toList
  | _ => []

/-- The text of a tree behind its word. -/
def afterWord : Expr Float → List Char
  | .unary _ a => '(' :: '-' :: renderChars a ++ [')']
  | .binary op a b =>
      '(' :: renderChars a ++ ' ' :: op.symbol.toList ++ ' ' :: renderChars b ++ [')']
  | .call _ args => '(' :: renderArgs args ++ [')']
  | _ => []

theorem renderChars_eq (e : Expr Float) : renderChars e = word e ++ afterWord e := by
  cases e with
  | const c => simp [renderChars, word, afterWord]
  | var name => simp [renderChars, word, afterWord]
  | unary op a => simp [renderChars, word, afterWord]
  | binary op a b => simp [renderChars, word, afterWord]
  | call name args => simp [renderChars, word, afterWord]

/-! ## The word of a tree -/

/-- Whether a tree is a constant, a variable or a call, so that its text starts with a
word. -/
def startsWithWord : Expr Float → Bool
  | .unary _ _ => false
  | .binary _ _ _ => false
  | _ => true

theorem Plain.isWord_word {e : Expr Float} (h : Plain e) (hword : e.startsWithWord = true) :
    IsWord (word e) := by
  cases h with
  | const hc => exact isWord_floatChars hc
  | var hname => exact isWord_of_isName hname
  | call hname _ _ => exact isWord_of_isName hname
  | neg _ => cases hword
  | binary _ _ _ => cases hword

theorem Plain.word_ne_nil {e : Expr Float} (h : Plain e) (hword : e.startsWithWord = true) :
    word e ≠ [] := by
  obtain ⟨c, cs, hcons, -⟩ := (h.isWord_word hword).starts
  rw [hcons]
  exact List.cons_ne_nil c cs

theorem Plain.isWordChar_of_mem_word {e : Expr Float} (h : Plain e) :
    ∀ c ∈ word e, isWordChar c = true := by
  cases h with
  | const hc => exact (isWord_floatChars hc).goesOn
  | var hname => exact (isWord_of_isName hname).goesOn
  | call hname _ _ => exact (isWord_of_isName hname).goesOn
  | neg _ => simp [word]
  | binary _ _ _ => simp [word]

theorem stops_afterWord (e : Expr Float) {rest : List Char} (hrest : Closes rest) :
    Stops isWordChar (afterWord e ++ rest) := by
  cases e with
  | const c => exact hrest.stops
  | var name => exact hrest.stops
  | unary op a => exact stops_open _
  | binary op a b => exact stops_open _
  | call name args => exact stops_open _

/-- Trees that are read from the front of one text have the same word, and the texts
behind it are the same. -/
theorem word_and_afterWord {a b : Expr Float} (ha : Plain a) (hb : Plain b)
    {rest rest' : List Char} (hrest : Closes rest) (hrest' : Closes rest')
    (h : renderChars a ++ rest = renderChars b ++ rest') :
    word a = word b ∧ afterWord a ++ rest = afterWord b ++ rest' := by
  rw [renderChars_eq, renderChars_eq, List.append_assoc, List.append_assoc] at h
  have hstops := stops_afterWord a hrest
  have hstops' := stops_afterWord b hrest'
  constructor
  · rw [← hstops.takeWhile_append ha.isWordChar_of_mem_word, h,
      hstops'.takeWhile_append hb.isWordChar_of_mem_word]
  · rw [← hstops.dropWhile_append ha.isWordChar_of_mem_word, h,
      hstops'.dropWhile_append hb.isWordChar_of_mem_word]

/-- The text of a tree never starts with a sign. -/
theorem Plain.renderChars_ne_minus {e : Expr Float} (h : Plain e) (rest after : List Char) :
    renderChars e ++ rest ≠ '-' :: after := by
  intro heq
  by_cases hword : e.startsWithWord = true
  · obtain ⟨c, cs, hcons, hstart⟩ := (h.isWord_word hword).starts
    rw [renderChars_eq, hcons] at heq
    obtain rfl : c = '-' := (List.cons.inj heq).1
    exact absurd hstart (by decide)
  · cases h with
    | neg _ => simp [renderChars] at heq
    | binary _ _ _ => simp [renderChars] at heq
    | const _ => exact hword rfl
    | var _ => exact hword rfl
    | call _ _ _ => exact hword rfl

/-! ## Words that are equal -/

/-- A constant has the text of a name only if it is infinity. -/
theorem nameInfinity_const_eq_var {c : Float} {name : String} (hc : Binary64.Unsigned c)
    (hname : isName name = true) (h : floatChars c = name.toList) :
    nameInfinity (.const c) = .var name := by
  rcases hc with rfl | ⟨m, e, hfinite⟩
  · rw [floatChars_infinity] at h
    rw [nameInfinity_infinity, String.toList_inj.mp h]
  · obtain ⟨d, ds, htext, hd, -⟩ := floatChars_of_finite hfinite
    obtain ⟨l, ls, hletters, hl, -⟩ := toList_of_isName hname
    rw [htext, hletters] at h
    obtain rfl := (List.cons.inj h).1
    exact absurd hd (Bool.eq_false_iff.mp (not_isAsciiDigit_of_isLetter hl))

theorem nameInfinity_const_eq {c d : Float} (hc : Binary64.Unsigned c)
    (hd : Binary64.Unsigned d) (h : floatChars c = floatChars d) :
    nameInfinity (.const c) = nameInfinity (.const d) := by
  rcases hd with rfl | ⟨m, e, hfinite⟩
  · rw [floatChars_infinity] at h
    rw [nameInfinity_const_eq_var hc isName_infinityName h, nameInfinity_infinity]
  · rcases hc with rfl | ⟨m', e', hfinite'⟩
    · rw [floatChars_infinity] at h
      rw [nameInfinity_infinity,
        nameInfinity_const_eq_var (Or.inr ⟨m, e, hfinite⟩) isName_infinityName h.symm]
    · rw [floatChars_inj hfinite' hfinite h]

/-! ## Reading trees off a text -/

/-- The tree can be read off the front of a text, up to the name of infinity: another
tree there is the same, and so is the text behind it. -/
def ReadsOff (a : Expr Float) : Prop :=
  ∀ {b : Expr Float} {rest rest' : List Char}, Plain b → Closes rest → Closes rest' →
    renderChars a ++ rest = renderChars b ++ rest' →
      nameInfinity a = nameInfinity b ∧ rest = rest'

def laterArgs : List (Expr Float) → List Char
  | [] => []
  | a :: as => ',' :: ' ' :: renderArgs (a :: as)

theorem renderArgs_cons (a : Expr Float) (as : List (Expr Float)) :
    renderArgs (a :: as) = renderChars a ++ laterArgs as := by
  cases as with
  | nil => simp [renderArgs, laterArgs]
  | cons b bs => rfl

theorem closes_laterArgs (as : List (Expr Float)) (rest : List Char) :
    Closes (laterArgs as ++ ')' :: rest) := by
  cases as with
  | nil => exact closes_paren rest
  | cons a as => exact closes_comma _

/-- Up to the closing parenthesis, a text is that of one list of arguments only. -/
theorem renderArgs_append_inj {as bs : List (Expr Float)} (has : ∀ a ∈ as, ReadsOff a)
    (hbs : ∀ b ∈ bs, Plain b) (hnonempty : as ≠ []) (hnonempty' : bs ≠ [])
    {rest rest' : List Char}
    (h : renderArgs as ++ ')' :: rest = renderArgs bs ++ ')' :: rest') :
    nameInfinityList as = nameInfinityList bs ∧ rest = rest' := by
  induction as generalizing bs with
  | nil => exact absurd rfl hnonempty
  | cons a as ih =>
      obtain ⟨b, bs, rfl⟩ := List.exists_cons_of_ne_nil hnonempty'
      rw [renderArgs_cons, renderArgs_cons, List.append_assoc, List.append_assoc] at h
      obtain ⟨hfirst, hlater⟩ := has a List.mem_cons_self (hbs b List.mem_cons_self)
        (closes_laterArgs as rest) (closes_laterArgs bs rest') h
      rw [nameInfinityList, nameInfinityList, hfirst]
      cases as with
      | nil =>
          cases bs with
          | nil => exact ⟨rfl, (List.cons.inj hlater).2⟩
          | cons b' bs =>
              have hchar := (List.cons.inj hlater).1
              exact absurd hchar (by decide)
      | cons a' as =>
          cases bs with
          | nil =>
              have hchar := (List.cons.inj hlater).1
              exact absurd hchar (by decide)
          | cons b' bs =>
              have hnext := (List.cons.inj (List.cons.inj hlater).2).2
              obtain ⟨heq, hrest⟩ := ih (fun a ha => has a (List.mem_cons_of_mem _ ha))
                (fun b hb => hbs b (List.mem_cons_of_mem _ hb)) (by simp) (by simp) hnext
              exact ⟨by rw [heq], hrest⟩

theorem symbol_of_known {op : BinaryOp} (hop : op.known = true) :
    ∃ c, op.symbol.toList = [c] ∧ BinaryOp.ofSymbol (String.ofList [c]) = op := by
  cases op with
  | add => exact ⟨'+', rfl, rfl⟩
  | sub => exact ⟨'-', rfl, rfl⟩
  | mul => exact ⟨'*', rfl, rfl⟩
  | div => exact ⟨'/', rfl, rfl⟩
  | pow => exact ⟨'^', rfl, rfl⟩
  | other s => exact absurd hop (by simp [BinaryOp.known])

theorem symbol_append_inj {op op' : BinaryOp} (hop : op.known = true) (hop' : op'.known = true)
    {rest rest' : List Char} (h : op.symbol.toList ++ rest = op'.symbol.toList ++ rest') :
    op = op' ∧ rest = rest' := by
  obtain ⟨c, hc, hof⟩ := symbol_of_known hop
  obtain ⟨c', hc', hof'⟩ := symbol_of_known hop'
  rw [hc, hc'] at h
  obtain ⟨rfl, hrest⟩ := List.cons.inj h
  exact ⟨hof.symm.trans hof', hrest⟩

/-- What stands behind the left operand of an operator. -/
def behindLeft (op : BinaryOp) (b : Expr Float) (rest : List Char) : List Char :=
  ' ' :: (op.symbol.toList ++ ' ' :: (renderChars b ++ ')' :: rest))

theorem afterWord_neg_append (a : Expr Float) (rest : List Char) :
    afterWord (.unary .neg a) ++ rest = '(' :: '-' :: (renderChars a ++ ')' :: rest) := by
  simp [afterWord]

theorem afterWord_binary_append (op : BinaryOp) (a b : Expr Float) (rest : List Char) :
    afterWord (.binary op a b) ++ rest = '(' :: (renderChars a ++ behindLeft op b rest) := by
  simp [afterWord, behindLeft]

theorem afterWord_call_append (name : String) (args : List (Expr Float)) (rest : List Char) :
    afterWord (.call name args) ++ rest = '(' :: (renderArgs args ++ ')' :: rest) := by
  simp [afterWord]

/-- Behind a word that nothing follows, another tree has nothing either. -/
theorem Closes.afterWord_eq_nil {b : Expr Float} {rest rest' : List Char} (hrest : Closes rest)
    (h : rest = afterWord b ++ rest') : afterWord b = [] ∧ rest = rest' := by
  cases b with
  | const c => exact ⟨rfl, h⟩
  | var name => exact ⟨rfl, h⟩
  | unary op a => exact absurd h hrest.ne_open
  | binary op a b => exact absurd h hrest.ne_open
  | call name args => exact absurd h hrest.ne_open

theorem readsOff_const {c : Float} (hc : Binary64.Unsigned c) : ReadsOff (.const c) := by
  intro b rest rest' hb hrest hrest' h
  obtain ⟨hword, hafter⟩ := word_and_afterWord (.const hc) hb hrest hrest' h
  obtain ⟨hnil, htail⟩ := hrest.afterWord_eq_nil hafter
  refine ⟨?_, htail⟩
  cases hb with
  | const hd => exact nameInfinity_const_eq hc hd hword
  | var hname => exact nameInfinity_const_eq_var hc hname hword
  | neg _ => cases hnil
  | binary _ _ _ => cases hnil
  | call _ _ _ => cases hnil

theorem readsOff_var {name : String} (hname : isName name = true) : ReadsOff (.var name) := by
  intro b rest rest' hb hrest hrest' h
  obtain ⟨hword, hafter⟩ := word_and_afterWord (.var hname) hb hrest hrest' h
  obtain ⟨hnil, htail⟩ := hrest.afterWord_eq_nil hafter
  refine ⟨?_, htail⟩
  cases hb with
  | const hd => exact (nameInfinity_const_eq_var hd hname hword.symm).symm
  | var _ => rw [nameInfinity, nameInfinity, String.toList_inj.mp hword]
  | neg _ => cases hnil
  | binary _ _ _ => cases hnil
  | call _ _ _ => cases hnil

/-- A call is read off by its name and then by its arguments. -/
theorem readsOff_call {name : String} {args : List (Expr Float)} (hname : isName name = true)
    (hargs : ∀ a ∈ args, Plain a) (hnonempty : args ≠ []) (hread : ∀ a ∈ args, ReadsOff a) :
    ReadsOff (.call name args) := by
  intro b rest rest' hb hrest hrest' h
  obtain ⟨hword, hafter⟩ := word_and_afterWord (.call hname hargs hnonempty) hb hrest hrest' h
  cases hb with
  | const _ => exact absurd hafter.symm hrest'.ne_open
  | var _ => exact absurd hafter.symm hrest'.ne_open
  | neg _ => exact absurd hword ((Plain.var hname).word_ne_nil rfl)
  | binary _ _ _ => exact absurd hword ((Plain.var hname).word_ne_nil rfl)
  | call _ hargs' hnonempty' =>
      rw [afterWord_call_append, afterWord_call_append] at hafter
      obtain ⟨heq, hrest⟩ :=
        renderArgs_append_inj hread hargs' hnonempty hnonempty' (List.cons.inj hafter).2
      refine ⟨?_, hrest⟩
      rw [nameInfinity, nameInfinity, String.toList_inj.mp hword, heq]

theorem readsOff_neg {a : Expr Float} (ha : Plain a) (hread : ReadsOff a) :
    ReadsOff (.unary .neg a) := by
  intro b rest rest' hb hrest hrest' h
  obtain ⟨hword, hafter⟩ := word_and_afterWord (.neg ha) hb hrest hrest' h
  rw [afterWord_neg_append] at hafter
  cases hb with
  | const hc => exact absurd hword.symm ((Plain.const hc).word_ne_nil rfl)
  | var hname => exact absurd hword.symm ((Plain.var hname).word_ne_nil rfl)
  | call hname _ _ => exact absurd hword.symm ((Plain.var hname).word_ne_nil rfl)
  | neg ha' =>
      rw [afterWord_neg_append] at hafter
      obtain ⟨heq, hclose⟩ := hread ha' (closes_paren rest) (closes_paren rest')
        (List.cons.inj (List.cons.inj hafter).2).2
      refine ⟨?_, (List.cons.inj hclose).2⟩
      rw [nameInfinity, nameInfinity, heq]
  | binary _ hb _ =>
      rw [afterWord_binary_append] at hafter
      exact absurd (List.cons.inj hafter).2.symm (hb.renderChars_ne_minus _ _)

/-- An operation is read off by its left operand, its symbol and its right operand. -/
theorem readsOff_binary {op : BinaryOp} {a a' : Expr Float} (hop : op.known = true)
    (ha : Plain a) (ha' : Plain a') (hread : ReadsOff a) (hread' : ReadsOff a') :
    ReadsOff (.binary op a a') := by
  intro b rest rest' hb hrest hrest' h
  obtain ⟨hword, hafter⟩ := word_and_afterWord (.binary hop ha ha') hb hrest hrest' h
  rw [afterWord_binary_append] at hafter
  cases hb with
  | const hc => exact absurd hword.symm ((Plain.const hc).word_ne_nil rfl)
  | var hname => exact absurd hword.symm ((Plain.var hname).word_ne_nil rfl)
  | call hname _ _ => exact absurd hword.symm ((Plain.var hname).word_ne_nil rfl)
  | neg _ =>
      rw [afterWord_neg_append] at hafter
      exact absurd (List.cons.inj hafter).2 (ha.renderChars_ne_minus _ _)
  | binary hop' hb hb' =>
      rw [afterWord_binary_append] at hafter
      obtain ⟨heq, hbehind⟩ :=
        hread hb (closes_space _) (closes_space _) (List.cons.inj hafter).2
      obtain ⟨rfl, hright⟩ := symbol_append_inj hop hop' (List.cons.inj hbehind).2
      obtain ⟨heq', hclose⟩ :=
        hread' hb' (closes_paren rest) (closes_paren rest') (List.cons.inj hright).2
      refine ⟨?_, (List.cons.inj hclose).2⟩
      rw [nameInfinity, nameInfinity, heq, heq']

/-- Every plain tree can be read off.  What stands behind a subtree inside a tree closes
it, so the induction goes through for any text that closes the whole. -/
theorem Plain.readsOff {a : Expr Float} (ha : Plain a) : ReadsOff a := by
  induction ha with
  | const hc => exact readsOff_const hc
  | var hname => exact readsOff_var hname
  | neg ha ih => exact readsOff_neg ha ih
  | binary hop ha hb iha ihb => exact readsOff_binary hop ha hb iha ihb
  | call hname hargs hnonempty ih => exact readsOff_call hname hargs hnonempty ih

/-! ## Trees with one text -/

theorem nameInfinityList_eq_map (args : List (Expr Float)) :
    nameInfinityList args = args.map nameInfinity := by
  induction args with
  | nil => rfl
  | cons a as ih => rw [nameInfinityList, ih, List.map_cons]

theorem readInfinityList_eq_map (args : List (Expr Float)) :
    readInfinityList args = args.map readInfinity := by
  induction args with
  | nil => rfl
  | cons a as ih => rw [readInfinityList, ih, List.map_cons]

theorem anyHasInfinity_eq_any (args : List (Expr Float)) :
    anyHasInfinity args = args.any hasInfinity := by
  induction args with
  | nil => rfl
  | cons a as ih => rw [anyHasInfinity, ih, List.any_cons]

theorem renderArgs_map {f : Expr Float → Expr Float} {args : List (Expr Float)}
    (h : ∀ a ∈ args, renderChars (f a) = renderChars a) :
    renderArgs (args.map f) = renderArgs args := by
  induction args with
  | nil => rfl
  | cons a as ih =>
      obtain ⟨hfirst, hlater⟩ := List.forall_mem_cons.mp h
      cases as with
      | nil => exact hfirst
      | cons b bs =>
          rw [List.map_cons, List.map_cons, renderArgs, renderArgs, hfirst, ← List.map_cons,
            ih hlater]

/-- Infinity is written as the variable of that name. -/
theorem Plain.renderChars_nameInfinity {e : Expr Float} (h : Plain e) :
    renderChars (nameInfinity e) = renderChars e := by
  induction h with
  | const hc =>
      rcases hc with rfl | ⟨m, e, hfinite⟩
      · rw [nameInfinity_infinity, renderChars, renderChars, floatChars_infinity]
      · rw [nameInfinity_of_finite hfinite]
  | var _ => rfl
  | neg _ ih => rw [nameInfinity, renderChars, renderChars, ih]
  | binary _ _ _ iha ihb => rw [nameInfinity, renderChars, renderChars, iha, ihb]
  | call _ _ _ ih =>
      rw [nameInfinity, renderChars, renderChars, nameInfinityList_eq_map, renderArgs_map ih]

/-- Trees without infinity are left as they are. -/
theorem Plain.nameInfinity_eq_self {e : Expr Float} (h : Plain e)
    (hfinite : e.hasInfinity = false) : nameInfinity e = e := by
  induction h with
  | @const c _ =>
      have hc : isInfinite c = false := hfinite
      rw [nameInfinity, hc, if_neg Bool.false_ne_true]
  | var _ => rfl
  | neg _ ih => rw [nameInfinity, ih hfinite]
  | binary _ _ _ iha ihb =>
      obtain ⟨ha, hb⟩ := Bool.or_eq_false_iff.mp hfinite
      rw [nameInfinity, iha ha, ihb hb]
  | @call _ args _ _ _ ih =>
      have hargs : args.any hasInfinity = false := anyHasInfinity_eq_any args ▸ hfinite
      have hself : ∀ a ∈ args, nameInfinity a = id a := fun a ha =>
        ih a ha (Bool.eq_false_iff.mpr (List.any_eq_false.mp hargs a ha))
      rw [nameInfinity, nameInfinityList_eq_map, List.map_congr_left hself, List.map_id]

/-- Trees without the variable that infinity is read as can be recovered. -/
theorem Plain.readInfinity_nameInfinity {e : Expr Float} (h : Plain e)
    (hfree : e.dependsOn infinityName = false) : readInfinity (nameInfinity e) = e := by
  induction h with
  | const hc =>
      rcases hc with rfl | ⟨m, e, hfinite⟩
      · rw [nameInfinity_infinity, readInfinity, if_pos rfl]
      · rw [nameInfinity_of_finite hfinite, readInfinity]
  | @var name _ =>
      have hname : name ≠ infinityName := by
        simpa [dependsOn] using hfree
      rw [nameInfinity, readInfinity, if_neg hname]
  | neg _ ih => rw [nameInfinity, readInfinity, ih hfree]
  | binary _ _ _ iha ihb =>
      obtain ⟨ha, hb⟩ := Bool.or_eq_false_iff.mp hfree
      rw [nameInfinity, readInfinity, iha ha, ihb hb]
  | @call _ args _ _ _ ih =>
      have hargs : args.any (dependsOn infinityName) = false :=
        dependsOnAny_eq_any infinityName args ▸ hfree
      have hself : ∀ a ∈ args, (readInfinity ∘ nameInfinity) a = id a := fun a ha =>
        ih a ha (Bool.eq_false_iff.mpr (List.any_eq_false.mp hargs a ha))
      rw [nameInfinity, readInfinity, nameInfinityList_eq_map, readInfinityList_eq_map,
        List.map_map, List.map_congr_left hself, List.map_id]

/-- Trees that are the same up to the name of infinity are the same, if none of them has
infinity or none of them has the variable of that name. -/
theorem Plain.eq_of_nameInfinity_eq {a b : Expr Float} (ha : Plain a) (hb : Plain b)
    (h : nameInfinity a = nameInfinity b)
    (hclear : (a.hasInfinity = false ∧ b.hasInfinity = false) ∨
      (a.dependsOn infinityName = false ∧ b.dependsOn infinityName = false)) : a = b := by
  rcases hclear with ⟨hfinite, hfinite'⟩ | ⟨hfree, hfree'⟩
  · calc
      a = nameInfinity a := (ha.nameInfinity_eq_self hfinite).symm
      _ = nameInfinity b := h
      _ = b := hb.nameInfinity_eq_self hfinite'
  · calc
      a = readInfinity (nameInfinity a) := (ha.readInfinity_nameInfinity hfree).symm
      _ = readInfinity (nameInfinity b) := by rw [h]
      _ = b := hb.readInfinity_nameInfinity hfree'

end Fluxion.Expr
