import Fluxion.Proofs.Source.Grammar

/-!
# Every phrase is read

What the grammar derives, the readers accept, provided that the token behind the
phrase cannot extend it and that enough levels of nesting are left.  The proof
follows the derivation; a chain is read up to a point where its loop goes on with
the tree of the phrase, so that the loop is never counted.

Together with the readers' reading only phrases this makes the parser the grammar
with its two bounds, and the grammar unambiguous within them.
-/

namespace Fluxion.Source

open Fluxion.Text

/-- The text behind a phrase starts with a token that cannot extend it. -/
def StartsWith (allowed : TokenKind → Prop) : List Token → Prop
  | [] => False
  | t :: _ => allowed t.kind

def EndsOperand (kind : TokenKind) : Prop :=
  kind ≠ .lparen ∧ kind ≠ .caret

def EndsProduct (kind : TokenKind) : Prop :=
  EndsOperand kind ∧ productOp? kind = none

def EndsSum (kind : TokenKind) : Prop :=
  EndsProduct kind ∧ sumOp? kind = none

theorem StartsWith.mono {allowed allowed' : TokenKind → Prop} {ts : List Token}
    (himp : ∀ kind, allowed kind → allowed' kind) (h : StartsWith allowed ts) :
    StartsWith allowed' ts := by
  cases ts with
  | nil => exact h
  | cons t rest => exact himp t.kind h

theorem endsOperand_of_productOp? {kind : TokenKind} {op : BinaryOp}
    (h : productOp? kind = some op) : EndsOperand kind := by
  cases kind <;> simp_all [productOp?, EndsOperand]

theorem endsProduct_of_sumOp? {kind : TokenKind} {op : BinaryOp}
    (h : sumOp? kind = some op) : EndsProduct kind := by
  cases kind <;> simp_all [sumOp?, productOp?, EndsProduct, EndsOperand]

theorem endsSum_of_rparen {kind : TokenKind} (h : kind = .rparen) : EndsSum kind := by
  subst h
  simp [EndsSum, EndsProduct, EndsOperand, productOp?, sumOp?]

theorem endsSum_of_comma {kind : TokenKind} (h : kind = .comma) : EndsSum kind := by
  subst h
  simp [EndsSum, EndsProduct, EndsOperand, productOp?, sumOp?]

theorem endsSum_of_eof {kind : TokenKind} (h : kind = .eof) : EndsSum kind := by
  subst h
  simp [EndsSum, EndsProduct, EndsOperand, productOp?, sumOp?]

section Chain

variable {op? : TokenKind → Option BinaryOp} {operand : Reader Tree}

/-- The chain reads the tokens `ts` as `e` and its loop goes on behind them, with a
round for each token that is left. -/
def ChainReaches (op? : TokenKind → Option BinaryOp) (operand : Reader Tree) (ts : List Token)
    (e : Tree) (rest : List Token) : Prop :=
  ∃ rounds, rest.length ≤ rounds ∧
    chain op? operand (ts ++ rest) = chainFrom op? operand rounds e rest

theorem chainReaches_single {ts rest : List Token} {e : Tree}
    (h : operand (ts ++ rest) = .ok (e, rest)) : ChainReaches op? operand ts e rest :=
  ⟨rest.length, Nat.le_refl _, by simp [chain, h]⟩

/-- One more operand behind its operator. -/
theorem chainReaches_chain {ts us rest : List Token} {sign : Token} {op : BinaryOp}
    {a b : Tree} (ha : ChainReaches op? operand ts a (sign :: (us ++ rest)))
    (hop : op? sign.kind = some op) (hb : operand (us ++ rest) = .ok (b, rest)) :
    ChainReaches op? operand (ts ++ sign :: us) (.binary op a b) rest := by
  obtain ⟨rounds, hrounds, hreach⟩ := ha
  cases rounds with
  | zero => simp at hrounds
  | succ rounds =>
      refine ⟨rounds, ?_, ?_⟩
      · simp only [List.length_cons, List.length_append] at hrounds
        omega
      · have hstep : chainFrom op? operand (rounds + 1) a (sign :: (us ++ rest)) =
            chainFrom op? operand rounds (.binary op a b) rest := by
          simp [chainFrom, peek, hop, hb]
        rw [List.append_assoc, List.cons_append, hreach, hstep]

/-- Behind a token that is no operator of the chain the loop ends. -/
theorem ChainReaches.eq_ok {ts rest : List Token} {e : Tree}
    (h : ChainReaches op? operand ts e rest)
    (hrest : StartsWith (fun kind => op? kind = none) rest) :
    chain op? operand (ts ++ rest) = .ok (e, rest) := by
  obtain ⟨rounds, _, hreach⟩ := h
  rw [hreach]
  cases rounds with
  | zero => rfl
  | succ rounds =>
      cases rest with
      | nil => exact hrest.elim
      | cons t rest =>
          have hop : op? t.kind = none := hrest
          simp [chainFrom, peek, hop, pure, Except.pure]

end Chain

/-! ## What phrases start with -/

theorem PrimaryPhrase.head {lenient : Bool} {n : Nat} {ts : List Token} {e : Tree}
    (h : PrimaryPhrase lenient n ts e) :
    ∃ t us, ts = t :: us ∧ (t.kind = .number ∨ t.kind = .name ∨ t.kind = .lparen) := by
  cases h with
  | number ht => exact ⟨_, _, rfl, Or.inl ht⟩
  | constant ht => exact ⟨_, _, rfl, Or.inr (Or.inl ht)⟩
  | free ht => exact ⟨_, _, rfl, Or.inr (Or.inl ht)⟩
  | group hopener => exact ⟨_, _, rfl, Or.inr (Or.inr hopener)⟩
  | call hname => exact ⟨_, _, rfl, Or.inr (Or.inl hname)⟩

theorem PowerPhrase.head {lenient : Bool} {n : Nat} {ts : List Token} {e : Tree}
    (h : PowerPhrase lenient n ts e) :
    ∃ t us, ts = t :: us ∧ (t.kind = .number ∨ t.kind = .name ∨ t.kind = .lparen) := by
  cases h with
  | base h => exact h.head
  | raised ha =>
      obtain ⟨t, us, rfl, ht⟩ := ha.head
      exact ⟨t, _, rfl, ht⟩

/-! ## Completeness -/

section Readers

variable {lenient : Bool} {left groups : Nat}

/-- A power has no sign in front, so the reader of operands hands it on. -/
theorem operand_of_power {n : Nat} {ts rest : List Token} {e : Tree}
    (hphrase : PowerPhrase lenient n ts e)
    (h : power lenient (operand lenient left) groups (ts ++ rest) = .ok (e, rest)) :
    operand lenient (left + 1) groups (ts ++ rest) = .ok (e, rest) := by
  obtain ⟨t, us, rfl, hkind⟩ := hphrase.head
  rw [operand]
  rcases hkind with hkind | hkind | hkind <;> simpa [peek, hkind] using h

theorem operand_minus {sign : Token} {ts rest : List Token} {a : Tree}
    (hsign : sign.kind = .minus) (h : operand lenient left groups ts = .ok (a, rest)) :
    operand lenient (left + 1) groups (sign :: ts) = .ok (.unary .neg a, rest) := by
  simp [operand, peek, hsign, h, pure, Except.pure]

theorem operand_plus {sign : Token} {ts rest : List Token} {a : Tree}
    (hsign : sign.kind = .plus) (h : operand lenient left groups ts = .ok (a, rest)) :
    operand lenient (left + 1) groups (sign :: ts) = .ok (a, rest) := by
  simp [operand, peek, hsign, h]

theorem close_cons {opener closer : Token} {rest : List Token}
    (hcloser : closer.kind = .rparen) : close opener (closer :: rest) = .ok ((), rest) := by
  simp [close, peek, hcloser, pure, Except.pure]

variable {name : String} {function? : Option Function} {argument : Reader Tree}

/-- The arguments `args` are read from the tokens `ts`, and the loop goes on behind
them with a round for each token that is left. -/
def ArgumentsReach (name : String) (function? : Option Function) (argument : Reader Tree)
    (ts : List Token) (args : List Tree) (rest : List Token) : Prop :=
  ∃ first after rounds, rest.length ≤ rounds ∧ argument (ts ++ rest) = .ok (first, after) ∧
    argumentsFrom name function? argument after.length [first] after =
      argumentsFrom name function? argument rounds args rest

theorem argumentsReach_single {ts rest : List Token} {e : Tree}
    (h : argument (ts ++ rest) = .ok (e, rest)) :
    ArgumentsReach name function? argument ts [e] rest :=
  ⟨e, rest, rest.length, Nat.le_refl _, h, rfl⟩

/-- One more argument behind its comma, as long as the function takes it. -/
theorem argumentsReach_more {ts us rest : List Token} {comma : Token} {args : List Tree}
    {e : Tree} (hargs : ArgumentsReach name function? argument ts args (comma :: (us ++ rest)))
    (hcomma : comma.kind = .comma) (he : argument (us ++ rest) = .ok (e, rest))
    (hroom : ∀ f, function? = some f → args.length < f.arity) :
    ArgumentsReach name function? argument (ts ++ comma :: us) (args ++ [e]) rest := by
  obtain ⟨first, after, rounds, hrounds, hfirst, hreach⟩ := hargs
  cases rounds with
  | zero => simp at hrounds
  | succ rounds =>
      have hleft : rest.length ≤ rounds := by
        simp only [List.length_cons, List.length_append] at hrounds
        omega
      have hstep : argumentsFrom name function? argument (rounds + 1) args
          (comma :: (us ++ rest)) =
            argumentsFrom name function? argument rounds (args ++ [e]) rest := by
        cases function? with
        | none => simp [argumentsFrom, peek, hcomma, he]
        | some f =>
            have hfull : ¬ f.arity ≤ args.length := Nat.not_le.mpr (hroom f rfl)
            simp [argumentsFrom, peek, hcomma, he, hfull]
      refine ⟨first, after, rounds, hleft, ?_, ?_⟩
      · rw [List.append_assoc]
        exact hfirst
      · rw [hreach, hstep]

/-- In front of the closing parenthesis the loop ends, and so does the call. -/
theorem callOf_of_reach {name opener closer : Token} {ts rest : List Token} {args : List Tree}
    (hcallable : Callable lenient name.text args.length) (hcloser : closer.kind = .rparen)
    (h : ArgumentsReach name.text (Function.ofName? name.text) argument ts args
      (closer :: rest)) :
    callOf lenient name argument (opener :: (ts ++ closer :: rest)) =
      .ok (.call name.text args, rest) := by
  obtain ⟨first, after, rounds, _, hfirst, hreach⟩ := h
  have hknown : ((Function.ofName? name.text).isNone && !lenient) = false := by
    rw [Callable] at hcallable
    cases hf : Function.ofName? name.text <;> simp_all
  have hend : argumentsFrom name.text (Function.ofName? name.text) argument rounds args
      (closer :: rest) = .ok (args, closer :: rest) := by
    cases rounds with
    | zero => rfl
    | succ rounds => simp [argumentsFrom, peek, hcloser, pure, Except.pure]
  simp [callOf, hknown, peek, hfirst, hreach, hend, close_cons hcloser, pure, Except.pure]

end Readers

/-! The induction is on the derivation.  Sums, products and argument lists reach a
point in front of what follows them; the other phrases are read to their end. -/

mutual

theorem SumPhrase.reaches {lenient : Bool} : ∀ {n : Nat} {ts : List Token} {e : Tree},
    SumPhrase lenient n ts e → ∀ {left groups : Nat} {rest : List Token}, n ≤ left →
      StartsWith EndsProduct rest →
      ChainReaches sumOp? (chain productOp? (operand lenient left groups)) ts e rest
  | _, _, _, .single h, left, groups, rest, hn, hrest => by
      apply chainReaches_single
      exact (h.reaches hn (hrest.mono fun _ h => h.1)).eq_ok (hrest.mono fun _ h => h.2)
  | _, _, _, .chain ha hop hb, left, groups, rest, hn, hrest => by
      obtain ⟨hm, hk⟩ := Nat.max_le.mp hn
      apply chainReaches_chain (ha.reaches hm (endsProduct_of_sumOp? hop)) hop
      exact (hb.reaches hk (hrest.mono fun _ h => h.1)).eq_ok (hrest.mono fun _ h => h.2)

theorem ProductPhrase.reaches {lenient : Bool} : ∀ {n : Nat} {ts : List Token} {e : Tree},
    ProductPhrase lenient n ts e → ∀ {left groups : Nat} {rest : List Token}, n ≤ left →
      StartsWith EndsOperand rest →
      ChainReaches productOp? (operand lenient left groups) ts e rest
  | _, _, _, .single h, _, _, _, hn, hrest => chainReaches_single (h.read hn hrest)
  | _, _, _, .chain ha hop hb, left, groups, rest, hn, hrest => by
      obtain ⟨hm, hk⟩ := Nat.max_le.mp hn
      exact chainReaches_chain (ha.reaches hm (endsOperand_of_productOp? hop)) hop
        (hb.read hk hrest)

theorem OperandPhrase.read {lenient : Bool} : ∀ {n : Nat} {ts : List Token} {e : Tree},
    OperandPhrase lenient n ts e → ∀ {left groups : Nat} {rest : List Token}, n ≤ left →
      StartsWith EndsOperand rest →
      operand lenient left groups (ts ++ rest) = .ok (e, rest)
  | _, _, _, .minus hsign ha, _ + 1, _, _, hn, hrest =>
      operand_minus hsign (ha.read (Nat.le_of_succ_le_succ hn) hrest)
  | _, _, _, .plus hsign ha, _ + 1, _, _, hn, hrest =>
      operand_plus hsign (ha.read (Nat.le_of_succ_le_succ hn) hrest)
  | _, _, _, .power h, _ + 1, _, _, hn, hrest =>
      operand_of_power h (h.read (Nat.le_of_succ_le_succ hn) hrest)

theorem PowerPhrase.read {lenient : Bool} : ∀ {n : Nat} {ts : List Token} {e : Tree},
    PowerPhrase lenient n ts e → ∀ {left groups : Nat} {rest : List Token}, n ≤ left →
      StartsWith EndsOperand rest →
      power lenient (operand lenient left) groups (ts ++ rest) = .ok (e, rest)
  | _, ts, e, .base h, left, groups, rest, hn, hrest => by
      have hbase : primary lenient (operand lenient left) groups (ts ++ rest) = .ok (e, rest) :=
        h.read hn (hrest.mono fun _ h => h.1)
      cases rest with
      | nil => exact hrest.elim
      | cons t rest =>
          have ht : t.kind ≠ .caret := hrest.2
          simp [power, hbase, peek, ht, pure, Except.pure]
  | _, _, _, @PowerPhrase.raised _ _ _ ts us caret a b ha hcaret hb, left, groups, rest, hn,
      hrest => by
      obtain ⟨hm, hk⟩ := Nat.max_le.mp hn
      have hopen : StartsWith (fun kind => kind ≠ .lparen) (caret :: (us ++ rest)) := by
        simp [StartsWith, hcaret]
      have hbase : primary lenient (operand lenient left) groups (ts ++ caret :: (us ++ rest)) =
          .ok (a, caret :: (us ++ rest)) := ha.read hm hopen
      have hexponent : operand lenient left groups (us ++ rest) = .ok (b, rest) :=
        hb.read hk hrest
      simp [power, hbase, peek, hcaret, hexponent, pure, Except.pure]

theorem PrimaryPhrase.read {lenient : Bool} : ∀ {n : Nat} {ts : List Token} {e : Tree},
    PrimaryPhrase lenient n ts e → ∀ {left groups : Nat} {rest : List Token}, n ≤ left →
      StartsWith (fun kind => kind ≠ .lparen) rest →
      primary lenient (operand lenient left) groups (ts ++ rest) = .ok (e, rest)
  | _, _, _, .number ht hvalue, left, groups, rest, hn, hrest => by
      simp [primary, peek, ht, hvalue, pure, Except.pure]
  | _, _, _, .constant ht hvalue, left, groups, t :: rest, hn, hrest => by
      have hopen : t.kind ≠ .lparen := hrest
      simp [primary, peek, ht, hopen, bareName, hvalue]
  | _, _, _, .free ht hconstant hfunction, left, groups, t :: rest, hn, hrest => by
      have hopen : t.kind ≠ .lparen := hrest
      simp [primary, peek, ht, hopen, bareName, hconstant, hfunction]
  | _, _, e, @PrimaryPhrase.group _ _ ts _ closer _ hopener he hcloser, left, groups, rest, hn,
      hrest => by
      have hends : StartsWith EndsSum (closer :: rest) := endsSum_of_rparen hcloser
      have hinner : sum (operand lenient left (groups + 1)) (ts ++ closer :: rest) =
          .ok (e, closer :: rest) :=
        (he.reaches hn (hends.mono fun _ h => h.1)).eq_ok (hends.mono fun _ h => h.2)
      simp [primary, peek, hopener, hinner, close_cons hcloser, pure, Except.pure]
  | _, _, _, @PrimaryPhrase.call _ _ ts name _ closer args hname hopener hargs hcloser
      hcallable, left, groups, rest, hn, hrest => by
      have harity : ∀ f, Function.ofName? name.text = some f → args.length ≤ f.arity := by
        intro f hf
        rw [Callable, hf] at hcallable
        exact Nat.le_of_eq hcallable
      have hends : StartsWith EndsSum (closer :: rest) := endsSum_of_rparen hcloser
      have hreach : ArgumentsReach name.text (Function.ofName? name.text)
          (sum (operand lenient left (groups + 1))) ts args (closer :: rest) :=
        hargs.reaches hn hends harity
      simpa [primary, peek, hname, hopener] using callOf_of_reach hcallable hcloser hreach

theorem ArgumentsPhrase.reaches {lenient : Bool} :
    ∀ {n : Nat} {ts : List Token} {args : List Tree}, ArgumentsPhrase lenient n ts args →
      ∀ {name : String} {function? : Option Function} {left groups : Nat} {rest : List Token},
      n ≤ left → StartsWith EndsSum rest →
      (∀ f, function? = some f → args.length ≤ f.arity) →
      ArgumentsReach name function? (sum (operand lenient left groups)) ts args rest
  | _, _, _, .single h, name, function?, left, groups, rest, hn, hrest, harity => by
      apply argumentsReach_single
      exact (h.reaches hn (hrest.mono fun _ h => h.1)).eq_ok (hrest.mono fun _ h => h.2)
  | _, _, _, @ArgumentsPhrase.more _ _ _ _ _ _ args _ hargs hcomma he, name, function?, left,
      groups, rest, hn, hrest, harity => by
      obtain ⟨hm, hk⟩ := Nat.max_le.mp hn
      have hroom : ∀ f, function? = some f → args.length < f.arity := by
        intro f hf
        have := harity f hf
        rw [List.length_append] at this
        exact this
      apply argumentsReach_more _ hcomma _ hroom
      · exact hargs.reaches hm (endsSum_of_comma hcomma) fun f hf => Nat.le_of_lt (hroom f hf)
      · exact (he.reaches hk (hrest.mono fun _ h => h.1)).eq_ok (hrest.mono fun _ h => h.2)

end

/-- A sum that the grammar derives is read as its tree, up to a token that cannot extend it. -/
theorem SumPhrase.read {lenient : Bool} {n left : Nat} {ts rest : List Token} {e : Tree}
    (h : SumPhrase lenient n ts e) {groups : Nat} (hn : n ≤ left)
    (hrest : StartsWith EndsSum rest) :
    sum (operand lenient left groups) (ts ++ rest) = .ok (e, rest) :=
  (h.reaches hn (hrest.mono fun _ h => h.1)).eq_ok (hrest.mono fun _ h => h.2)

/-! ## The parser is the grammar -/

/-- Two texts with a single mark of the end, each at its own end, are split alike. -/
theorem eq_of_append_eof {body body' rest : List Token} {mark mark' : Token}
    (hbody : ∀ t ∈ body, t.kind ≠ .eof) (hmark' : mark'.kind = .eof)
    (h : body ++ [mark] = body' ++ mark' :: rest) : body = body' := by
  induction body generalizing body' with
  | nil =>
      cases body' with
      | nil => rfl
      | cons t body' => simp at h
  | cons t body ih =>
      cases body' with
      | nil =>
          obtain rfl : t = mark' := (List.cons.inj h).1
          exact absurd hmark' (hbody t (by simp))
      | cons t' body' =>
          obtain ⟨rfl, htail⟩ := List.cons.inj h
          rw [ih (fun u hu => hbody u (by simp [hu])) htail]

/-- Tokens are read exactly if the grammar derives a tree from them without too deep a nesting. -/
theorem ofTokens_eq_ok {lenient : Bool} {body : List Token} {mark : Token} {e : Tree}
    (hmark : mark.kind = .eof) (hbody : ∀ t ∈ body, t.kind ≠ .eof) :
    ofTokens lenient (body ++ [mark]) = .ok e ↔
      ∃ n, n ≤ maxNesting ∧ SumPhrase lenient n body e := by
  constructor
  · intro h
    obtain ⟨⟨read, rest⟩, hread, hrest⟩ := bind_eq_ok.mp h
    obtain ⟨n, us, hn, hus, hphrase⟩ := sum_readsOnly (operand_readsOnly _ _) _ _ _ hread
    obtain ⟨t, hpeek, hend⟩ := bind_eq_ok.mp hrest
    have hts := peek_eq_ok hpeek
    split at hend
    · next heof =>
        obtain rfl : read = e := by simpa [pure, Except.pure] using hend
        rw [hts] at hus
        obtain rfl : body = us := eq_of_append_eof hbody heof hus
        exact ⟨n, hn, hphrase⟩
    · exact absurd hend (by simp)
    · exact absurd hend (by simp)
  · rintro ⟨n, hn, hphrase⟩
    have hread : sum (operand lenient maxNesting 0) (body ++ [mark]) = .ok (e, [mark]) :=
      hphrase.read hn (endsSum_of_eof hmark)
    simp [ofTokens, hread, peek, hmark, pure, Except.pure]

/-- With the bound on the depth of its tree, tokens are read exactly if they denote it. -/
theorem boundedOfTokens_eq_ok {lenient : Bool} {length : Nat} {body : List Token}
    {mark : Token} {e : Tree} (hmark : mark.kind = .eof) (hbody : ∀ t ∈ body, t.kind ≠ .eof) :
    boundedOfTokens lenient length (body ++ [mark]) = .ok e ↔ Denotes lenient body e := by
  rw [Denotes, ← Expr.depth_eq_height]
  constructor
  · intro h
    obtain ⟨read, hread, hrest⟩ := bind_eq_ok.mp h
    split_ifs at hrest with hdeep
    obtain rfl : read = e := by simpa [pure, Except.pure] using hrest
    exact ⟨(ofTokens_eq_ok hmark hbody).mp hread, Nat.not_lt.mp hdeep⟩
  · rintro ⟨hphrase, hheight⟩
    have hread := (ofTokens_eq_ok hmark hbody).mpr hphrase
    have hshallow : ¬ maxDepth < e.depth := Nat.not_lt.mpr hheight
    simp [boundedOfTokens, hread, hshallow, pure, Except.pure]

/-- The parser accepts exactly its grammar with exactly its bounds, so no list of
tokens has two trees within them. -/
theorem boundedOfTokens_eq_ok_iff_denotes (lenient : Bool) (length : Nat) (body : List Token)
    (mark : Token) (hmark : mark.kind = .eof) (hbody : ∀ t ∈ body, t.kind ≠ .eof) (e : Tree) :
    (boundedOfTokens lenient length (body ++ [mark]) = .ok e ↔ Denotes lenient body e) ∧
      ∀ e', Denotes lenient body e → Denotes lenient body e' → e = e' := by
  refine ⟨boundedOfTokens_eq_ok hmark hbody, ?_⟩
  intro e' he he'
  have hread : boundedOfTokens lenient length (body ++ [mark]) = .ok e :=
    (boundedOfTokens_eq_ok hmark hbody).mpr he
  have hread' : boundedOfTokens lenient length (body ++ [mark]) = .ok e' :=
    (boundedOfTokens_eq_ok hmark hbody).mpr he'
  exact Except.ok.inj (hread.symm.trans hread')

/-- The tokens of `x-y^-x-y`. -/
def differences : List Token :=
  [⟨.name, "x", 0, 1⟩, ⟨.minus, "-", 1, 2⟩, ⟨.name, "y", 2, 3⟩, ⟨.caret, "^", 3, 4⟩,
    ⟨.minus, "-", 4, 5⟩, ⟨.name, "x", 5, 6⟩, ⟨.minus, "-", 6, 7⟩, ⟨.name, "y", 7, 8⟩]

/-- The tree of `(x-y^(-x))-y`. -/
def differencesTree : Tree :=
  .binary .sub (.binary .sub (.var "x") (.binary .pow (.var "y") (.unary .neg (.var "x"))))
    (.var "y")

theorem differences_denotes (lenient : Bool) : Denotes lenient differences differencesTree := by
  have hname : ∀ (name : String) (start stop : Nat), namedConstant? name = none →
      Function.ofName? name = none →
      OperandPhrase lenient 1 [⟨.name, name, start, stop⟩] (.var name) :=
    fun name start stop hconstant hfunction => .power (.base (.free rfl hconstant hfunction))
  have hneg : OperandPhrase lenient 2 [⟨.minus, "-", 4, 5⟩, ⟨.name, "x", 5, 6⟩]
      (.unary .neg (.var "x")) := .minus rfl (hname "x" 5 6 rfl rfl)
  have hpower : PowerPhrase lenient 2
      ([⟨.name, "y", 2, 3⟩] ++ ⟨.caret, "^", 3, 4⟩ :: [⟨.minus, "-", 4, 5⟩, ⟨.name, "x", 5, 6⟩])
      (.binary .pow (.var "y") (.unary .neg (.var "x"))) :=
    .raised (.free rfl rfl rfl) rfl hneg
  have hfirst : SumPhrase lenient 3
      ([⟨.name, "x", 0, 1⟩] ++ ⟨.minus, "-", 1, 2⟩ ::
        ([⟨.name, "y", 2, 3⟩] ++ ⟨.caret, "^", 3, 4⟩ ::
          [⟨.minus, "-", 4, 5⟩, ⟨.name, "x", 5, 6⟩]))
      (.binary .sub (.var "x") (.binary .pow (.var "y") (.unary .neg (.var "x")))) :=
    .chain (.single (.single (hname "x" 0 1 rfl rfl))) rfl (.single (.power hpower))
  have hsum : SumPhrase lenient 3
      ([⟨.name, "x", 0, 1⟩, ⟨.minus, "-", 1, 2⟩, ⟨.name, "y", 2, 3⟩, ⟨.caret, "^", 3, 4⟩,
        ⟨.minus, "-", 4, 5⟩, ⟨.name, "x", 5, 6⟩] ++ ⟨.minus, "-", 6, 7⟩ :: [⟨.name, "y", 7, 8⟩])
      differencesTree :=
    .chain hfirst rfl (.single (hname "y" 7 8 rfl rfl))
  exact ⟨⟨3, by decide, hsum⟩, by decide⟩

/-- The chain is read, and a grouping to the right is not among what it denotes. -/
theorem boundedOfTokens_eq_ok_iff_denotes_differences :
    boundedOfTokens false 8 (differences ++ [endMark 8]) = .ok differencesTree ∧
      ∀ e, Denotes false differences e → differencesTree = e := by
  have h := boundedOfTokens_eq_ok_iff_denotes false 8 differences (endMark 8) rfl (by decide)
    differencesTree
  exact ⟨h.1.mpr (differences_denotes false), fun e => h.2 e (differences_denotes false)⟩

end Fluxion.Source
