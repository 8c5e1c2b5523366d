import Fluxion.Proofs.Source.Tokens

/-!
# Calls of names outside the table

A reader that takes calls of any name and one that refuses names outside the table give the
same as long as no such name is called, and the second one ends at the first that is:
`Lockstep`.  So where both read a text, they read the same tree, and the tree tells whether
both do: `parse_strict_iff_lenient`.
-/

namespace Fluxion.Source

open Fluxion.Expr Fluxion.Text

/-- The names that an opening parenthesis follows, in the order in which they stand. -/
def calledNames : List Token → List Token
  | [] => []
  | t :: ts =>
      if t.kind = .name ∧ ts.head?.map Token.kind = some .lparen then t :: calledNames ts
      else calledNames ts

/-- The first name outside the table that is called. -/
def unknownCall? (ts : List Token) : Option Token :=
  (calledNames ts).find? fun t => (Function.ofName? t.text).isNone

/-- The error about a name outside the table. -/
def unknownFunctionAt (t : Token) : Failure :=
  .rejected
    ⟨.unknownFunction t.text, t.start, t.stop, Function.all.map Function.name, some t.text⟩

section Names

variable {t u : Token} {ts us : List Token}

theorem calledNames_cons (h : t.kind ≠ .name) : calledNames (t :: ts) = calledNames ts := by
  rw [calledNames, if_neg fun hname => h hname.1]

theorem calledNames_name (ht : t.kind = .name) (hu : u.kind = .lparen) :
    calledNames (t :: u :: us) = t :: calledNames us := by
  have hopener : u.kind ≠ .name := by
    rw [hu]
    decide
  rw [calledNames, if_pos ⟨ht, congrArg some hu⟩, calledNames_cons hopener]

theorem calledNames_bare (hu : u.kind ≠ .lparen) :
    calledNames (t :: u :: us) = calledNames (u :: us) := by
  rw [calledNames, if_neg fun hname => hu (Option.some.inj hname.2)]

/-- No name goes on over a token that is neither a name nor an opening parenthesis. -/
theorem calledNames_append (hname : t.kind ≠ .name) (hopener : t.kind ≠ .lparen) :
    calledNames (ts ++ t :: us) = calledNames ts ++ calledNames us := by
  induction ts with
  | nil => exact calledNames_cons hname
  | cons first ts ih =>
      have hhead : (ts ++ t :: us).head?.map Token.kind = some .lparen ↔
          ts.head?.map Token.kind = some .lparen := by
        cases ts with
        | nil => simp [hopener]
        | cons _ _ => rfl
      simp only [List.cons_append, calledNames, hhead, ih]
      split_ifs <;> rfl

theorem calledNames_closer (h : u.kind = .rparen) : calledNames (ts ++ [u]) = calledNames ts := by
  rw [calledNames_append (by rw [h]; decide) (by rw [h]; decide)]
  exact List.append_nil _

theorem unknownCall?_cons (h : t.kind ≠ .name) : unknownCall? (t :: ts) = unknownCall? ts := by
  rw [unknownCall?, calledNames_cons h, unknownCall?]

theorem unknownCall?_bare (hu : u.kind ≠ .lparen) :
    unknownCall? (t :: u :: us) = unknownCall? (u :: us) := by
  rw [unknownCall?, calledNames_bare hu, unknownCall?]

theorem unknownCall?_known {f : Function} (ht : t.kind = .name) (hu : u.kind = .lparen)
    (hf : Function.ofName? t.text = some f) :
    unknownCall? (t :: u :: us) = unknownCall? us := by
  rw [unknownCall?, calledNames_name ht hu, List.find?_cons_of_neg (by simp [hf]), unknownCall?]

theorem unknownCall?_unknown (ht : t.kind = .name) (hu : u.kind = .lparen)
    (hf : Function.ofName? t.text = none) : unknownCall? (t :: u :: us) = some t := by
  rw [unknownCall?, calledNames_name ht hu, List.find?_cons_of_pos (by simp [hf])]

end Names

/-! ## Two readers side by side -/

variable {β γ : Type}

/-- What a strict and a lenient reader give for the same tokens: the same, or the strict one
refuses the first name outside the table that is called.  Where both go on, no such name was
called yet. -/
inductive Lockstep (ts : List Token) :
    Except Failure (β × List Token) → Except Failure (β × List Token) → Prop
  | ok {b : β} {rest : List Token} (hrest : unknownCall? rest = unknownCall? ts) :
      Lockstep ts (.ok (b, rest)) (.ok (b, rest))
  | error (failure : Failure) : Lockstep ts (.error failure) (.error failure)
  | refused {t : Token} {lenient : Except Failure (β × List Token)}
      (ht : unknownCall? ts = some t) : Lockstep ts (.error (unknownFunctionAt t)) lenient

/-- The readers stay side by side on all tokens. -/
def InLockstep (strict lenient : Reader β) : Prop :=
  ∀ ts, Lockstep ts (strict ts) (lenient ts)

section Steps

variable {ts us : List Token}

theorem Lockstep.of_eq {strict lenient : Except Failure (β × List Token)}
    (h : Lockstep us strict lenient) (hts : unknownCall? us = unknownCall? ts) :
    Lockstep ts strict lenient := by
  cases h with
  | ok hrest => exact .ok (hrest.trans hts)
  | error failure => exact .error failure
  | refused ht => exact .refused (hts.symm.trans ht)

/-- Readers that stay side by side do so through one part after the other. -/
theorem Lockstep.bind {strict lenient : Except Failure (β × List Token)}
    {next next' : β × List Token → Except Failure (γ × List Token)}
    (h : Lockstep ts strict lenient)
    (hnext : ∀ b rest, Lockstep rest (next (b, rest)) (next' (b, rest))) :
    Lockstep ts (strict >>= next) (lenient >>= next') := by
  cases h with
  | ok hrest => exact (hnext _ _).of_eq hrest
  | error failure => exact .error failure
  | refused ht => exact .refused ht

/-- Both look at the same token. -/
theorem Lockstep.peek {next next' : Token → Except Failure (γ × List Token)}
    (h : ∀ t us, ts = t :: us → Lockstep ts (next t) (next' t)) :
    Lockstep ts (Source.peek ts >>= next) (Source.peek ts >>= next') := by
  cases ts with
  | nil => exact .error _
  | cons t us => exact h t us rfl

/-- Both take the same token, which is no name. -/
theorem Lockstep.cons {t : Token} {strict lenient : Except Failure (β × List Token)}
    (ht : t.kind ≠ .name) (h : Lockstep us strict lenient) : Lockstep (t :: us) strict lenient :=
  h.of_eq (unknownCall?_cons ht).symm

end Steps

section Readers

theorem ne_name_of_sumOp? {kind : TokenKind} {op : BinaryOp} (h : sumOp? kind = some op) :
    kind ≠ .name ∧ kind ≠ .lparen := by
  cases kind <;> simp_all [sumOp?]

theorem ne_name_of_productOp? {kind : TokenKind} {op : BinaryOp}
    (h : productOp? kind = some op) : kind ≠ .name ∧ kind ≠ .lparen := by
  cases kind <;> simp_all [productOp?]

section Chain

variable {op? : TokenKind → Option BinaryOp} {strict lenient : Reader Tree}

theorem chainFrom_lockstep (hop : ∀ {kind op}, op? kind = some op → kind ≠ .name ∧ kind ≠ .lparen)
    (hoperand : InLockstep strict lenient) (rounds : Nat) (left : Tree) :
    InLockstep (chainFrom op? strict rounds left) (chainFrom op? lenient rounds left) := by
  induction rounds generalizing left with
  | zero => exact fun ts => .ok rfl
  | succ rounds ih =>
      intro ts
      refine .peek fun t us hts => ?_
      subst hts
      split
      · exact .ok rfl
      · next op hsign => exact .cons (hop hsign).1 ((hoperand us).bind fun right rest => ih _ rest)

theorem chain_lockstep (hop : ∀ {kind op}, op? kind = some op → kind ≠ .name ∧ kind ≠ .lparen)
    (hoperand : InLockstep strict lenient) : InLockstep (chain op? strict) (chain op? lenient) :=
  fun ts => (hoperand ts).bind fun _ rest => chainFrom_lockstep hop hoperand _ _ rest

theorem sum_lockstep (hoperand : InLockstep strict lenient) :
    InLockstep (sum strict) (sum lenient) :=
  chain_lockstep ne_name_of_sumOp? (chain_lockstep ne_name_of_productOp? hoperand)

end Chain

theorem close_lockstep (opener : Token) : InLockstep (close opener) (close opener) := by
  intro ts
  refine .peek fun t us hts => ?_
  subst hts
  split
  · next hkind => exact .cons (by rw [hkind]; decide) (.ok rfl)
  · exact .error _
  · exact .error _

section Calls

variable {strict lenient : Reader Tree}

theorem argumentsFrom_lockstep (name : String) (function? : Option Function)
    (hargument : InLockstep strict lenient) (rounds : Nat) (read : List Tree) :
    InLockstep (argumentsFrom name function? strict rounds read)
      (argumentsFrom name function? lenient rounds read) := by
  induction rounds generalizing read with
  | zero => exact fun ts => .ok rfl
  | succ rounds ih =>
      intro ts
      refine .peek fun t us hts => ?_
      subst hts
      split_ifs with hcomma
      · have hnext : Lockstep us (strict us >>= fun a =>
            argumentsFrom name function? strict rounds (read ++ [a.1]) a.2)
            (lenient us >>= fun a =>
              argumentsFrom name function? lenient rounds (read ++ [a.1]) a.2) :=
          (hargument us).bind fun a rest => ih _ rest
        have hname : t.kind ≠ .name := by
          rw [hcomma]
          decide
        cases function? with
        | none => exact .cons hname hnext
        | some f =>
            dsimp only
            split_ifs
            · exact .error _
            · exact .cons hname hnext
      · exact .ok rfl

/-- Where a call starts, a name outside the table is refused at once by the strict reader. -/
theorem callOf_lockstep (hargument : InLockstep strict lenient) {name opener : Token}
    (hname : name.kind = .name) (hopener : opener.kind = .lparen) (us : List Token) :
    Lockstep (name :: opener :: us) (callOf false name strict (opener :: us))
      (callOf true name lenient (opener :: us)) := by
  cases hf : Function.ofName? name.text with
  | none =>
      have hrefused : callOf false name strict (opener :: us) =
          .error (unknownFunctionAt name) := by
        simp [callOf, hf, unknownFunctionAt]
      rw [hrefused]
      exact .refused (unknownCall?_unknown hname hopener hf)
  | some f =>
      refine Lockstep.of_eq ?_ (unknownCall?_known hname hopener hf).symm
      rw [callOf, callOf, hf]
      refine (hargument us).bind fun a rest => ?_
      refine (argumentsFrom_lockstep _ _ hargument _ _ rest).bind fun args rest => ?_
      exact (close_lockstep opener rest).bind fun _ rest => .ok rfl

theorem bareName_lockstep (name : Token) : InLockstep (bareName name) (bareName name) := by
  intro ts
  rw [bareName]
  split
  · exact .ok rfl
  · split
    · exact .peek fun t us hts => .error _
    · exact .ok rfl

end Calls

section Operands

variable {strict lenient : Nat → Reader Tree}

theorem primary_lockstep (hoperand : ∀ groups, InLockstep (strict groups) (lenient groups))
    (groups : Nat) : InLockstep (primary false strict groups) (primary true lenient groups) := by
  intro ts
  refine .peek fun t us hts => ?_
  subst hts
  split
  · next hkind =>
      split
      · exact .cons (by rw [hkind]; decide) (.ok rfl)
      · exact .error _
  · next hkind =>
      rw [List.tail_cons]
      cases us with
      | nil => exact .error _
      | cons next us =>
          change Lockstep _ (if next.kind = .lparen then _ else _)
            (if next.kind = .lparen then _ else _)
          split_ifs with hopener
          · exact callOf_lockstep (sum_lockstep (hoperand _)) hkind hopener us
          · exact (bareName_lockstep t (next :: us)).of_eq (unknownCall?_bare hopener).symm
  · next hkind =>
      refine .cons (by rw [hkind]; decide) ?_
      refine (sum_lockstep (hoperand _) us).bind fun inner rest => ?_
      exact (close_lockstep t rest).bind fun _ rest => .ok rfl
  · split_ifs <;> exact .error _
  · exact .error _

theorem power_lockstep (hoperand : ∀ groups, InLockstep (strict groups) (lenient groups))
    (groups : Nat) : InLockstep (power false strict groups) (power true lenient groups) := by
  intro ts
  refine (primary_lockstep hoperand groups ts).bind fun base rest => ?_
  refine .peek fun t us hts => ?_
  subst hts
  dsimp only
  split_ifs with hcaret
  · exact .cons (by rw [hcaret]; decide) ((hoperand groups us).bind fun exponent rest => .ok rfl)
  · exact .ok rfl

end Operands

/-- One level of nesting after the other. -/
theorem operand_lockstep (left groups : Nat) :
    InLockstep (operand false left groups) (operand true left groups) := by
  induction left generalizing groups with
  | zero => exact fun ts => .peek fun t us hts => .error _
  | succ left ih =>
      intro ts
      refine .peek fun t us hts => ?_
      subst hts
      split
      · next hkind =>
          exact .cons (by rw [hkind]; decide) ((ih groups us).bind fun a rest => .ok rfl)
      · next hkind => exact .cons (by rw [hkind]; decide) (ih groups us)
      · exact power_lockstep ih groups _

end Readers

/-! ## Trees

What the grammar derives with calls of any name it derives without them, if there are none in
the tree; and the names that are called in a phrase are those of the calls in its tree.  Both
inductions are on the derivation. -/

/-- Whatever may be called in the tree in one grammar may be called in the other. -/
def CallsCarryOver (lenient lenient' : Bool) (e : Tree) : Prop :=
  ∀ name args, Subtree (.call name args) e → Callable lenient name args.length →
    Callable lenient' name args.length

theorem CallsCarryOver.of_mem_children {lenient lenient' : Bool} {e c : Tree}
    (h : CallsCarryOver lenient lenient' e) (hc : c ∈ e.children) :
    CallsCarryOver lenient lenient' c :=
  fun name args hsub => h name args (.child hc hsub)

/-- Any call may stand where all names may be called. -/
theorem callsCarryOver_true (lenient : Bool) (e : Tree) : CallsCarryOver lenient true e := by
  intro name args _ hcallable
  rw [Callable] at hcallable ⊢
  cases hf : Function.ofName? name with
  | some f => simpa [hf] using hcallable
  | none => rfl

mutual

theorem SumPhrase.carryOver {lenient lenient' : Bool} : ∀ {n : Nat} {ts : List Token} {e : Tree},
    SumPhrase lenient n ts e → CallsCarryOver lenient lenient' e → SumPhrase lenient' n ts e
  | _, _, _, .single h, he => .single (h.carryOver he)
  | _, _, _, .chain ha hop hb, he =>
      .chain (ha.carryOver (he.of_mem_children (by simp [children]))) hop
        (hb.carryOver (he.of_mem_children (by simp [children])))

theorem ProductPhrase.carryOver {lenient lenient' : Bool} :
    ∀ {n : Nat} {ts : List Token} {e : Tree}, ProductPhrase lenient n ts e →
      CallsCarryOver lenient lenient' e → ProductPhrase lenient' n ts e
  | _, _, _, .single h, he => .single (h.carryOver he)
  | _, _, _, .chain ha hop hb, he =>
      .chain (ha.carryOver (he.of_mem_children (by simp [children]))) hop
        (hb.carryOver (he.of_mem_children (by simp [children])))

theorem OperandPhrase.carryOver {lenient lenient' : Bool} :
    ∀ {n : Nat} {ts : List Token} {e : Tree}, OperandPhrase lenient n ts e →
      CallsCarryOver lenient lenient' e → OperandPhrase lenient' n ts e
  | _, _, _, .minus hsign ha, he =>
      .minus hsign (ha.carryOver (he.of_mem_children (by simp [children])))
  | _, _, _, .plus hsign ha, he => .plus hsign (ha.carryOver he)
  | _, _, _, .power h, he => .power (h.carryOver he)

theorem PowerPhrase.carryOver {lenient lenient' : Bool} :
    ∀ {n : Nat} {ts : List Token} {e : Tree}, PowerPhrase lenient n ts e →
      CallsCarryOver lenient lenient' e → PowerPhrase lenient' n ts e
  | _, _, _, .base h, he => .base (h.carryOver he)
  | _, _, _, .raised ha hcaret hb, he =>
      .raised (ha.carryOver (he.of_mem_children (by simp [children]))) hcaret
        (hb.carryOver (he.of_mem_children (by simp [children])))

theorem PrimaryPhrase.carryOver {lenient lenient' : Bool} :
    ∀ {n : Nat} {ts : List Token} {e : Tree}, PrimaryPhrase lenient n ts e →
      CallsCarryOver lenient lenient' e → PrimaryPhrase lenient' n ts e
  | _, _, _, .number ht hvalue, _ => .number ht hvalue
  | _, _, _, .constant ht hvalue, _ => .constant ht hvalue
  | _, _, _, .free ht hconstant hfunction, _ => .free ht hconstant hfunction
  | _, _, _, .group hopener h hcloser, he => .group hopener (h.carryOver he) hcloser
  | _, _, _, .call hname hopener hargs hcloser hcallable, he =>
      .call hname hopener (hargs.carryOver fun _ ha => he.of_mem_children ha) hcloser
        (he _ _ .refl hcallable)

theorem ArgumentsPhrase.carryOver {lenient lenient' : Bool} :
    ∀ {n : Nat} {ts : List Token} {args : List Tree}, ArgumentsPhrase lenient n ts args →
      (∀ a ∈ args, CallsCarryOver lenient lenient' a) → ArgumentsPhrase lenient' n ts args
  | _, _, _, .single h, hargs => .single (h.carryOver (hargs _ List.mem_cons_self))
  | _, _, _, .more hbefore hcomma h, hargs =>
      .more (hbefore.carryOver fun a ha => hargs a (List.mem_append_left _ ha)) hcomma
        (h.carryOver (hargs _ (List.mem_append_right _ List.mem_cons_self)))

end

/-- The calls in a call: itself, and those in its arguments. -/
theorem exists_subtree_call {name called : String} {args : List Tree} :
    (∃ inner, Subtree (.call name inner) (.call called args)) ↔
      called = name ∨ ∃ a ∈ args, ∃ inner, Subtree (.call name inner) a := by
  constructor
  · rintro ⟨inner, hsub⟩
    rcases subtree_iff.mp hsub with heq | ⟨a, ha, hsub⟩
    · exact .inl (Expr.call.inj heq).1.symm
    · exact .inr ⟨a, ha, inner, hsub⟩
  · rintro (rfl | ⟨a, ha, inner, hsub⟩)
    · exact ⟨args, .refl⟩
    · exact ⟨inner, .child ha hsub⟩

mutual

/-- The names that are called in the tree are those that a parenthesis follows among its tokens.
-/
theorem SumPhrase.calls {lenient : Bool} {name : String} :
    ∀ {n : Nat} {ts : List Token} {e : Tree}, SumPhrase lenient n ts e →
      ((∃ t ∈ calledNames ts, t.text = name) ↔ ∃ args, Subtree (.call name args) e)
  | _, _, _, .single h => h.calls
  | _, _, _, .chain ha hop hb => by
      obtain ⟨hname, hopener⟩ := ne_name_of_sumOp? hop
      simp [calledNames_append hname hopener, or_and_right, exists_or, ← ha.calls, ← hb.calls]

theorem ProductPhrase.calls {lenient : Bool} {name : String} :
    ∀ {n : Nat} {ts : List Token} {e : Tree}, ProductPhrase lenient n ts e →
      ((∃ t ∈ calledNames ts, t.text = name) ↔ ∃ args, Subtree (.call name args) e)
  | _, _, _, .single h => h.calls
  | _, _, _, .chain ha hop hb => by
      obtain ⟨hname, hopener⟩ := ne_name_of_productOp? hop
      simp [calledNames_append hname hopener, or_and_right, exists_or, ← ha.calls, ← hb.calls]

theorem OperandPhrase.calls {lenient : Bool} {name : String} :
    ∀ {n : Nat} {ts : List Token} {e : Tree}, OperandPhrase lenient n ts e →
      ((∃ t ∈ calledNames ts, t.text = name) ↔ ∃ args, Subtree (.call name args) e)
  | _, _, _, .minus hsign ha => by
      rw [calledNames_cons (by rw [hsign]; decide), ha.calls]
      simp
  | _, _, _, .plus hsign ha => by rw [calledNames_cons (by rw [hsign]; decide), ha.calls]
  | _, _, _, .power h => h.calls

theorem PowerPhrase.calls {lenient : Bool} {name : String} :
    ∀ {n : Nat} {ts : List Token} {e : Tree}, PowerPhrase lenient n ts e →
      ((∃ t ∈ calledNames ts, t.text = name) ↔ ∃ args, Subtree (.call name args) e)
  | _, _, _, .base h => h.calls
  | _, _, _, @PowerPhrase.raised _ _ _ _ _ caret _ _ ha hcaret hb => by
      have hname : caret.kind ≠ .name := by
        rw [hcaret]
        decide
      have hopener : caret.kind ≠ .lparen := by
        rw [hcaret]
        decide
      simp [calledNames_append hname hopener, or_and_right, exists_or, ← ha.calls, ← hb.calls]

theorem PrimaryPhrase.calls {lenient : Bool} {name : String} :
    ∀ {n : Nat} {ts : List Token} {e : Tree}, PrimaryPhrase lenient n ts e →
      ((∃ t ∈ calledNames ts, t.text = name) ↔ ∃ args, Subtree (.call name args) e)
  | _, _, _, .number _ _ => by simp [calledNames]
  | _, _, _, .constant _ _ => by simp [calledNames]
  | _, _, _, .free _ _ _ => by simp [calledNames]
  | _, _, _, @PrimaryPhrase.group _ _ ts _ closer _ hopener he hcloser => by
      rw [calledNames_cons (by rw [hopener]; decide), calledNames_closer hcloser, he.calls]
  | _, _, _, @PrimaryPhrase.call _ _ ts _ _ closer _ hname hopener hargs hcloser _ => by
      rw [calledNames_name hname hopener, calledNames_closer hcloser, exists_subtree_call,
        ← hargs.calls]
      simp

theorem ArgumentsPhrase.calls {lenient : Bool} {name : String} :
    ∀ {n : Nat} {ts : List Token} {args : List Tree}, ArgumentsPhrase lenient n ts args →
      ((∃ t ∈ calledNames ts, t.text = name) ↔
        ∃ a ∈ args, ∃ inner, Subtree (.call name inner) a)
  | _, _, _, .single h => by
      rw [h.calls]
      simp
  | _, _, _, @ArgumentsPhrase.more _ _ _ _ _ comma _ _ hargs hcomma he => by
      have hname : comma.kind ≠ .name := by
        rw [hcomma]
        decide
      have hopener : comma.kind ≠ .lparen := by
        rw [hcomma]
        decide
      simp [calledNames_append hname hopener, or_and_right, exists_or, hargs.calls, he.calls]

end

/-- Every call in a tree that a phrase makes is one that the grammar has. -/
theorem Readable.callable {lenient : Bool} {e : Tree} (he : Readable lenient e) {name : String}
    {args : List Tree} (h : Subtree (.call name args) e) : Callable lenient name args.length := by
  induction h with
  | refl =>
      cases he with
      | call _ _ _ hcallable => exact hcallable
  | child hc _ ih =>
      cases he with
      | const => cases hc
      | var => cases hc
      | neg ha =>
          obtain rfl := List.mem_singleton.mp hc
          exact ih ha
      | binary _ ha hb =>
          rcases List.mem_pair.mp hc with rfl | rfl
          · exact ih ha
          · exact ih hb
      | call _ hargs => exact ih (hargs _ hc)

/-! ## Texts -/

/-- The strict reader does what the lenient one does, or refuses the first unknown name that is
called. -/
theorem ofTokens_strict_or_refused (ts : List Token) :
    ofTokens false ts = ofTokens true ts ∨
      ∃ t, unknownCall? ts = some t ∧ ofTokens false ts = .error (unknownFunctionAt t) := by
  have hsum : Lockstep ts (sum (operand false maxNesting 0) ts)
      (sum (operand true maxNesting 0) ts) := sum_lockstep (operand_lockstep _ _) ts
  rw [ofTokens, ofTokens]
  generalize sum (operand false maxNesting 0) ts = strict at hsum ⊢
  generalize sum (operand true maxNesting 0) ts = lenient at hsum ⊢
  cases hsum with
  | ok => exact .inl rfl
  | error => exact .inl rfl
  | refused ht => exact .inr ⟨_, ht, rfl⟩

/-- A text is read alike, or the strict parser refuses the first name that it does not know. -/
theorem parse_strict_or_refused (source : String) :
    parse false source = parse true source ∨
      ∃ tokens t, tokenize source = .ok tokens ∧ unknownCall? tokens = some t ∧
        parse false source = .error (unknownFunctionAt t) := by
  rw [parse, parse]
  split_ifs
  · exact .inl rfl
  cases htokens : tokenize source with
  | error failure => exact .inl (by simp only [bind, Except.bind])
  | ok tokens =>
      rw [ok_bind, ok_bind, boundedOfTokens, boundedOfTokens]
      rcases ofTokens_strict_or_refused tokens with heq | ⟨t, ht, hrefused⟩
      · exact .inl (by rw [heq])
      · exact .inr ⟨tokens, t, rfl, ht, by rw [hrefused]; rfl⟩

/-- What is denoted with calls as in the tree in one grammar is read with the other. -/
theorem parse_carryOver {lenient lenient' : Bool} {source : String} {e : Tree}
    (h : parse lenient source = .ok e) (he : CallsCarryOver lenient lenient' e) :
    parse lenient' source = .ok e := by
  obtain ⟨body, mark, htokens, hmark, hbody, ⟨n, hn, hsum⟩, hheight⟩ := tokens_of_parse h
  exact parse_of_tokenize (not_blank_of_parse h) htokens
    ((ofTokens_eq_ok hmark fun t ht => (hbody t ht).not_eof).mpr ⟨n, hn, hsum.carryOver he⟩) hheight

/-- A tree is read with the names of the table alone exactly if it is read with any names and
calls functions of the table only.  Where it calls another name, the first such name of the
text is refused. -/
theorem parse_strict_iff_lenient (source : String) (e : Tree) :
    (parse false source = .ok e ↔ parse true source = .ok e ∧
      ∀ name args, Subtree (.call name args) e → (Function.ofName? name).isSome = true) ∧
    (parse true source = .ok e →
      (∃ name args, Subtree (.call name args) e ∧ Function.ofName? name = none) →
      ∃ tokens t, tokenize source = .ok tokens ∧ unknownCall? tokens = some t ∧
        (∃ args, Subtree (.call t.text args) e) ∧
        parse false source = .error (unknownFunctionAt t)) := by
  have hknown : parse false source = .ok e →
      ∀ name args, Subtree (.call name args) e → (Function.ofName? name).isSome = true := by
    intro h name args hsub
    have hcallable : Callable false name args.length := (readable_of_parse h).callable hsub
    rw [Callable] at hcallable
    cases hf : Function.ofName? name with
    | some f => rfl
    | none => simp [hf] at hcallable
  refine ⟨⟨fun h => ⟨parse_carryOver h (callsCarryOver_true _ _), hknown h⟩, fun ⟨h, hcalls⟩ => ?_⟩,
    fun h hunknown => ?_⟩
  · refine parse_carryOver h fun name args hsub hcallable => ?_
    obtain ⟨f, hf⟩ := Option.isSome_iff_exists.mp (hcalls name args hsub)
    rw [Callable, hf] at hcallable ⊢
    exact hcallable
  · obtain ⟨name, args, hsub, hname⟩ := hunknown
    rcases parse_strict_or_refused source with heq | ⟨tokens, t, htokens, ht, hrefused⟩
    · have hsome := hknown (heq.trans h) name args hsub
      rw [hname] at hsome
      cases hsome
    · obtain ⟨body, mark, hbody, hmark, -, ⟨n, -, hsum⟩, -⟩ := tokens_of_parse h
      obtain rfl := Except.ok.inj (htokens.symm.trans hbody)
      have hcalled : t ∈ calledNames (body ++ [mark]) := List.mem_of_find?_eq_some ht
      have hmarkName : calledNames (body ++ [mark]) = calledNames body ++ calledNames [] :=
        calledNames_append (by rw [hmark]; decide) (by rw [hmark]; decide)
      rw [hmarkName, calledNames, List.append_nil] at hcalled
      exact ⟨_, t, htokens, ht, hsum.calls.mp ⟨t, hcalled, rfl⟩, hrefused⟩

def unknownCallsTokens : List Token :=
  [⟨.name, "sin", 0, 3⟩, ⟨.lparen, "(", 3, 4⟩, ⟨.name, "x", 4, 5⟩, ⟨.rparen, ")", 5, 6⟩,
    ⟨.plus, "+", 6, 7⟩, ⟨.name, "f", 7, 8⟩, ⟨.lparen, "(", 8, 9⟩, ⟨.name, "g", 9, 10⟩,
    ⟨.lparen, "(", 10, 11⟩, ⟨.name, "x", 11, 12⟩, ⟨.rparen, ")", 12, 13⟩, ⟨.rparen, ")", 13, 14⟩,
    endMark 14]

/-- The tree of `sin(x)+f(g(x))`. -/
def unknownCalls : Tree :=
  .binary .add (.call "sin" [.var "x"]) (.call "f" [.call "g" [.var "x"]])

/-- Of the two names outside the table the one that stands first is refused. -/
theorem parse_strict_iff_lenient_unknownCalls :
    parse true "sin(x)+f(g(x))" = .ok unknownCalls ∧
      (∃ name args, Subtree (.call name args) unknownCalls ∧ Function.ofName? name = none) ∧
      parse false "sin(x)+f(g(x))" = .error (unknownFunctionAt ⟨.name, "f", 7, 8⟩) := by
  have htokens : tokenize "sin(x)+f(g(x))" = .ok unknownCallsTokens := by cbv
  have htree : ofTokens true unknownCallsTokens = .ok unknownCalls := by rfl
  have hlenient : parse true "sin(x)+f(g(x))" = .ok unknownCalls :=
    parse_of_tokenize (by decide) htokens htree (by decide)
  have hunknown : ∃ name args, Subtree (.call name args) unknownCalls ∧
      Function.ofName? name = none :=
    ⟨"f", _, .child (List.mem_cons_of_mem _ List.mem_cons_self) .refl, rfl⟩
  obtain ⟨tokens, t, htokens', ht, -, hrefused⟩ :=
    (parse_strict_iff_lenient "sin(x)+f(g(x))" unknownCalls).2 hlenient hunknown
  obtain rfl := Except.ok.inj (htokens.symm.trans htokens')
  have hfirst : unknownCall? unknownCallsTokens = some ⟨.name, "f", 7, 8⟩ := by decide
  obtain rfl := Option.some.inj (ht.symm.trans hfirst)
  exact ⟨hlenient, hunknown, hrefused⟩

end Fluxion.Source
