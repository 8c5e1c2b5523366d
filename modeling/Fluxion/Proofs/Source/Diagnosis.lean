import Fluxion.Proofs.Source.Brackets
import Fluxion.Proofs.Source.Refusal
import Fluxion.Proofs.Source.Strictness

/-!
# Errors tell the truth

What an error says about the parentheses and the names of a text holds of its tokens.

`Diagnosed` is what one reader guarantees, given that so many groups are open: what it takes
from the front is balanced, or it fails for a reason that the tokens bear out.  It passes from
one reader to the next, and into a group, where one more is open; so a closing parenthesis is
only called unmatched where the count is zero and everything in front of it is balanced.
-/

namespace Fluxion.Source

open Fluxion.Decimal Fluxion.Text

/-! ## Errors -/

/-- A closing parenthesis with no open group in front of it. -/
def UnmatchedClose (ts : List Token) (t : Token) : Prop :=
  ∃ before behind, ts = before ++ t :: behind ∧ t.kind = .rparen ∧ Balanced (brackets before)

/-- An opening parenthesis whose group is still open at the end. -/
def UnclosedOpen (ts : List Token) (t : Token) : Prop :=
  ∃ before behind, ts = before ++ t :: behind ∧ t.kind = .lparen ∧
    (∃ groups, groupsBehind 0 (brackets before) = some groups) ∧ Balanced (brackets behind)

theorem UnmatchedClose.not_balanced {ts : List Token} {t : Token} (h : UnmatchedClose ts t) :
    ¬ Balanced (brackets ts) := by
  obtain ⟨before, behind, rfl, ht, hbefore⟩ := h
  rw [Balanced, brackets_append, groupsBehind_append, hbefore, Option.bind_some, brackets_cons,
    bracket_of_rparen ht, groupsBehind_cons]
  simp [Bracket.step]

theorem UnclosedOpen.not_balanced {ts : List Token} {t : Token} (h : UnclosedOpen ts t) :
    ¬ Balanced (brackets ts) := by
  obtain ⟨before, behind, rfl, ht, ⟨groups, hbefore⟩, hbehind⟩ := h
  rw [Balanced, brackets_append, groupsBehind_append, hbefore, Option.bind_some, brackets_cons,
    bracket_of_lparen ht, groupsBehind_cons, Bracket.step, Option.bind_some,
    hbehind.groupsBehind_eq]
  simp

/-- The error about a group that is still open at the end. -/
def unclosedAt (opener : Token) : Failure :=
  .rejected ⟨.unclosedOpen, opener.start, opener.stop, ["RPAREN"], some "EOF"⟩

/-- A failure that the tokens bear out, where so many groups are open in front of them. -/
inductive Truthful (lenient : Bool) (groups : Nat) (ts : List Token) : Failure → Prop
  | unmatchedClose {t : Token} (hgroups : groups = 0) (ht : UnmatchedClose ts t) :
      Truthful lenient groups ts (errorAtToken t .unmatchedClose [])
  | unclosedOpen {opener mark : Token} {before inside behind : List Token} {more : Nat}
      (hts : ts = before ++ opener :: (inside ++ mark :: behind)) (hopener : opener.kind = .lparen)
      (hbefore : groupsBehind 0 (brackets before) = some more)
      (hinside : Balanced (brackets inside)) (hmark : mark.kind = .eof) :
      Truthful lenient groups ts (unclosedAt opener)
  | unknownFunction {t : Token} (hlenient : lenient = false) (ht : t ∈ calledNames ts)
      (hunknown : Function.ofName? t.text = none) :
      Truthful lenient groups ts (unknownFunctionAt t)
  | other {failure : Failure} (h : ∀ error, failure = .rejected error →
      error.cause.kind = .unexpectedToken ∨ error.cause.kind = .nestingTooDeep) :
      Truthful lenient groups ts failure

theorem truthful_errorAtToken {lenient : Bool} {groups : Nat} {ts : List Token} (t : Token)
    {cause : Cause} (expected : List String) (h : cause.kind = .unexpectedToken) :
    Truthful lenient groups ts (errorAtToken t cause expected) := by
  refine .other fun error herror => .inl ?_
  obtain rfl := Failure.rejected.inj herror
  exact h

theorem mem_calledNames_append {t : Token} {us : List Token} (vs : List Token)
    (h : t ∈ calledNames us) : t ∈ calledNames (vs ++ us) := by
  induction vs with
  | nil => exact h
  | cons v vs ih =>
      rw [List.cons_append, calledNames]
      split_ifs
      · exact List.mem_cons_of_mem _ ih
      · exact ih

/-- What holds of the rest of the tokens holds of all, if those in front are balanced. -/
theorem Truthful.behind {lenient : Bool} {groups : Nat} {vs us : List Token} {failure : Failure}
    (hvs : Balanced (brackets vs)) (h : Truthful lenient groups us failure) :
    Truthful lenient groups (vs ++ us) failure := by
  cases h with
  | unmatchedClose hgroups ht =>
      obtain ⟨before, behind, rfl, hkind, hbefore⟩ := ht
      have hfront : Balanced (brackets (vs ++ before)) := by
        rw [brackets_append]
        exact hvs.append hbefore
      exact .unmatchedClose hgroups ⟨vs ++ before, behind, by simp, hkind, hfront⟩
  | @unclosedOpen opener mark before inside behind more hts hopener hbefore hinside hmark =>
      subst hts
      have hfront : groupsBehind 0 (brackets (vs ++ before)) = some more := by
        rw [brackets_append, groupsBehind_append, hvs]
        exact hbefore
      rw [← List.append_assoc]
      exact .unclosedOpen rfl hopener hfront hinside hmark
  | unknownFunction hlenient ht hunknown =>
      exact .unknownFunction hlenient (mem_calledNames_append vs ht) hunknown
  | other h => exact .other h

/-- What holds in a group holds of the tokens from its parenthesis on. -/
theorem Truthful.inGroup {lenient : Bool} {groups : Nat} {opener : Token} {us : List Token}
    {failure : Failure} (hopener : opener.kind = .lparen)
    (h : Truthful lenient (groups + 1) us failure) :
    Truthful lenient groups (opener :: us) failure := by
  cases h with
  | unmatchedClose hgroups ht => cases hgroups
  | @unclosedOpen inner mark before inside behind more hts hinner hbefore hinside hmark =>
      subst hts
      have hfront : groupsBehind 0 (brackets (opener :: before)) = some (more + 1) := by
        rw [brackets_cons, bracket_of_lparen hopener, groupsBehind_cons, Bracket.step,
          Option.bind_some]
        exact groupsBehind_add hbefore 1
      rw [← List.cons_append]
      exact .unclosedOpen rfl hinner hfront hinside hmark
  | unknownFunction hlenient ht hunknown =>
      exact .unknownFunction hlenient (mem_calledNames_append [opener] ht) hunknown
  | other h => exact .other h

/-! What a failure that tells the truth says, by the kind of its error. -/

section Kinds

variable {lenient : Bool} {groups : Nat} {ts : List Token} {error : ParseError}

/-- The end mark of a text is its last token, so a group that is open there is never closed. -/
theorem Truthful.unbalanced {body : List Token} {length : Nat}
    (h : Truthful lenient groups ts (.rejected error)) (hts : ts = body ++ [endMark length])
    (hbody : ∀ t ∈ body, t.kind ≠ .eof) (hkind : error.cause.kind = .unbalancedParens) :
    ∃ t, (UnmatchedClose ts t ∨ UnclosedOpen ts t) ∧ error.start = t.start ∧
      error.stop = t.stop := by
  generalize hfailure : Failure.rejected error = failure at h
  cases h with
  | @unmatchedClose t hgroups ht =>
      obtain rfl := Failure.rejected.inj hfailure
      exact ⟨t, .inl ht, rfl, rfl⟩
  | @unclosedOpen opener mark before inside behind more hsplit hopener hbefore hinside hmark =>
      obtain rfl := Failure.rejected.inj hfailure
      have hends : body ++ [endMark length] = (before ++ opener :: inside) ++ mark :: behind := by
        rw [← hts, hsplit, List.append_assoc, List.cons_append]
      have hfront := eq_of_append_eof hbody hmark hends
      rw [hfront] at hts
      have hinside : Balanced (brackets (inside ++ [endMark length])) := by
        rw [brackets_append]
        exact hinside.append rfl
      rw [List.append_assoc, List.cons_append] at hts
      exact ⟨opener, .inr ⟨before, _, hts, hopener, ⟨more, hbefore⟩, hinside⟩, rfl, rfl⟩
  | unknownFunction =>
      obtain rfl := Failure.rejected.inj hfailure
      cases hkind
  | other h =>
      rcases h error hfailure.symm with hother | hother <;> cases hother.symm.trans hkind

theorem Truthful.unknown (h : Truthful lenient groups ts (.rejected error))
    (hkind : error.cause.kind = .unknownFunction) :
    lenient = false ∧ ∃ t ∈ calledNames ts, Function.ofName? t.text = none ∧
      error.start = t.start ∧ error.stop = t.stop := by
  generalize hfailure : Failure.rejected error = failure at h
  cases h with
  | unmatchedClose =>
      obtain rfl := Failure.rejected.inj hfailure
      cases hkind
  | unclosedOpen =>
      obtain rfl := Failure.rejected.inj hfailure
      cases hkind
  | @unknownFunction t hlenient ht hunknown =>
      obtain rfl := Failure.rejected.inj hfailure
      exact ⟨hlenient, t, ht, hunknown, rfl, rfl⟩
  | other h =>
      rcases h error hfailure.symm with hother | hother <;> cases hother.symm.trans hkind

theorem Truthful.kind_ne_empty (h : Truthful lenient groups ts (.rejected error)) :
    error.cause.kind ≠ .emptyExpression := by
  intro hkind
  generalize hfailure : Failure.rejected error = failure at h
  cases h with
  | unmatchedClose | unclosedOpen | unknownFunction =>
      obtain rfl := Failure.rejected.inj hfailure
      cases hkind
  | other h =>
      rcases h error hfailure.symm with hother | hother <;> cases hother.symm.trans hkind

end Kinds

/-! ## Readers -/

variable {β γ : Type}

/-- What a reader may give for these tokens, where so many groups are open: what it takes is
balanced, or its failure tells the truth. -/
inductive Diagnosed (lenient : Bool) (groups : Nat) (ts : List Token) :
    Except Failure (β × List Token) → Prop
  | ok {b : β} {us rest : List Token} (hts : ts = us ++ rest) (hus : Balanced (brackets us)) :
      Diagnosed lenient groups ts (.ok (b, rest))
  | error {failure : Failure} (h : Truthful lenient groups ts failure) :
      Diagnosed lenient groups ts (.error failure)

def Diagnoses (lenient : Bool) (groups : Nat) (read : Reader β) : Prop :=
  ∀ ts, Diagnosed lenient groups ts (read ts)

section Steps

variable {lenient : Bool} {groups : Nat} {t : Token} {ts us vs : List Token}

theorem diagnosed_pure {b : β} : Diagnosed lenient groups ts (.ok (b, ts)) :=
  .ok (List.nil_append _).symm balanced_nil

theorem Diagnosed.behind {outcome : Except Failure (β × List Token)}
    (hvs : Balanced (brackets vs)) (h : Diagnosed lenient groups us outcome) :
    Diagnosed lenient groups (vs ++ us) outcome := by
  cases h with
  | @ok b ws rest hts hws =>
      subst hts
      refine .ok (List.append_assoc _ _ _).symm ?_
      rw [brackets_append]
      exact hvs.append hws
  | error h => exact .error (h.behind hvs)

/-- A token that is no parenthesis is taken. -/
theorem Diagnosed.cons {outcome : Except Failure (β × List Token)} (hopener : t.kind ≠ .lparen)
    (hcloser : t.kind ≠ .rparen) (h : Diagnosed lenient groups us outcome) :
    Diagnosed lenient groups (t :: us) outcome := by
  have ht : Balanced (brackets [t]) := by
    rw [brackets_cons, bracket_of_ne hopener hcloser]
    rfl
  exact h.behind ht

/-- What is read in two parts is diagnosed part by part. -/
theorem Diagnosed.bind {first : Except Failure (β × List Token)}
    {next : β × List Token → Except Failure (γ × List Token)}
    (h : Diagnosed lenient groups ts first)
    (hnext : ∀ b rest, Diagnosed lenient groups rest (next (b, rest))) :
    Diagnosed lenient groups ts (first >>= next) := by
  cases h with
  | ok hts hus =>
      subst hts
      exact (hnext _ _).behind hus
  | error h => exact .error h

theorem Diagnosed.peek {next : Token → Except Failure (γ × List Token)}
    (h : ∀ t us, ts = t :: us → Diagnosed lenient groups ts (next t)) :
    Diagnosed lenient groups ts (Source.peek ts >>= next) := by
  cases ts with
  | nil => exact .error (.other fun error herror => Failure.noConfusion herror)
  | cons t us => exact h t us rfl

/-- Behind an opening parenthesis one more group is open, until the next reader closes it. -/
theorem Diagnosed.inGroup {opener : Token} {first : Except Failure (β × List Token)}
    {next : β × List Token → Except Failure (γ × List Token)} (hopener : opener.kind = .lparen)
    (h : Diagnosed lenient (groups + 1) us first)
    (hnext : ∀ b vs rest, us = vs ++ rest → Balanced (brackets vs) →
      Diagnosed lenient groups (opener :: us) (next (b, rest))) :
    Diagnosed lenient groups (opener :: us) (first >>= next) := by
  cases h with
  | ok hts hus => exact hnext _ _ _ hts hus
  | error h => exact .error (h.inGroup hopener)

/-- Closing a group makes its tokens balanced, and at the end its parenthesis is unclosed. -/
theorem close_diagnosed {opener : Token} {rest : List Token} (hopener : opener.kind = .lparen)
    (hus : Balanced (brackets us)) :
    Diagnosed lenient groups (opener :: (us ++ rest)) (close opener rest) := by
  cases rest with
  | nil => exact .error (.other fun error herror => Failure.noConfusion herror)
  | cons t rest =>
      rw [close, Source.peek, ok_bind]
      split
      · next hcloser =>
          have hts : opener :: (us ++ t :: rest) = opener :: (us ++ [t]) ++ rest := by simp
          refine .ok hts ?_
          rw [brackets_cons, brackets_append, brackets_cons, bracket_of_lparen hopener,
            bracket_of_rparen hcloser]
          exact hus.group
      · next hmark => exact .error (.unclosedOpen (List.nil_append _).symm hopener rfl hus hmark)
      · exact .error (truthful_errorAtToken t _ rfl)

end Steps

section Readers

variable {lenient : Bool} {groups : Nat}

section Chain

variable {op? : TokenKind → Option BinaryOp} {operand : Reader Tree}

theorem chainFrom_diagnoses
    (hop : ∀ {kind op}, op? kind = some op → kind ≠ .lparen ∧ kind ≠ .rparen)
    (hoperand : Diagnoses lenient groups operand) (rounds : Nat) (left : Tree) :
    Diagnoses lenient groups (chainFrom op? operand rounds left) := by
  induction rounds generalizing left with
  | zero => exact fun ts => diagnosed_pure
  | succ rounds ih =>
      refine fun ts => .peek fun t us hts => ?_
      subst hts
      split
      · exact diagnosed_pure
      · next op hsign =>
          obtain ⟨hopener, hcloser⟩ := hop hsign
          exact .cons hopener hcloser ((hoperand us).bind fun right rest => ih _ rest)

theorem chain_diagnoses
    (hop : ∀ {kind op}, op? kind = some op → kind ≠ .lparen ∧ kind ≠ .rparen)
    (hoperand : Diagnoses lenient groups operand) :
    Diagnoses lenient groups (chain op? operand) :=
  fun ts => (hoperand ts).bind fun _ rest => chainFrom_diagnoses hop hoperand _ _ rest

theorem sum_diagnoses (hoperand : Diagnoses lenient groups operand) :
    Diagnoses lenient groups (sum operand) := by
  refine chain_diagnoses ?_ (chain_diagnoses ?_ hoperand)
  · intro kind op hop
    cases kind <;> simp_all [sumOp?]
  · intro kind op hop
    cases kind <;> simp_all [productOp?]

end Chain

theorem argumentsFrom_diagnoses (name : String) (function? : Option Function)
    {argument : Reader Tree} (hargument : Diagnoses lenient groups argument) (rounds : Nat)
    (read : List Tree) :
    Diagnoses lenient groups (argumentsFrom name function? argument rounds read) := by
  induction rounds generalizing read with
  | zero => exact fun ts => diagnosed_pure
  | succ rounds ih =>
      refine fun ts => .peek fun t us hts => ?_
      subst hts
      split_ifs with hcomma
      · have hnext : Diagnosed lenient groups (t :: us) (argument us >>= fun a =>
            argumentsFrom name function? argument rounds (read ++ [a.1]) a.2) :=
          .cons (by rw [hcomma]; decide) (by rw [hcomma]; decide)
            ((hargument us).bind fun a rest => ih _ rest)
        cases function? with
        | none => exact hnext
        | some f =>
            dsimp only
            split_ifs
            · exact .error (truthful_errorAtToken t _ rfl)
            · exact hnext
      · exact diagnosed_pure

/-- A call is a group behind its name, unless the name is refused. -/
theorem callOf_diagnosed {argument : Reader Tree}
    (hargument : Diagnoses lenient (groups + 1) argument) {name opener : Token}
    (hname : name.kind = .name) (hopener : opener.kind = .lparen) (us : List Token) :
    Diagnosed lenient groups (name :: opener :: us)
      (callOf lenient name argument (opener :: us)) := by
  by_cases hknown : lenient = true ∨ (Function.ofName? name.text).isSome = true
  · rw [callOf_cons hknown]
    refine .cons (by rw [hname]; decide) (by rw [hname]; decide) ?_
    have hread : Diagnosed lenient (groups + 1) us
        (readArguments name.text (Function.ofName? name.text) argument us) :=
      (hargument us).bind fun a rest => argumentsFrom_diagnoses _ _ hargument _ _ rest
    refine hread.inGroup hopener fun args vs rest hus hvs => ?_
    subst hus
    exact (close_diagnosed hopener hvs).bind fun _ rest => diagnosed_pure
  · obtain ⟨hlenient, hnone⟩ := not_or.mp hknown
    have hlenient : lenient = false := Bool.not_eq_true _ ▸ hlenient
    have hnone : Function.ofName? name.text = none := Option.not_isSome_iff_eq_none.mp hnone
    have hrefused : callOf lenient name argument (opener :: us) =
        .error (unknownFunctionAt name) := by
      simp [callOf, hnone, hlenient, unknownFunctionAt]
    rw [hrefused]
    refine .error (.unknownFunction hlenient ?_ hnone)
    rw [calledNames_name hname hopener]
    exact List.mem_cons_self

theorem bareName_diagnoses (name : Token) : Diagnoses lenient groups (bareName name) := by
  intro ts
  rw [bareName]
  split
  · exact diagnosed_pure
  · split
    · exact .peek fun t us hts => .error (truthful_errorAtToken t _ rfl)
    · exact diagnosed_pure

/-- A closing parenthesis in the place of an operand is unmatched if no group is open. -/
theorem primary_diagnoses {operand : Nat → Reader Tree}
    (hoperand : Diagnoses lenient (groups + 1) (operand (groups + 1))) :
    Diagnoses lenient groups (primary lenient operand groups) := by
  refine fun ts => .peek fun t us hts => ?_
  subst hts
  split
  · next hkind =>
      split
      · exact .cons (by rw [hkind]; decide) (by rw [hkind]; decide) diagnosed_pure
      · exact .error (.other fun error herror => Failure.noConfusion herror)
  · next hkind =>
      rw [List.tail_cons]
      cases us with
      | nil => exact .error (.other fun error herror => Failure.noConfusion herror)
      | cons next us =>
          change Diagnosed _ _ _ (if next.kind = .lparen then _ else _)
          split_ifs with hopener
          · exact callOf_diagnosed (sum_diagnoses hoperand) hkind hopener us
          · exact .cons (by rw [hkind]; decide) (by rw [hkind]; decide) (bareName_diagnoses t _)
  · next hkind =>
      refine (sum_diagnoses hoperand us).inGroup hkind fun inner vs rest hus hvs => ?_
      rw [hus]
      exact (close_diagnosed hkind hvs).bind fun _ rest => diagnosed_pure
  · next hkind =>
      split_ifs with hgroups
      · exact .error (.unmatchedClose hgroups ⟨[], us, rfl, hkind, balanced_nil⟩)
      · exact .error (truthful_errorAtToken t _ rfl)
  · exact .error (truthful_errorAtToken t _ rfl)

theorem power_diagnoses {operand : Nat → Reader Tree}
    (hoperand : ∀ groups, Diagnoses lenient groups (operand groups)) :
    Diagnoses lenient groups (power lenient operand groups) := by
  refine fun ts => (primary_diagnoses (hoperand _) ts).bind fun base rest => ?_
  refine .peek fun t us hts => ?_
  subst hts
  dsimp only
  split_ifs with hcaret
  · exact .cons (by rw [hcaret]; decide) (by rw [hcaret]; decide)
      ((hoperand groups us).bind fun exponent rest => diagnosed_pure)
  · exact diagnosed_pure

/-- An operand is diagnosed whatever nesting is left, by induction on it. -/
theorem operand_diagnoses (left groups : Nat) :
    Diagnoses lenient groups (operand lenient left groups) := by
  induction left generalizing groups with
  | zero =>
      refine fun ts => .peek fun t us hts => .error (.other fun error herror => .inr ?_)
      obtain rfl := Failure.rejected.inj herror
      rfl
  | succ left ih =>
      refine fun ts => .peek fun t us hts => ?_
      subst hts
      split
      · next hkind =>
          exact .cons (by rw [hkind]; decide) (by rw [hkind]; decide)
            ((ih groups us).bind fun a rest => diagnosed_pure)
      · next hkind => exact .cons (by rw [hkind]; decide) (by rw [hkind]; decide) (ih groups us)
      · exact power_diagnoses ih _

end Readers

/-! ## The parser -/

/-- Whatever error ends the reading of a text, the tokens bear it out. -/
theorem truthful_of_ofTokens {lenient : Bool} {ts : List Token} {failure : Failure}
    (h : ofTokens lenient ts = .error failure) : Truthful lenient 0 ts failure := by
  have hsum : Diagnosed lenient 0 ts (sum (operand lenient maxNesting 0) ts) :=
    sum_diagnoses (operand_diagnoses _ _) ts
  rw [ofTokens] at h
  generalize sum (operand lenient maxNesting 0) ts = first at h hsum
  cases hsum with
  | error htruthful =>
      obtain rfl := Except.error.inj h
      exact htruthful
  | @ok e us rest hts hus =>
      subst hts
      rw [ok_bind] at h
      cases rest with
      | nil =>
          obtain rfl := Except.error.inj h
          exact .other fun error herror => Failure.noConfusion herror
      | cons t rest =>
          dsimp only at h
          rw [Source.peek, ok_bind] at h
          split at h
          · cases h
          · next hcloser =>
              obtain rfl := Except.error.inj h
              exact .unmatchedClose rfl ⟨us, rest, rfl, hcloser, hus⟩
          · obtain rfl := Except.error.inj h
            exact truthful_errorAtToken t _ rfl

theorem truthful_of_boundedOfTokens {lenient : Bool} {length : Nat} {ts : List Token}
    {failure : Failure} (h : boundedOfTokens lenient length ts = .error failure) :
    Truthful lenient 0 ts failure := by
  rcases bind_eq_error.mp h with hread | ⟨e, -, hdeep⟩
  · exact truthful_of_ofTokens hread
  · split_ifs at hdeep
    case neg => cases hdeep
    obtain rfl := Except.error.inj hdeep
    refine .other fun error herror => .inr ?_
    obtain rfl := Failure.rejected.inj herror
    rfl

theorem unexpectedToken_of_scanNumber {pos : Nat} {c : Char} {cs : List Char} {error : ParseError}
    (h : scanNumber pos c cs = .error (.rejected error)) :
    error.cause.kind = .unexpectedToken := by
  unfold scanNumber at h
  split at h
  · obtain rfl := Failure.rejected.inj (Except.error.inj h)
    rfl
  · dsimp only at h
    split at h
    · split_ifs at h
      obtain rfl := Failure.rejected.inj (Except.error.inj h)
      rfl
    · cases h

/-- A text that makes no tokens has a character in it that starts none. -/
theorem unexpectedToken_of_tokenize {source : String} {error : ParseError}
    (h : tokenize source = .error (.rejected error)) : error.cause.kind = .unexpectedToken := by
  obtain ⟨before, c, rest, -, hscan⟩ := exists_scanToken_of_tokenizeFrom h
  unfold scanToken at hscan
  split at hscan
  · cases hscan
  · split_ifs at hscan
    · exact unexpectedToken_of_scanNumber hscan
    · obtain rfl := Failure.rejected.inj (Except.error.inj hscan)
      rfl

/-- A text is blank when nothing of it is left without the blanks at its ends. -/
theorem strip_eq_empty_iff (source : String) :
    strip source = "" ↔ allBlank source.toList = true := by
  have hempty : strip source = "" ↔ stripChars source.toList = [] := by
    rw [strip, ← String.toList_inj, String.toList_ofList]
    rfl
  rw [hempty]
  refine ⟨fun h => ?_, stripChars_eq_nil_of_allBlank⟩
  have hfront : ∀ c ∈ source.toList.dropWhile isBlank, isBlank c = true := by
    intro c hc
    have hnil := List.dropWhile_eq_nil_iff.mp (List.reverse_eq_nil_iff.mp h)
    exact hnil c (List.mem_reverse.mpr hc)
  have hstops := stops_dropWhile isBlank source.toList
  have hdrop : source.toList.dropWhile isBlank = [] := by
    cases hrest : source.toList.dropWhile isBlank with
    | nil => rfl
    | cons c rest =>
        rw [hrest] at hfront hstops
        have hblank := hfront c List.mem_cons_self
        have hstop : isBlank c = false := hstops
        rw [hstop] at hblank
        cases hblank
  exact List.all_eq_true.mpr (List.dropWhile_eq_nil_iff.mp hdrop)

/-- A text is refused because it is blank, for a piece that is no token, or for its tokens. -/
theorem parse_error_cases {lenient : Bool} {source : String} {error : ParseError}
    (h : parse lenient source = .error (.rejected error)) :
    (allBlank source.toList = true ∧ error.cause.kind = .emptyExpression) ∨
      (allBlank source.toList = false ∧ error.cause.kind = .unexpectedToken) ∨
      (allBlank source.toList = false ∧ ∃ tokens, tokenize source = .ok tokens ∧
        Truthful lenient 0 tokens (.rejected error)) := by
  cases hblank : allBlank source.toList with
  | true =>
      rw [parse_of_blank hblank] at h
      obtain rfl := Failure.rejected.inj (Except.error.inj h)
      exact .inl ⟨rfl, rfl⟩
  | false =>
      rw [parse_of_not_blank hblank] at h
      rcases bind_eq_error.mp h with htokenize | ⟨tokens, htokens, hread⟩
      · exact .inr (.inl ⟨rfl, unexpectedToken_of_tokenize htokenize⟩)
      · exact .inr (.inr ⟨rfl, tokens, htokens, truthful_of_boundedOfTokens hread⟩)

/-- The kinds of errors tell the truth about the text.  Parentheses are called unbalanced where
one is closed with no group open, or opened and not closed up to the end, and never in a text
with balanced parentheses; a function is called unknown where a name outside the table stands
in front of an opening parenthesis, and only by the strict parser; and a text is called empty
exactly if it is blank. -/
theorem parse_error_kinds (lenient : Bool) (source : String) :
    (∀ error, parse lenient source = .error (.rejected error) →
      (error.cause.kind = .unbalancedParens →
        ¬ Balanced (source.toList.map bracketOf) ∧
          ∃ tokens t, tokenize source = .ok tokens ∧
            (UnmatchedClose tokens t ∨ UnclosedOpen tokens t) ∧
            error.start = t.start ∧ error.stop = t.stop) ∧
      (error.cause.kind = .unknownFunction →
        lenient = false ∧ ∃ tokens t, tokenize source = .ok tokens ∧ t ∈ calledNames tokens ∧
          Function.ofName? t.text = none ∧ error.start = t.start ∧ error.stop = t.stop)) ∧
    ((∃ error, parse lenient source = .error (.rejected error) ∧
      error.cause.kind = .emptyExpression) ↔ strip source = "") := by
  refine ⟨fun error herror => ⟨fun hkind => ?unbalanced, fun hkind => ?unknown⟩, ?empty⟩
  case unbalanced =>
    obtain ⟨-, hother⟩ | ⟨-, hother⟩ | ⟨-, tokens, htokens, htruth⟩ := parse_error_cases herror
    · cases hother.symm.trans hkind
    · cases hother.symm.trans hkind
    obtain ⟨body, rfl, hbody, -⟩ := layout_of_tokenize htokens
    obtain ⟨t, ht, hstart, hstop⟩ := htruth.unbalanced rfl hbody hkind
    refine ⟨?_, _, t, htokens, ht, hstart, hstop⟩
    rw [balanced_iff_of_tokenize htokens]
    exact ht.elim UnmatchedClose.not_balanced UnclosedOpen.not_balanced
  case unknown =>
    obtain ⟨-, hother⟩ | ⟨-, hother⟩ | ⟨-, tokens, htokens, htruth⟩ := parse_error_cases herror
    · cases hother.symm.trans hkind
    · cases hother.symm.trans hkind
    obtain ⟨hlenient, t, ht, hunknown, hstart, hstop⟩ := htruth.unknown hkind
    exact ⟨hlenient, tokens, t, htokens, ht, hunknown, hstart, hstop⟩
  case empty =>
    rw [strip_eq_empty_iff]
    constructor
    · rintro ⟨error, herror, hkind⟩
      obtain ⟨hblank, -⟩ | ⟨-, hother⟩ | ⟨-, tokens, -, htruth⟩ := parse_error_cases herror
      · exact hblank
      · cases hother.symm.trans hkind
      · exact absurd hkind htruth.kind_ne_empty
    · intro hblank
      exact ⟨_, parse_of_blank hblank lenient, rfl⟩

/-- The second closing parenthesis of `(x))` has no group to close. -/
theorem parse_error_kinds_strayClose :
    parse false "(x))" = .error (.rejected ⟨.unmatchedClose, 3, 4, [], some "RPAREN())"⟩) ∧
      ¬ Balanced ("(x))".toList.map bracketOf) := by
  have hparse : parse false "(x))" =
      .error (.rejected ⟨.unmatchedClose, 3, 4, [], some "RPAREN())"⟩) := by
    with_unfolding_all rfl
  exact ⟨hparse, (((parse_error_kinds false "(x))").1 _ hparse).1 rfl).1⟩

end Fluxion.Source
