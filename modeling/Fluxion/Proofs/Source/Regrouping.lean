import Fluxion.Proofs.Source.Calls
import Fluxion.Proofs.Source.Refusal

/-!
# Parentheses around primaries

Wherever a primary may start in the tokens of a phrase, a primary phrase stands there, and
any other one for the same tree may take its place: `Located`.  A group around it is one.

So the tokens that a reader of primaries takes may be put into parentheses, and the tree does
not change: `SumPhrase.wrapped`.
-/

namespace Fluxion.Source

open Fluxion.Text

/-! ## Where primaries stand -/

/-- A primary may start with the token behind these. -/
def StartsPrimary (before : List Token) (t : Token) : Prop :=
  (t.kind = .number ∨ t.kind = .name ∨ t.kind = .lparen) ∧ EndsInNoName before

/-- A primary phrase starts the tokens `ts`, nothing goes on with it, and with any primary
phrase for the same tree in its place `holds` is true of all tokens. -/
def PrimaryBehind (lenient : Bool) (holds : List Token → Prop) (before ts : List Token) : Prop :=
  ∃ n us rest e, ts = us ++ rest ∧ PrimaryPhrase lenient n us e ∧
    (∀ u ∈ rest.head?, u.kind ≠ .lparen) ∧
    ∀ m vs, PrimaryPhrase lenient m vs e → holds (before ++ (vs ++ rest))

/-- A primary phrase stands wherever one may start in the tokens. -/
def Located (lenient : Bool) (holds : List Token → Prop) (ts : List Token) : Prop :=
  ∀ before t behind, ts = before ++ t :: behind → StartsPrimary before t →
    PrimaryBehind lenient holds before (t :: behind)

/-- The kinds of tokens that stand between phrases. -/
def Separates (kind : TokenKind) : Prop :=
  kind ≠ .number ∧ kind ≠ .name ∧ kind ≠ .lparen

theorem separates_of_sumOp? {kind : TokenKind} {op : BinaryOp} (h : sumOp? kind = some op) :
    Separates kind := by
  cases kind <;> simp_all [sumOp?, Separates]

theorem separates_of_productOp? {kind : TokenKind} {op : BinaryOp}
    (h : productOp? kind = some op) : Separates kind := by
  cases kind <;> simp_all [productOp?, Separates]

theorem not_startsPrimary {t : Token} {before : List Token} (h : Separates t.kind) :
    ¬ StartsPrimary before t := by
  rintro ⟨hkind, -⟩
  obtain ⟨hnumber, hname, hopener⟩ := h
  rcases hkind with hkind | hkind | hkind
  · exact hnumber hkind
  · exact hname hkind
  · exact hopener hkind

section Located

variable {lenient : Bool} {holds holds' whole : List Token → Prop} {ts us : List Token}

/-- A list that is split at a separator and at another token is split at one behind the
other. -/
theorem split_or_split {before behind : List Token} {separator t : Token}
    (h : ts ++ separator :: us = before ++ t :: behind) :
    (∃ more, ts = before ++ t :: more ∧ behind = more ++ separator :: us) ∨
      separator = t ∨ ∃ more, before = ts ++ separator :: more ∧ us = more ++ t :: behind := by
  rcases List.append_eq_append_iff.mp h with ⟨more, rfl, hmore⟩ | ⟨more, rfl, hmore⟩
  · cases more with
    | nil => exact .inr (.inl (List.cons.inj hmore).1)
    | cons first more =>
        obtain ⟨rfl, rfl⟩ := List.cons.inj hmore
        exact .inr (.inr ⟨more, rfl, rfl⟩)
  · cases more with
    | nil => exact .inr (.inl (List.cons.inj hmore).1.symm)
    | cons first more =>
        obtain ⟨rfl, rfl⟩ := List.cons.inj hmore
        exact .inl ⟨more, rfl, rfl⟩

theorem Located.imp (h : Located lenient holds ts) (himp : ∀ us, holds us → whole us) :
    Located lenient whole ts := by
  intro before t behind hts hstart
  obtain ⟨n, us, rest, e, hbehind, hphrase, hrest, hholds⟩ := h before t behind hts hstart
  exact ⟨n, us, rest, e, hbehind, hphrase, hrest, fun m vs hvs => himp _ (hholds m vs hvs)⟩

/-- A token in front that no primary starts with. -/
theorem Located.cons {first : Token} (h : Located lenient holds ts)
    (hfirst : ¬ StartsPrimary [] first) (hwhole : ∀ us, holds us → whole (first :: us)) :
    Located lenient whole (first :: ts) := by
  intro before t behind hts hstart
  cases before with
  | nil =>
      obtain ⟨rfl, -⟩ := List.cons.inj hts
      exact absurd hstart hfirst
  | cons first' before =>
      obtain ⟨rfl, rfl⟩ := List.cons.inj hts
      obtain ⟨n, us, rest, e, hbehind, hphrase, hrest, hholds⟩ :=
        h before t behind rfl ⟨hstart.1, hstart.2.tail⟩
      exact ⟨n, us, rest, e, hbehind, hphrase, hrest, fun m vs hvs => hwhole _ (hholds m vs hvs)⟩

/-- Two lists with a token between them that no primary starts with. -/
theorem Located.between {separator : Token} (h : Located lenient holds ts)
    (h' : Located lenient holds' us) (hseparator : Separates separator.kind)
    (hleft : ∀ vs, holds vs → whole (vs ++ separator :: us))
    (hright : ∀ vs, holds' vs → whole (ts ++ separator :: vs)) :
    Located lenient whole (ts ++ separator :: us) := by
  intro before t behind hts hstart
  rcases split_or_split hts with ⟨more, rfl, rfl⟩ | rfl | ⟨more, rfl, rfl⟩
  · obtain ⟨n, vs, rest, e, hbehind, hphrase, hrest, hholds⟩ := h before t more rfl hstart
    refine ⟨n, vs, rest ++ separator :: us, e, ?_, hphrase, ?_, fun m ws hws => ?_⟩
    · rw [← List.cons_append, hbehind, List.append_assoc]
    · cases rest with
      | nil =>
          intro u hu
          obtain rfl := Option.some.inj hu
          exact hseparator.2.2
      | cons u rest => exact hrest
    · have hwhole := hleft _ (hholds m ws hws)
      simpa using hwhole
  · exact absurd hstart (not_startsPrimary hseparator)
  · obtain ⟨n, vs, rest, e, hbehind, hphrase, hrest, hholds⟩ :=
      h' more t behind rfl ⟨hstart.1, hstart.2.behind.tail⟩
    refine ⟨n, vs, rest, e, hbehind, hphrase, hrest, fun m ws hws => ?_⟩
    have hwhole := hright _ (hholds m ws hws)
    simpa using hwhole

/-- Nothing stands behind a closing parenthesis. -/
theorem Located.closed {closer : Token} (h : Located lenient holds ts)
    (hcloser : closer.kind = .rparen) (hwhole : ∀ vs, holds vs → whole (vs ++ [closer])) :
    Located lenient whole (ts ++ [closer]) := by
  have hnil : Located lenient (fun _ => False) [] := by
    intro before t behind hts
    cases before <;> cases hts
  exact h.between hnil (by simp [Separates, hcloser]) hwhole fun _ hvs => hvs.elim

end Located

/-- The whole of a primary is one, and what stands in its parentheses is searched. -/
theorem PrimaryPhrase.located_of_inner {lenient : Bool} {n : Nat} {first : Token}
    {ts : List Token} {e : Tree} (h : PrimaryPhrase lenient n (first :: ts) e)
    (hinner : ∀ before t behind, ts = before ++ t :: behind → StartsPrimary (first :: before) t →
      PrimaryBehind lenient (fun us => ∃ m, PrimaryPhrase lenient m us e) (first :: before)
        (t :: behind)) :
    Located lenient (fun us => ∃ m, PrimaryPhrase lenient m us e) (first :: ts) := by
  intro before t behind hts hstart
  cases before with
  | nil =>
      refine ⟨n, first :: ts, [], e, by rw [List.append_nil]; exact hts.symm, h, by simp, ?_⟩
      intro m vs hvs
      exact ⟨m, by simpa using hvs⟩
  | cons first' before =>
      obtain ⟨rfl, rfl⟩ := List.cons.inj hts
      exact hinner before t behind rfl hstart

mutual

/-- Wherever a primary starts in a sum, one is part of it that can be exchanged. -/
theorem SumPhrase.located {lenient : Bool} : ∀ {n : Nat} {ts : List Token} {e : Tree},
    SumPhrase lenient n ts e → Located lenient (fun us => ∃ m, SumPhrase lenient m us e) ts
  | _, _, _, .single h => h.located.imp fun _ ⟨m, hus⟩ => ⟨m, .single hus⟩
  | _, _, _, .chain ha hop hb =>
      ha.located.between hb.located (separates_of_sumOp? hop)
        (fun _ ⟨_, hvs⟩ => ⟨_, .chain hvs hop hb⟩) fun _ ⟨_, hvs⟩ => ⟨_, .chain ha hop hvs⟩

theorem ProductPhrase.located {lenient : Bool} : ∀ {n : Nat} {ts : List Token} {e : Tree},
    ProductPhrase lenient n ts e →
      Located lenient (fun us => ∃ m, ProductPhrase lenient m us e) ts
  | _, _, _, .single h => h.located.imp fun _ ⟨m, hus⟩ => ⟨m, .single hus⟩
  | _, _, _, .chain ha hop hb =>
      ha.located.between hb.located (separates_of_productOp? hop)
        (fun _ ⟨_, hvs⟩ => ⟨_, .chain hvs hop hb⟩) fun _ ⟨_, hvs⟩ => ⟨_, .chain ha hop hvs⟩

theorem OperandPhrase.located {lenient : Bool} : ∀ {n : Nat} {ts : List Token} {e : Tree},
    OperandPhrase lenient n ts e →
      Located lenient (fun us => ∃ m, OperandPhrase lenient m us e) ts
  | _, _, _, .minus hsign ha =>
      ha.located.cons (not_startsPrimary (by simp [Separates, hsign]))
        fun _ ⟨_, hus⟩ => ⟨_, .minus hsign hus⟩
  | _, _, _, .plus hsign ha =>
      ha.located.cons (not_startsPrimary (by simp [Separates, hsign]))
        fun _ ⟨_, hus⟩ => ⟨_, .plus hsign hus⟩
  | _, _, _, .power h => h.located.imp fun _ ⟨_, hus⟩ => ⟨_, .power hus⟩

theorem PowerPhrase.located {lenient : Bool} : ∀ {n : Nat} {ts : List Token} {e : Tree},
    PowerPhrase lenient n ts e → Located lenient (fun us => ∃ m, PowerPhrase lenient m us e) ts
  | _, _, _, .base h => h.located.imp fun _ ⟨m, hus⟩ => ⟨m, .base hus⟩
  | _, _, _, .raised ha hcaret hb =>
      ha.located.between hb.located (by simp [Separates, hcaret])
        (fun _ ⟨_, hvs⟩ => ⟨_, .raised hvs hcaret hb⟩) fun _ ⟨_, hvs⟩ => ⟨_, .raised ha hcaret hvs⟩

theorem PrimaryPhrase.located {lenient : Bool} : ∀ {n : Nat} {ts : List Token} {e : Tree},
    PrimaryPhrase lenient n ts e →
      Located lenient (fun us => ∃ m, PrimaryPhrase lenient m us e) ts
  | _, _, _, .number ht hvalue =>
      (PrimaryPhrase.number ht hvalue).located_of_inner fun before _ _ hts => by
        cases before <;> cases hts
  | _, _, _, .constant ht hvalue =>
      (PrimaryPhrase.constant ht hvalue).located_of_inner fun before _ _ hts => by
        cases before <;> cases hts
  | _, _, _, .free ht hconstant hfunction =>
      (PrimaryPhrase.free ht hconstant hfunction).located_of_inner fun before _ _ hts => by
        cases before <;> cases hts
  | _, _, e, @PrimaryPhrase.group _ _ ts opener closer _ hopener he hcloser => by
      refine (PrimaryPhrase.group hopener he hcloser).located_of_inner ?_
      intro before t behind hts hstart
      have hinner : Located lenient (fun us => ∃ m, PrimaryPhrase lenient m (opener :: us) e)
          (ts ++ [closer]) :=
        he.located.closed hcloser fun _ ⟨_, hvs⟩ => ⟨_, .group hopener hvs hcloser⟩
      exact hinner before t behind hts ⟨hstart.1, hstart.2.tail⟩
  | _, _, _, @PrimaryPhrase.call _ _ ts name opener closer args hname hopener hargs hcloser
      hcallable => by
      refine (PrimaryPhrase.call hname hopener hargs hcloser hcallable).located_of_inner ?_
      intro before t behind hts hstart
      cases before with
      | nil => exact absurd hname (hstart.2 name rfl)
      | cons opener' before =>
          obtain ⟨rfl, htail⟩ := List.cons.inj hts
          have hinner : Located lenient
              (fun us => ∃ m, PrimaryPhrase lenient m (name :: opener :: us) (.call name.text args))
              (ts ++ [closer]) :=
            hargs.located.closed hcloser fun _ ⟨_, hvs⟩ =>
              ⟨_, .call hname hopener hvs hcloser hcallable⟩
          exact hinner before t behind htail ⟨hstart.1, hstart.2.tail.tail⟩

theorem ArgumentsPhrase.located {lenient : Bool} :
    ∀ {n : Nat} {ts : List Token} {args : List Tree}, ArgumentsPhrase lenient n ts args →
      Located lenient (fun us => ∃ m, ArgumentsPhrase lenient m us args) ts
  | _, _, _, .single h => h.located.imp fun _ ⟨m, hus⟩ => ⟨m, .single hus⟩
  | _, _, _, .more hargs hcomma he =>
      hargs.located.between he.located (by simp [Separates, hcomma])
        (fun _ ⟨_, hvs⟩ => ⟨_, .more hvs hcomma he⟩) fun _ ⟨_, hvs⟩ => ⟨_, .more hargs hcomma hvs⟩

end

/-! ## A group around a primary -/

/-- Parentheses around a primary keep its tree and cost one level. -/
theorem PrimaryPhrase.grouped {lenient : Bool} {n : Nat} {ts : List Token} {e : Tree}
    {opener closer : Token} (h : PrimaryPhrase lenient n ts e) (hopener : opener.kind = .lparen)
    (hcloser : closer.kind = .rparen) :
    PrimaryPhrase lenient (n + 1) (opener :: (ts ++ [closer])) e :=
  .group hopener (.single (.single (.power (.base h)))) hcloser

/-- Where the reader of primaries takes a primary phrase, it takes that phrase. -/
theorem PrimaryPhrase.eq_of_primary {lenient : Bool} {n left groups : Nat}
    {us vs rest behind : List Token} {e value : Tree} (h : PrimaryPhrase lenient n vs e)
    (hbehind : StartsWith (fun kind => kind ≠ .lparen) behind) (hsplit : us ++ rest = vs ++ behind)
    (hread : primary lenient (operand lenient left) groups (us ++ rest) = .ok (value, rest)) :
    us = vs ∧ rest = behind := by
  rw [hsplit] at hread
  rcases Nat.lt_or_ge left n with hdeep | hn
  · obtain ⟨error, herror, -⟩ := h.nestsTooDeep hdeep
    cases herror.symm.trans hread
  · obtain ⟨-, rfl⟩ := Prod.mk.inj (Except.ok.inj ((h.read hn hbehind).symm.trans hread))
    exact ⟨List.append_cancel_right hsplit, rfl⟩

/-- A token that is not the end mark stands in front of it. -/
theorem exists_of_append_mark {body before ts : List Token} {t mark : Token}
    (h : body ++ [mark] = before ++ t :: ts) (ht : t ≠ mark) :
    ∃ more, body = before ++ t :: more ∧ ts = more ++ [mark] := by
  rcases List.eq_nil_or_concat' ts with rfl | ⟨more, last, rfl⟩
  · obtain ⟨-, hlast⟩ := List.append_inj' h rfl
    exact absurd (List.cons.inj hlast).1.symm ht
  · rw [← List.cons_append, ← List.append_assoc] at h
    obtain ⟨hbody, hlast⟩ := List.append_inj' h rfl
    exact ⟨more, hbody, by rw [hlast]⟩

/-- The tokens that a primary was read from may be put into parentheses. -/
theorem SumPhrase.wrapped {lenient : Bool} {n left groups : Nat}
    {body before us rest : List Token} {mark : Token} {e value : Tree}
    (h : SumPhrase lenient n body e) (hmark : mark.kind = .eof)
    (htokens : body ++ [mark] = before ++ (us ++ rest)) (hbefore : EndsInNoName before)
    (hread : primary lenient (operand lenient left) groups (us ++ rest) = .ok (value, rest)) :
    ∃ behind, body = before ++ (us ++ behind) ∧ ∀ opener closer : Token,
      opener.kind = .lparen → closer.kind = .rparen →
      ∃ m, SumPhrase lenient m (before ++ (opener :: (us ++ [closer]) ++ behind)) e := by
  obtain ⟨k, us', -, hus', hvalue⟩ := primary_readsOnly (operand_readsOnly _ _) _ _ _ hread
  obtain rfl := List.append_cancel_right hus'
  obtain ⟨t, ts, rfl, hkind⟩ := hvalue.head
  have ht : t ≠ mark := by
    rintro rfl
    simp [hmark] at hkind
  rw [List.cons_append] at htokens
  obtain ⟨more, hbody, hmore⟩ := exists_of_append_mark htokens ht
  obtain ⟨k', vs, behind, x, hsplit, hphrase, hbehind, hholds⟩ :=
    h.located before t more hbody ⟨hkind, hbefore⟩
  have hends : StartsWith (fun kind => kind ≠ .lparen) (behind ++ [mark]) := by
    cases behind with
    | nil =>
        rw [List.nil_append, StartsWith, hmark]
        decide
    | cons u behind => exact hbehind u rfl
  have hread' : t :: ts ++ rest = vs ++ (behind ++ [mark]) := by
    rw [List.cons_append, hmore, ← List.cons_append, hsplit, List.append_assoc]
  obtain ⟨rfl, rfl⟩ := hphrase.eq_of_primary hends hread' hread
  refine ⟨behind, by rw [hbody, hsplit], fun opener closer hopener hcloser => ?_⟩
  exact hholds _ _ (hphrase.grouped hopener hcloser)

end Fluxion.Source
