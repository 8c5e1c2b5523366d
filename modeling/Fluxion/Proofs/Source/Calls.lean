import Fluxion.Proofs.Source.Refusal

/-!
# Calls of readers

`Called` says which readers run while a list of tokens is read, with how many levels of
nesting left, how many groups open, and in front of which tokens.  There is one case for each
place where one reader calls another.

* Where a list of tokens is read as a whole, every call has a result: `Called.runs`.
* A primary is never read right behind a name, since a parenthesis behind a name belongs to
  the call: `Called.behind`.
-/

namespace Fluxion.Source

open Fluxion.Text

/-- The readers, and the arguments of a call by their number. -/
inductive Procedure where
  | sum | product | factor | operand | primary
  | argument (name : String) (number : Nat)
deriving DecidableEq, Repr

/-- While the tokens are read, this reader is called with so many levels of nesting left and
so many groups open, and this is what it reads from. -/
inductive Called (lenient : Bool) (tokens : List Token) :
    Procedure → Nat → Nat → List Token → Prop
  | start : Called lenient tokens .sum maxNesting 0 tokens
  | product {left groups : Nat} {ts : List Token} (h : Called lenient tokens .sum left groups ts) :
      Called lenient tokens .product left groups ts
  | nextProduct {left groups : Nat} {ts us : List Token} {a : Tree} {sign : Token} {op : BinaryOp}
      (h : Called lenient tokens .product left groups ts)
      (hread : chain productOp? (operand lenient left groups) ts = .ok (a, sign :: us))
      (hop : sumOp? sign.kind = some op) : Called lenient tokens .product left groups us
  | factor {left groups : Nat} {ts : List Token}
      (h : Called lenient tokens .product left groups ts) :
      Called lenient tokens .factor left groups ts
  | nextFactor {left groups : Nat} {ts us : List Token} {a : Tree} {sign : Token} {op : BinaryOp}
      (h : Called lenient tokens .factor left groups ts)
      (hread : operand lenient left groups ts = .ok (a, sign :: us))
      (hop : productOp? sign.kind = some op) : Called lenient tokens .factor left groups us
  | operand {left groups : Nat} {ts : List Token}
      (h : Called lenient tokens .factor left groups ts) :
      Called lenient tokens .operand left groups ts
  | signed {left groups : Nat} {us : List Token} {sign : Token}
      (h : Called lenient tokens .operand (left + 1) groups (sign :: us))
      (hsign : sign.kind = .minus ∨ sign.kind = .plus) :
      Called lenient tokens .operand left groups us
  | primary {left groups : Nat} {us : List Token} {t : Token}
      (h : Called lenient tokens .operand (left + 1) groups (t :: us))
      (hsign : t.kind ≠ .minus ∧ t.kind ≠ .plus) :
      Called lenient tokens .primary left groups (t :: us)
  | exponent {left groups : Nat} {ts us : List Token} {a : Tree} {caret : Token}
      (h : Called lenient tokens .primary left groups ts)
      (hread : Source.primary lenient (Source.operand lenient left) groups ts =
        .ok (a, caret :: us))
      (hcaret : caret.kind = .caret) : Called lenient tokens .operand left groups us
  | group {left groups : Nat} {us : List Token} {opener : Token}
      (h : Called lenient tokens .primary left groups (opener :: us))
      (hopener : opener.kind = .lparen) : Called lenient tokens .sum left (groups + 1) us
  | argument {left groups : Nat} {us : List Token} {name opener : Token}
      (h : Called lenient tokens .primary left groups (name :: opener :: us))
      (hname : name.kind = .name) (hopener : opener.kind = .lparen)
      (hknown : lenient = true ∨ (Function.ofName? name.text).isSome = true) :
      Called lenient tokens (.argument name.text 0) left (groups + 1) us
  | nextArgument {left groups number : Nat} {ts us : List Token} {name : String} {a : Tree}
      {comma : Token} (h : Called lenient tokens (.argument name number) left groups ts)
      (hread : Source.sum (Source.operand lenient left groups) ts = .ok (a, comma :: us))
      (hcomma : comma.kind = .comma)
      (hroom : ∀ f, Function.ofName? name = some f → number + 1 < f.arity) :
      Called lenient tokens (.argument name (number + 1)) left groups us
  | argumentSum {left groups number : Nat} {ts : List Token} {name : String}
      (h : Called lenient tokens (.argument name number) left groups ts) :
      Called lenient tokens .sum left groups ts

/-- No name stands at the end of the tokens. -/
def EndsInNoName (before : List Token) : Prop :=
  ∀ t, before.getLast? = some t → t.kind ≠ .name

theorem endsInNoName_append {before : List Token} {t : Token} (h : t.kind ≠ .name) :
    EndsInNoName (before ++ [t]) := by
  intro u hu
  rw [List.getLast?_concat] at hu
  obtain rfl := Option.some.inj hu
  exact h

theorem EndsInNoName.tail {first : Token} {before : List Token}
    (h : EndsInNoName (first :: before)) : EndsInNoName before := by
  intro t ht
  refine h t ?_
  rw [List.getLast?_cons, ht]
  rfl

theorem EndsInNoName.behind {first : List Token} {before : List Token}
    (h : EndsInNoName (first ++ before)) : EndsInNoName before := by
  induction first with
  | nil => exact h
  | cons t first ih => exact ih h.tail

/-- A reader is called behind the token that it was called for, and this is no name. -/
theorem Called.behind {lenient : Bool} {tokens ts : List Token} {procedure : Procedure}
    {left groups : Nat} (h : Called lenient tokens procedure left groups ts) :
    ∃ before, tokens = before ++ ts ∧ EndsInNoName before := by
  have hnext : ∀ (before vs us : List Token) (t : Token), tokens = before ++ (vs ++ t :: us) →
      t.kind ≠ .name → ∃ before, tokens = before ++ us ∧ EndsInNoName before := by
    intro before vs us t htokens ht
    exact ⟨before ++ vs ++ [t], by simp [htokens], endsInNoName_append ht⟩
  induction h with
  | start => exact ⟨[], rfl, fun t ht => by cases ht⟩
  | product _ ih | factor _ ih | operand _ ih | argumentSum _ ih | primary _ _ ih => exact ih
  | nextProduct _ hread hop ih =>
      obtain ⟨before, rfl, -⟩ := ih
      obtain ⟨-, vs, -, rfl, -⟩ := product_readsOnly (operand_readsOnly _ _) _ _ _ hread
      exact hnext _ _ _ _ rfl (by rintro hname; rw [hname] at hop; cases hop)
  | nextFactor _ hread hop ih =>
      obtain ⟨before, rfl, -⟩ := ih
      obtain ⟨-, vs, -, rfl, -⟩ := operand_readsOnly _ _ _ _ _ hread
      exact hnext _ _ _ _ rfl (by rintro hname; rw [hname] at hop; cases hop)
  | signed _ hsign ih =>
      obtain ⟨before, rfl, -⟩ := ih
      exact hnext _ [] _ _ rfl (by rcases hsign with hsign | hsign <;> rw [hsign] <;> decide)
  | exponent _ hread hcaret ih =>
      obtain ⟨before, rfl, -⟩ := ih
      obtain ⟨-, vs, -, rfl, -⟩ := primary_readsOnly (operand_readsOnly _ _) _ _ _ hread
      exact hnext _ _ _ _ rfl (by rw [hcaret]; decide)
  | group _ hopener ih =>
      obtain ⟨before, rfl, -⟩ := ih
      exact hnext _ [] _ _ rfl (by rw [hopener]; decide)
  | @argument _ _ _ name opener _ _ hopener _ ih =>
      obtain ⟨before, rfl, -⟩ := ih
      exact hnext _ [name] _ _ rfl (by rw [hopener]; decide)
  | nextArgument _ hread hcomma _ ih =>
      obtain ⟨before, rfl, -⟩ := ih
      obtain ⟨-, vs, -, rfl, -⟩ := sum_readsOnly (operand_readsOnly _ _) _ _ _ hread
      exact hnext _ _ _ _ rfl (by rw [hcomma]; decide)

/-! ## Calls have results -/

section Runs

/-- An operand of a chain has a result, and so has the loop behind it, with a round for each
token that is left. -/
def ChainRuns (op? : TokenKind → Option BinaryOp) (operand : Reader Tree) (ts : List Token) :
    Prop :=
  ∃ b rest, operand ts = .ok (b, rest) ∧ ∃ a rounds result, rest.length ≤ rounds ∧
    chainFrom op? operand rounds a rest = .ok result

variable {op? : TokenKind → Option BinaryOp} {operand : Reader Tree} {ts us : List Token}

theorem chainRuns_of_chain {result : Tree × List Token} (h : chain op? operand ts = .ok result) :
    ChainRuns op? operand ts := by
  obtain ⟨⟨b, rest⟩, hread, hloop⟩ := bind_eq_ok.mp h
  exact ⟨b, rest, hread, b, rest.length, result, Nat.le_refl _, hloop⟩

theorem ChainRuns.next {phrase : Nat → List Token → Tree → Prop} {bound : Nat} {a : Tree}
    {sign : Token} {op : BinaryOp} (h : ChainRuns op? operand ts)
    (hoperand : ReadsOnly phrase bound operand) (hread : operand ts = .ok (a, sign :: us))
    (hop : op? sign.kind = some op) : ChainRuns op? operand us := by
  obtain ⟨b, rest, hread', left, rounds, result, hrounds, hloop⟩ := h
  obtain ⟨rfl, rfl⟩ := Prod.mk.inj (Except.ok.inj (hread.symm.trans hread'))
  cases rounds with
  | zero => simp at hrounds
  | succ rounds =>
      simp only [chainFrom, peek, ok_bind, hop, List.tail_cons] at hloop
      obtain ⟨⟨right, behind⟩, hright, hnext⟩ := bind_eq_ok.mp hloop
      obtain ⟨n, vs, -, rfl, -⟩ := hoperand _ _ _ hright
      refine ⟨right, behind, hright, _, rounds, result, ?_, hnext⟩
      simp only [List.length_cons, List.length_append] at hrounds
      omega

/-- An argument has a result, and so has the loop behind it. -/
def ArgumentRuns (name : String) (number : Nat) (argument : Reader Tree) (ts : List Token) :
    Prop :=
  ∃ b rest, argument ts = .ok (b, rest) ∧ ∃ read rounds result, read.length = number + 1 ∧
    rest.length ≤ rounds ∧
    argumentsFrom name (Function.ofName? name) argument rounds read rest = .ok result

theorem ArgumentRuns.next {phrase : Nat → List Token → Tree → Prop} {bound number : Nat}
    {name : String} {argument : Reader Tree} {a : Tree} {comma : Token}
    (h : ArgumentRuns name number argument ts) (hargument : ReadsOnly phrase bound argument)
    (hread : argument ts = .ok (a, comma :: us)) (hcomma : comma.kind = .comma)
    (hroom : ∀ f, Function.ofName? name = some f → number + 1 < f.arity) :
    ArgumentRuns name (number + 1) argument us := by
  obtain ⟨b, rest, hread', read, rounds, result, hlength, hrounds, hloop⟩ := h
  obtain ⟨rfl, rfl⟩ := Prod.mk.inj (Except.ok.inj (hread.symm.trans hread'))
  cases rounds with
  | zero => simp at hrounds
  | succ rounds =>
      have hstep : ∃ c behind, argument us = .ok (c, behind) ∧
          argumentsFrom name (Function.ofName? name) argument rounds (read ++ [c]) behind =
            .ok result := by
        simp only [argumentsFrom, peek, ok_bind, hcomma, if_true, List.tail_cons] at hloop
        cases hf : Function.ofName? name with
        | none =>
            simp only [hf] at hloop
            obtain ⟨⟨c, behind⟩, hc, hnext⟩ := bind_eq_ok.mp hloop
            exact ⟨c, behind, hc, hnext⟩
        | some f =>
            have hfull : ¬ f.arity ≤ read.length := by
              rw [hlength]
              exact Nat.not_le.mpr (hroom f hf)
            simp only [hf, if_neg hfull] at hloop
            obtain ⟨⟨c, behind⟩, hc, hnext⟩ := bind_eq_ok.mp hloop
            exact ⟨c, behind, hc, hnext⟩
      obtain ⟨c, behind, hc, hnext⟩ := hstep
      obtain ⟨n, vs, -, rfl, -⟩ := hargument _ _ _ hc
      refine ⟨c, behind, hc, read ++ [c], rounds, result, by simp [hlength], ?_, hnext⟩
      simp only [List.length_cons, List.length_append] at hrounds
      omega

end Runs

/-- What a call of each reader comes with, where the tokens are read as a whole: a result, and
one for the rest of its loop.  A primary is called for a power. -/
def Procedure.Runs (lenient : Bool) (left groups : Nat) (ts : List Token) : Procedure → Prop
  | .sum => ∃ result, Source.sum (Source.operand lenient left groups) ts = .ok result
  | .product => ChainRuns sumOp? (chain productOp? (Source.operand lenient left groups)) ts
  | .factor => ChainRuns productOp? (Source.operand lenient left groups) ts
  | .operand => ∃ result, Source.operand lenient left groups ts = .ok result
  | .primary => ∃ result, power lenient (Source.operand lenient left) groups ts = .ok result
  | .argument name number =>
      ArgumentRuns name number (Source.sum (Source.operand lenient left groups)) ts

/-- If the whole text is read, every reader that is called on the way has a result. -/
theorem Called.runs {lenient : Bool} {tokens ts : List Token} {procedure : Procedure}
    {left groups : Nat} {e : Tree} (hread : ofTokens lenient tokens = .ok e)
    (h : Called lenient tokens procedure left groups ts) :
    procedure.Runs lenient left groups ts := by
  induction h with
  | start =>
      obtain ⟨result, hsum, -⟩ := bind_eq_ok.mp hread
      exact ⟨result, hsum⟩
  | product _ ih =>
      obtain ⟨result, hsum⟩ := ih
      exact chainRuns_of_chain hsum
  | nextProduct _ hproduct hop ih =>
      exact ih.next (product_readsOnly (operand_readsOnly _ _)) hproduct hop
  | factor _ ih =>
      obtain ⟨b, rest, hproduct, -⟩ := ih
      exact chainRuns_of_chain hproduct
  | nextFactor _ hoperand hop ih => exact ih.next (operand_readsOnly _ _) hoperand hop
  | operand _ ih =>
      obtain ⟨b, rest, hoperand, -⟩ := ih
      exact ⟨_, hoperand⟩
  | signed _ hsign ih =>
      obtain ⟨result, hoperand⟩ := ih
      rcases hsign with hsign | hsign
      · simp only [Source.operand, peek, ok_bind, hsign, List.tail_cons] at hoperand
        obtain ⟨a, ha, -⟩ := bind_eq_ok.mp hoperand
        exact ⟨a, ha⟩
      · simp only [Source.operand, peek, ok_bind, hsign, List.tail_cons] at hoperand
        exact ⟨result, hoperand⟩
  | primary _ hsign ih =>
      obtain ⟨result, hoperand⟩ := ih
      rw [Source.operand, peek, ok_bind] at hoperand
      split at hoperand
      · next hminus => exact absurd hminus hsign.1
      · next hplus => exact absurd hplus hsign.2
      · exact ⟨result, hoperand⟩
  | exponent _ hprimary hcaret ih =>
      obtain ⟨result, hpower⟩ := ih
      simp only [power, hprimary, ok_bind, peek, hcaret, if_true, List.tail_cons] at hpower
      obtain ⟨exponent, hexponent, -⟩ := bind_eq_ok.mp hpower
      exact ⟨exponent, hexponent⟩
  | group _ hopener ih =>
      obtain ⟨result, hpower⟩ := ih
      obtain ⟨base, hprimary, -⟩ := bind_eq_ok.mp hpower
      simp only [Source.primary, peek, ok_bind, hopener, List.tail_cons] at hprimary
      obtain ⟨inner, hsum, -⟩ := bind_eq_ok.mp hprimary
      exact ⟨inner, hsum⟩
  | argument _ hname hopener hknown ih =>
      obtain ⟨result, hpower⟩ := ih
      obtain ⟨base, hprimary, -⟩ := bind_eq_ok.mp hpower
      simp only [Source.primary, peek, ok_bind, hname, hopener, if_true, List.tail_cons,
        callOf_cons hknown] at hprimary
      obtain ⟨args, hargs, -⟩ := bind_eq_ok.mp hprimary
      obtain ⟨⟨first, rest⟩, hfirst, hloop⟩ := bind_eq_ok.mp hargs
      exact ⟨first, rest, hfirst, [first], rest.length, args, rfl, Nat.le_refl _, hloop⟩
  | nextArgument _ hsum hcomma hroom ih =>
      exact ih.next (sum_readsOnly (operand_readsOnly _ _)) hsum hcomma hroom
  | argumentSum _ ih =>
      obtain ⟨b, rest, hsum, -⟩ := ih
      exact ⟨_, hsum⟩

end Fluxion.Source
