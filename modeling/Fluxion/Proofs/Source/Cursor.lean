import Fluxion.Proofs.Outcome
import Fluxion.Source.Cursor
import Mathlib.Tactic.Common

/-!
# The cursor keeps to the tokens

The procedures of `Fluxion.Source.Cursor` do what the readers do: `Follows` says that a
procedure gives the result of a reader, and where it leaves the cursor.
-/

namespace Fluxion.Source

open Fluxion.Decimal Fluxion.Text

variable {β γ : Type}

/-! ## Runs -/

namespace Walk

variable {tokens : List Token} {s : Cursor} {t : Token}

theorem bind_apply (walk : Walk β) (next : β → Walk γ) (s : Cursor) :
    (walk >>= next) s =
      match walk s with
      | .ok b s => next b s
      | .error abort s => .error abort s := by
  change EStateM.bind walk next s = _
  rw [EStateM.bind]
  cases walk s <;> rfl

theorem modify_bind (change : Cursor → Cursor) (next : Unit → Walk γ) (s : Cursor) :
    ((modify change : Walk Unit) >>= next) s = next () (change s) := rfl

theorem get_bind (next : Cursor → Walk γ) (s : Cursor) : (get >>= next : Walk γ) s = next s s := rfl

theorem peek_apply (ht : tokens[s.index]? = some t) : peek tokens s = .ok t s := by
  rw [peek, get_bind, ht]
  rfl

theorem peek_bind (ht : tokens[s.index]? = some t) (next : Token → Walk γ) :
    (peek tokens >>= next) s = next t s := by
  rw [bind_apply, peek_apply ht]

theorem advance_apply (ht : tokens[s.index]? = some t) :
    advance tokens s = .ok t { s with index := s.index + 1 } := by
  rw [advance, peek_bind ht]
  rfl

theorem advance_bind (ht : tokens[s.index]? = some t) (next : Token → Walk γ) :
    (advance tokens >>= next) s = next t { s with index := s.index + 1 } := by
  rw [bind_apply, advance_apply ht]

theorem refuse_apply (t : Token) (cause : Cause) (expected : List String) (s : Cursor) :
    refuse t cause expected s = .error (.failure (errorAtToken t cause expected)) s := rfl

theorem refuse_bind (t : Token) (cause : Cause) (expected : List String) (next : Unit → Walk γ)
    (s : Cursor) : (refuse t cause expected >>= next) s =
      .error (.failure (errorAtToken t cause expected)) s := rfl

theorem expect_of_kind_eq {kind : TokenKind} (ht : tokens[s.index]? = some t)
    (hkind : t.kind = kind) :
    expect tokens kind s = .ok t { s with index := s.index + 1 } := by
  rw [expect, peek_bind ht, if_neg (not_not.mpr hkind)]
  exact advance_apply ht

theorem expect_of_kind_ne {kind : TokenKind} (ht : tokens[s.index]? = some t)
    (hkind : t.kind ≠ kind) : expect tokens kind s =
      .error (.failure (errorAtToken t .unexpected [kind.label])) s := by
  rw [expect, peek_bind ht, if_pos hkind, refuse_bind]

end Walk

/-- The span of an error lies in a text of so many characters. -/
def ParseError.Within (error : ParseError) (length : Nat) : Prop :=
  error.start ≤ error.stop ∧ error.stop ≤ length

/-- Tokens as a text of so many characters has them: one end mark, which stands at the end,
numbers that can be read, and spans in the text. -/
structure Complete (tokens : List Token) (length : Nat) : Prop where
  marked : ∀ (index : Nat) (t : Token), tokens[index]? = some t →
    (t.kind = .eof ↔ index + 1 = tokens.length)
  readable : ∀ t ∈ tokens, t.kind = .number → ∃ value, readFloat? t.text = some value
  within : ∀ t ∈ tokens, t.start ≤ t.stop ∧ t.stop ≤ length

/-- What a procedure gives, when a reader gives this at the same place. Where there is a
result, the cursor has moved on, not behind the end mark, and is otherwise as in `s`. Where
there is none, the error is about a part of the text, and the count of operands is as in
`s`. -/
inductive Follows (tokens : List Token) (length : Nat) (s : Cursor) :
    EStateM.Result Abort Cursor β → Except Failure (β × List Token) → Prop
  | ok {b : β} {index : Nat} (hle : s.index ≤ index) (hlt : index < tokens.length) :
      Follows tokens length s (.ok b { s with index := index }) (.ok (b, tokens.drop index))
  | error {error : ParseError} {s' : Cursor} (hwithin : error.Within length)
      (hnesting : s'.nesting = s.nesting) (hlt : s'.index < tokens.length) :
      Follows tokens length s (.error (.failure (.rejected error)) s')
        (.error (.rejected error))

/-- What the procedure for a whole list of tokens gives, when the readers give this. Where
there is a tree, the cursor has taken the end mark, and the counts are back at zero. Where
there is none, the error is about a part of the text, no operand is counted any more, and
the end mark was not taken. -/
inductive Finishes (tokens : List Token) (length : Nat) :
    EStateM.Result Abort Cursor Tree → Except Failure Tree → Prop
  | ok (e : Tree) : Finishes tokens length (.ok e ⟨tokens.length, 0, 0⟩) (.ok e)
  | error {error : ParseError} {s : Cursor} (hwithin : error.Within length)
      (hnesting : s.nesting = 0) (hlt : s.index < tokens.length) :
      Finishes tokens length (.error (.failure (.rejected error)) s) (.error (.rejected error))

section Steps

variable {tokens : List Token} {length : Nat} {s s₁ : Cursor} {t : Token}

/-- What starts further on may start here. -/
theorem Follows.mono {result : EStateM.Result Abort Cursor β}
    {outcome : Except Failure (β × List Token)} {index : Nat}
    (h : Follows tokens length { s with index := index } result outcome) (hle : s.index ≤ index) :
    Follows tokens length s result outcome := by
  cases h with
  | ok hle' hlt => exact .ok (Nat.le_trans hle hle') hlt
  | error hwithin hnesting hlt => exact .error hwithin hnesting hlt

/-- One procedure after another does what one reader after another does. -/
theorem Follows.bind {walk : Walk β} {next : β → Walk γ} {read : Except Failure (β × List Token)}
    {readNext : β × List Token → Except Failure (γ × List Token)} {start : Cursor}
    (h : Follows tokens length s₁ (walk start) read) (hnesting : s₁.nesting = s.nesting)
    (hnext : ∀ (b : β) (index : Nat), s₁.index ≤ index → index < tokens.length →
      Follows tokens length s (next b { s₁ with index := index })
        (readNext (b, tokens.drop index))) :
    Follows tokens length s ((walk >>= next) start) (read >>= readNext) := by
  rw [Walk.bind_apply]
  generalize walk start = result at h ⊢
  cases h with
  | ok hle hlt => exact hnext _ _ hle hlt
  | error hwithin hnesting' hlt => exact .error hwithin (hnesting'.trans hnesting) hlt

/-- From the position of `s` on, and with its counts, a procedure does what a reader does. -/
def FollowsFrom (tokens : List Token) (length : Nat) (s : Cursor) (walk : Walk β)
    (read : Reader β) : Prop :=
  ∀ index, s.index ≤ index → index < tokens.length →
    Follows tokens length { s with index := index } (walk { s with index := index })
      (read (tokens.drop index))

/-- The token at a position that is not behind the tokens. -/
theorem exists_token {index : Nat} (hlt : index < tokens.length) :
    ∃ t, tokens[index]? = some t ∧ t ∈ tokens ∧ peek (tokens.drop index) = .ok t ∧
      (tokens.drop index).tail = tokens.drop (index + 1) := by
  refine ⟨tokens[index], List.getElem?_eq_getElem hlt, List.getElem_mem hlt, ?_, List.tail_drop⟩
  rw [List.drop_eq_getElem_cons hlt, peek]

/-- What is not the end mark has a token behind it. -/
theorem Complete.lt_of_ne_eof (hc : Complete tokens length) {index : Nat}
    (ht : tokens[index]? = some t) (hkind : t.kind ≠ .eof) : index + 1 < tokens.length := by
  obtain ⟨hlt, -⟩ := List.getElem?_eq_some_iff.mp ht
  have hlast := (hc.marked index t ht).not.mp hkind
  omega

/-- A refusal of one of the tokens. -/
theorem follows_refuse (hc : Complete tokens length) (ht : t ∈ tokens) {index groups : Nat}
    (hlt : index < tokens.length) (cause : Cause) (expected : List String) :
    Follows tokens length s (.error (.failure (errorAtToken t cause expected))
      ⟨index, s.nesting, groups⟩ : EStateM.Result Abort Cursor β)
      (.error (errorAtToken t cause expected)) :=
  .error (hc.within t ht) rfl hlt

section Loops

variable (hc : Complete tokens length)

include hc

/-- Each turn of the loop over the cursor is a round of the reader, where both have turns for all
the tokens that are left. -/
theorem follows_chainFrom {op? : TokenKind → Option BinaryOp} (hop : op? .eof = none)
    {operand : Walk Tree} {read : Reader Tree} (hoperand : FollowsFrom tokens length s operand read)
    {rounds rounds' index : Nat} {left : Tree} (hle : s.index ≤ index)
    (hlt : index < tokens.length) (hrounds : tokens.length ≤ index + rounds)
    (hrounds' : tokens.length ≤ index + rounds') :
    Follows tokens length { s with index := index }
      (Walk.chainFrom tokens op? operand rounds left { s with index := index })
      (chainFrom op? read rounds' left (tokens.drop index)) := by
  induction rounds generalizing rounds' index left with
  | zero => omega
  | succ rounds ih =>
      obtain ⟨t, ht, -, hpeek, htail⟩ := exists_token hlt
      obtain _ | rounds' := rounds'
      · omega
      rw [Walk.chainFrom, Walk.peek_bind ht, chainFrom, hpeek, ok_bind]
      cases hkind : op? t.kind with
      | none => exact .ok (Nat.le_refl _) hlt
      | some op =>
          have hnext : index + 1 < tokens.length := by
            refine hc.lt_of_ne_eof ht fun heof => ?_
            rw [heof, hop] at hkind
            cases hkind
          dsimp only
          rw [Walk.advance_bind ht, htail]
          refine (hoperand (index + 1) (by omega) hnext).bind rfl fun right j hj hjlt => ?_
          have hj : index + 1 ≤ j := hj
          exact Follows.mono (s := { s with index := index })
            (ih (by omega) hjlt (by omega) (by omega)) (Nat.le_of_lt hj)

theorem followsFrom_chain {op? : TokenKind → Option BinaryOp} (hop : op? .eof = none)
    {operand : Walk Tree} {read : Reader Tree} (hoperand : FollowsFrom tokens length s operand read)
    {rounds : Nat} (hrounds : tokens.length ≤ s.index + rounds) :
    FollowsFrom tokens length s (Walk.chain tokens op? operand rounds) (chain op? read) := by
  intro index hle hlt
  rw [Walk.chain, chain]
  refine (hoperand index hle hlt).bind rfl fun left j hj hjlt => ?_
  have hj : index ≤ j := hj
  refine Follows.mono (s := { s with index := index })
    (follows_chainFrom hc hop hoperand (by omega) hjlt (by omega) ?_) hj
  rw [List.length_drop]
  omega

theorem followsFrom_sum {operand : Walk Tree} {read : Reader Tree}
    (hoperand : FollowsFrom tokens length s operand read) {rounds : Nat}
    (hrounds : tokens.length ≤ s.index + rounds) :
    FollowsFrom tokens length s (Walk.sum tokens operand rounds) (sum read) :=
  followsFrom_chain hc rfl (followsFrom_chain hc rfl hoperand hrounds) hrounds

theorem follows_close {opener : Token} (hopener : opener ∈ tokens) {index : Nat}
    (hle : s.index ≤ index) (hlt : index < tokens.length) :
    Follows tokens length s
      (Walk.close tokens opener { s with index := index, openGroups := s.openGroups + 1 })
      (close opener (tokens.drop index)) := by
  obtain ⟨t, ht, hmem, hpeek, htail⟩ := exists_token hlt
  rw [Walk.close, Walk.peek_bind ht, close, hpeek, ok_bind]
  cases hkind : t.kind with
  | rparen =>
      have hnext : index + 1 < tokens.length := hc.lt_of_ne_eof ht (by rw [hkind]; decide)
      dsimp only
      rw [Walk.advance_bind ht, htail]
      change Follows tokens length s (.ok () { s with index := index + 1 })
        (.ok ((), tokens.drop (index + 1)))
      exact .ok (Nat.le_succ_of_le hle) hnext
  | eof => exact .error (hc.within opener hopener) rfl hlt
  | _ =>
      dsimp only
      rw [Walk.refuse_apply]
      exact follows_refuse hc hmem hlt .unexpected ["RPAREN"]

theorem follows_argumentsFrom {name : String} {function? : Option Function}
    {argument : Walk Tree} {read : Reader Tree}
    (hargument : FollowsFrom tokens length s argument read) {rounds rounds' index : Nat}
    {args : List Tree} (hle : s.index ≤ index) (hlt : index < tokens.length)
    (hrounds : tokens.length ≤ index + rounds) (hrounds' : tokens.length ≤ index + rounds') :
    Follows tokens length { s with index := index }
      (Walk.argumentsFrom tokens name function? argument rounds args { s with index := index })
      (argumentsFrom name function? read rounds' args (tokens.drop index)) := by
  induction rounds generalizing rounds' index args with
  | zero => omega
  | succ rounds ih =>
      obtain ⟨t, ht, hmem, hpeek, htail⟩ := exists_token hlt
      obtain _ | rounds' := rounds'
      · omega
      rw [Walk.argumentsFrom, Walk.peek_bind ht, argumentsFrom, hpeek, ok_bind]
      by_cases hcomma : t.kind = .comma
      · rw [if_pos hcomma, if_pos hcomma, Walk.advance_bind ht, htail]
        have hnext : index + 1 < tokens.length :=
          hc.lt_of_ne_eof ht (by rw [hcomma]; decide)
        have hmore : Follows tokens length { s with index := index }
            ((argument >>= fun a =>
              Walk.argumentsFrom tokens name function? argument rounds (args ++ [a]))
                { s with index := index + 1 })
            (read (tokens.drop (index + 1)) >>= fun p =>
              argumentsFrom name function? read rounds' (args ++ [p.1]) p.2) := by
          refine (hargument (index + 1) (by omega) hnext).bind rfl fun a j hj hjlt => ?_
          have hj : index + 1 ≤ j := hj
          exact Follows.mono (s := { s with index := index })
            (ih (by omega) hjlt (by omega) (by omega)) (Nat.le_of_lt hj)
        cases function? with
        | none => exact hmore
        | some f =>
            dsimp only
            by_cases harity : f.arity ≤ args.length
            · rw [if_pos harity, if_pos harity, Walk.refuse_bind]
              exact follows_refuse hc hmem hnext (.extraArgument name f.arity) []
            · rw [if_neg harity, if_neg harity]
              exact hmore
      · rw [if_neg hcomma, if_neg hcomma]
        exact .ok (Nat.le_refl _) hlt

theorem follows_callOf {lenient : Bool} {name : Token} (hname : name ∈ tokens)
    {argument : Walk Tree} {read : Reader Tree} {rounds : Nat} (hlt : s.index < tokens.length)
    (ht : tokens[s.index]? = some t) (hkind : t.kind = .lparen)
    (hargument : FollowsFrom tokens length
      ⟨s.index + 1, s.nesting, s.openGroups + 1⟩ argument read)
    (hrounds : tokens.length ≤ s.index + 1 + rounds) :
    Follows tokens length s (Walk.callOf tokens lenient name argument rounds s)
      (callOf lenient name read (tokens.drop s.index)) := by
  obtain ⟨t', ht', hmem, hpeek, htail⟩ := exists_token hlt
  obtain rfl : t = t' := Option.some.inj (ht.symm.trans ht')
  have hnext : s.index + 1 < tokens.length := hc.lt_of_ne_eof ht (by rw [hkind]; decide)
  rw [Walk.callOf, callOf]
  dsimp only
  by_cases hunknown : ((Function.ofName? name.text).isNone && !lenient) = true
  · rw [if_pos hunknown, if_pos hunknown]
    exact .error (hc.within name hname) rfl hlt
  · rw [if_neg hunknown, if_neg hunknown, Walk.advance_bind ht, Walk.openGroup, Walk.modify_bind,
      hpeek, ok_bind, htail]
    refine (hargument (s.index + 1) (Nat.le_refl _) hnext).bind rfl fun a j hj hjlt => ?_
    have hj : s.index + 1 ≤ j := hj
    have hremaining : tokens.length ≤ j + (tokens.drop j).length := by
      rw [List.length_drop]
      omega
    refine (follows_argumentsFrom hc hargument hj hjlt (by omega) hremaining).bind rfl
      fun args k hk hklt => ?_
    have hk : j ≤ k := hk
    refine (follows_close hc hmem (s := s) (by omega) hklt).bind rfl fun _ m hm hmlt => ?_
    exact .ok hm hmlt

theorem follows_bareName {name : Token} (hlt : s.index < tokens.length) :
    Follows tokens length s (Walk.bareName tokens name s)
      (bareName name (tokens.drop s.index)) := by
  obtain ⟨t, ht, hmem, hpeek, -⟩ := exists_token hlt
  rw [Walk.bareName, bareName]
  cases namedConstant? name.text with
  | some value => exact .ok (Nat.le_refl _) hlt
  | none =>
      cases Function.ofName? name.text with
      | none => exact .ok (Nat.le_refl _) hlt
      | some f =>
          dsimp only
          rw [hpeek, ok_bind, if_pos Option.isSome_some, Walk.peek_bind ht, Walk.refuse_bind]
          exact follows_refuse hc hmem hlt (.bareFunction name.text) ["LPAREN"]

end Loops

/-- At all places behind a position, and with a count of operands, a procedure does what a
reader does that knows how many groups are open. -/
def FollowsBehind (tokens : List Token) (length : Nat) (s : Cursor) (walk : Walk β)
    (read : Nat → Reader β) : Prop :=
  ∀ s' : Cursor, s.index < s'.index → s'.index < tokens.length → s'.nesting = s.nesting →
    Follows tokens length s' (walk s') (read s'.openGroups (tokens.drop s'.index))

theorem FollowsBehind.from {walk : Walk β} {read : Nat → Reader β}
    (h : FollowsBehind tokens length s walk read) {index groups : Nat} (hlt : s.index < index) :
    FollowsFrom tokens length ⟨index, s.nesting, groups⟩ walk (read groups) :=
  fun i hi hilt => h ⟨i, s.nesting, groups⟩ (Nat.lt_of_lt_of_le hlt hi) hilt rfl

/-- The count of operands is what it was when the operand ends, whether it was read or not. -/
theorem Follows.nested {body : Walk β} {outcome : Except Failure (β × List Token)}
    (h : Follows tokens length { s with nesting := s.nesting + 1 }
      (body { s with nesting := s.nesting + 1 }) outcome) :
    Follows tokens length s (Walk.nested body s) outcome := by
  rw [Walk.nested]
  generalize body { s with nesting := s.nesting + 1 } = result at h ⊢
  cases h with
  | ok hle hlt => exact .ok hle hlt
  | error hwithin hnesting hlt =>
      exact .error hwithin (congrArg (· - 1) hnesting) hlt

section Operands

variable (hc : Complete tokens length)

include hc

theorem follows_primary {lenient : Bool} {operand : Walk Tree} {read : Nat → Reader Tree}
    (hoperand : FollowsBehind tokens length s operand read) {rounds : Nat}
    (hlt : s.index < tokens.length) (hrounds : tokens.length ≤ s.index + 1 + rounds) :
    Follows tokens length s (Walk.primary tokens lenient operand rounds s)
      (primary lenient read s.openGroups (tokens.drop s.index)) := by
  obtain ⟨t, ht, hmem, hpeek, htail⟩ := exists_token hlt
  rw [Walk.primary, Walk.peek_bind ht, primary, hpeek, ok_bind, htail]
  cases hkind : t.kind with
  | number =>
      have hnext : s.index + 1 < tokens.length := hc.lt_of_ne_eof ht (by rw [hkind]; decide)
      obtain ⟨value, hvalue⟩ := hc.readable t hmem hkind
      dsimp only
      rw [Walk.advance_bind ht, hvalue]
      exact .ok (Nat.le_succ _) hnext
  | name =>
      have hnext : s.index + 1 < tokens.length := hc.lt_of_ne_eof ht (by rw [hkind]; decide)
      obtain ⟨t', ht', -, hpeek', -⟩ := exists_token hnext
      dsimp only
      rw [Walk.advance_bind ht, Walk.peek_bind ht', hpeek', ok_bind]
      by_cases hcall : t'.kind = .lparen
      · rw [if_pos hcall, if_pos hcall]
        have hround : s.index + 1 + rounds ≤ s.index + 1 + 1 + rounds := by omega
        have hargument : FollowsFrom tokens length ⟨s.index + 1 + 1, s.nesting, s.openGroups + 1⟩
            (Walk.sum tokens operand rounds) (sum (read (s.openGroups + 1))) :=
          followsFrom_sum hc (hoperand.from (by omega)) (Nat.le_trans hrounds hround)
        exact Follows.mono (follows_callOf hc hmem (s := { s with index := s.index + 1 }) hnext ht'
          hcall hargument (Nat.le_trans hrounds hround)) (Nat.le_succ _)
      · rw [if_neg hcall, if_neg hcall]
        exact Follows.mono (follows_bareName hc (s := { s with index := s.index + 1 }) hnext)
          (Nat.le_succ _)
  | lparen =>
      have hnext : s.index + 1 < tokens.length := hc.lt_of_ne_eof ht (by rw [hkind]; decide)
      have hinner : FollowsFrom tokens length ⟨s.index + 1, s.nesting, s.openGroups + 1⟩
          (Walk.sum tokens operand rounds) (sum (read (s.openGroups + 1))) :=
        followsFrom_sum hc (hoperand.from (Nat.lt_succ_self _)) hrounds
      dsimp only
      rw [Walk.advance_bind ht, Walk.openGroup, Walk.modify_bind]
      refine (hinner (s.index + 1) (Nat.le_refl _) hnext).bind rfl fun a j hj hjlt => ?_
      have hj : s.index + 1 ≤ j := hj
      refine (follows_close hc hmem (s := s) (by omega) hjlt).bind rfl fun _ k hk hklt => ?_
      exact .ok hk hklt
  | rparen =>
      dsimp only
      rw [if_pos rfl, Walk.get_bind]
      by_cases hgroups : s.openGroups = 0
      · rw [if_neg (not_not.mpr hgroups), if_pos hgroups, Walk.refuse_bind]
        exact follows_refuse hc hmem hlt .unmatchedClose []
      · rw [if_pos hgroups, if_neg hgroups, Walk.refuse_bind]
        exact follows_refuse hc hmem hlt .incompleteGroup operandStarts
  | _ =>
      dsimp only
      rw [if_neg (by decide), Walk.refuse_bind]
      exact follows_refuse hc hmem hlt .unexpected operandStarts

theorem follows_power {lenient : Bool} {operand : Walk Tree} {read : Nat → Reader Tree}
    (hoperand : FollowsBehind tokens length s operand read) {rounds : Nat}
    (hlt : s.index < tokens.length) (hrounds : tokens.length ≤ s.index + 1 + rounds) :
    Follows tokens length s (Walk.power tokens lenient operand rounds s)
      (power lenient read s.openGroups (tokens.drop s.index)) := by
  rw [Walk.power, power]
  refine (follows_primary hc hoperand hlt hrounds).bind rfl fun base j hj hjlt => ?_
  obtain ⟨t, ht, hmem, hpeek, htail⟩ := exists_token hjlt
  dsimp only
  rw [Walk.peek_bind ht, hpeek, ok_bind]
  by_cases hcaret : t.kind = .caret
  · have hnext : j + 1 < tokens.length := hc.lt_of_ne_eof ht (by rw [hcaret]; decide)
    have hlater : s.index < j + 1 := Nat.lt_succ_of_le hj
    rw [if_pos hcaret, if_pos hcaret, Walk.advance_bind ht, htail]
    refine (hoperand ⟨j + 1, s.nesting, s.openGroups⟩ hlater hnext rfl).bind rfl
      fun exponent k hk hklt => ?_
    exact .ok (Nat.le_trans (Nat.le_of_lt hlater) hk) hklt
  · rw [if_neg hcaret, if_neg hcaret]
    exact .ok hj hjlt

/-- The cursor reads an operand as the reader does, with as many levels left as it has not counted
yet. -/
theorem follows_operand {lenient : Bool} {steps : Nat} (hlt : s.index < tokens.length)
    (hsteps : tokens.length ≤ s.index + steps) :
    Follows tokens length s (Walk.operand tokens lenient steps s)
      (operand lenient (maxNesting - s.nesting) s.openGroups (tokens.drop s.index)) := by
  induction steps generalizing s with
  | zero => omega
  | succ steps ih =>
      obtain ⟨t, ht, hmem, hpeek, htail⟩ := exists_token hlt
      rw [Walk.operand, Walk.peek_bind ht, Walk.get_bind]
      by_cases hdeep : maxNesting ≤ s.nesting
      · rw [if_pos hdeep, Nat.sub_eq_zero_of_le hdeep, operand, hpeek, ok_bind]
        exact .error (hc.within t hmem) rfl hlt
      · obtain ⟨left, hleft⟩ : ∃ left, maxNesting - s.nesting = left + 1 :=
          Nat.exists_eq_succ_of_ne_zero (by omega)
        have hbelow : maxNesting - (s.nesting + 1) = left := by omega
        have hbehind : FollowsBehind tokens length { s with nesting := s.nesting + 1 }
            (Walk.operand tokens lenient steps) (operand lenient left) := by
          intro s' hs' hs'lt hnesting
          have hs' : s.index < s'.index := hs'
          have hoperand := ih hs'lt (by omega)
          rwa [hnesting, hbelow] at hoperand
        rw [if_neg hdeep, hleft, operand, hpeek, ok_bind]
        have hthere : tokens[({ s with nesting := s.nesting + 1 } : Cursor).index]? = some t := ht
        refine Follows.nested ?_
        cases hkind : t.kind with
        | minus =>
            have hnext : s.index + 1 < tokens.length := hc.lt_of_ne_eof ht (by rw [hkind]; decide)
            dsimp only
            rw [Walk.advance_bind hthere, htail]
            refine (hbehind ⟨s.index + 1, s.nesting + 1, s.openGroups⟩ (Nat.lt_succ_self _) hnext
              rfl).bind rfl fun a j hj hjlt => ?_
            exact .ok (Nat.le_of_lt hj) hjlt
        | plus =>
            have hnext : s.index + 1 < tokens.length := hc.lt_of_ne_eof ht (by rw [hkind]; decide)
            dsimp only
            rw [Walk.advance_bind hthere, htail]
            exact Follows.mono (s := { s with nesting := s.nesting + 1 })
              (hbehind ⟨s.index + 1, s.nesting + 1, s.openGroups⟩ (Nat.lt_succ_self _) hnext rfl)
              (Nat.le_succ _)
        | _ =>
            have hsteps : tokens.length ≤ s.index + 1 + steps := by omega
            exact follows_power hc (s := { s with nesting := s.nesting + 1 }) hbehind hlt hsteps

/-- With as many steps as there are tokens, the procedure for the whole list does what the
readers do. -/
theorem finishes_expression {lenient : Bool} {steps : Nat} (hpos : 0 < tokens.length)
    (hsteps : tokens.length ≤ steps) :
    Finishes tokens length (Walk.expression tokens lenient steps .start)
      (ofTokens lenient tokens) := by
  have hoperand : FollowsFrom tokens length .start (Walk.operand tokens lenient steps)
      (operand lenient maxNesting 0) :=
    fun index _ hlt => follows_operand hc (s := { Cursor.start with index := index }) hlt
      (Nat.le_add_left_of_le hsteps)
  have hsum : Follows tokens length .start
      (Walk.sum tokens (Walk.operand tokens lenient steps) steps .start)
      (sum (operand lenient maxNesting 0) tokens) :=
    followsFrom_sum hc hoperand (Nat.le_add_left_of_le hsteps) 0 (Nat.le_refl 0) hpos
  rw [Walk.expression, Walk.bind_apply, ofTokens]
  generalize Walk.sum tokens (Walk.operand tokens lenient steps) steps .start = result at hsum ⊢
  generalize sum (operand lenient maxNesting 0) tokens = outcome at hsum ⊢
  cases hsum with
  | error hwithin hnesting hlt => exact .error hwithin hnesting hlt
  | @ok e index _ hlt =>
      obtain ⟨t, ht, hmem, hpeek, -⟩ := exists_token hlt
      have hthere : tokens[({ Cursor.start with index := index } : Cursor).index]? = some t := ht
      dsimp only
      rw [Walk.peek_bind hthere, ok_bind, hpeek, ok_bind]
      cases hkind : t.kind with
      | eof =>
          have hlast : index + 1 = tokens.length := (hc.marked index t ht).mp hkind
          rw [if_neg (by decide), Walk.bind_apply, Walk.expect_of_kind_eq hthere hkind]
          change Finishes tokens length (.ok e ⟨index + 1, 0, 0⟩) (.ok e)
          exact hlast ▸ .ok e
      | rparen =>
          rw [if_pos rfl, Walk.refuse_bind]
          exact .error (hc.within t hmem) rfl hlt
      | _ =>
          rw [if_neg (by decide), Walk.bind_apply,
            Walk.expect_of_kind_ne hthere (by rw [hkind]; decide)]
          exact .error (hc.within t hmem) rfl hlt

end Operands

end Steps

end Fluxion.Source
