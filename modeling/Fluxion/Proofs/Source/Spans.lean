import Fluxion.Proofs.Decimal.ReadBack
import Fluxion.Proofs.Source.Cursor
import Fluxion.Proofs.Source.Layout

/-!
# Every text is read or refused

What is scanned lies in the text, and a token of kind `number` carries a numeral.  So the
tokens of a text are `Complete`, and the procedures that read them with a cursor have one of
two ends: a tree, or an error about a part of the text.  They need no more steps than there
are tokens, no place behind a refusal is reached, and nothing is read behind the end mark:
`parse_stays_within`.
-/

namespace Fluxion.Source

open Fluxion.Decimal Fluxion.Text

/-! ## Scanning -/

/-- A failure that is an error about a part of a text of so many characters. -/
def Failure.Within (failure : Failure) (length : Nat) : Prop :=
  ∃ error, failure = .rejected error ∧ error.Within length

/-- A token that stands in the text between two positions, and can be read if it is a
number. -/
structure Token.Scanned (t : Token) (start stop : Nat) : Prop where
  start_le : start ≤ t.start
  start_le_stop : t.start ≤ t.stop
  stop_le : t.stop ≤ stop
  readable : t.kind = .number → ∃ value, readFloat? t.text = some value

/-- A number is written as a numeral, so it has a value. -/
theorem Spelled.exists_readFloat?_eq_some {kind : TokenKind} {text : String}
    {piece behind : List Char} (h : Spelled kind text piece behind) (hkind : kind = .number) :
    ∃ value, readFloat? text = some value := by
  subst hkind
  cases h with
  | sign hsign => simp [signs] at hsign
  | number hpiece =>
      obtain ⟨numeral, hnumeral, rfl⟩ := hpiece.shaped
      exact ⟨_, readFloat?_text hnumeral⟩

theorem within_of_scanNumber {pos : Nat} {c : Char} {cs : List Char} {failure : Failure}
    (hpos : 0 < cs.length) (h : scanNumber pos c cs = .error failure) :
    failure.Within (pos + cs.length) := by
  unfold scanNumber at h
  split at h
  · exact ⟨_, (Except.error.inj h).symm, Nat.le_succ pos, by dsimp only; omega⟩
  · next numeral after hscan =>
      obtain ⟨htext, -⟩ := Numeral.scan_text hscan
      dsimp only at h
      split at h
      · next letter rest =>
          split_ifs at h
          have hlength : numeral.text.length + (rest.length + 1) = cs.length := by
            rw [← htext, List.length_append, List.length_cons]
          exact ⟨_, (Except.error.inj h).symm, by dsimp only; omega, by dsimp only; omega⟩
      · cases h

theorem within_of_scanToken {pos : Nat} {c : Char} {cs : List Char} {failure : Failure}
    (h : scanToken pos c cs = .error failure) : failure.Within (pos + (cs.length + 1)) := by
  unfold scanToken at h
  split at h
  · cases h
  · split_ifs at h
    · have hpos : 0 < (c :: cs).length := Nat.succ_pos cs.length
      exact within_of_scanNumber hpos h
    · exact ⟨_, (Except.error.inj h).symm, Nat.le_succ pos, by dsimp only; omega⟩

/-! ## Texts -/

/-- The tokens of a text stand in it. -/
theorem scanned_of_tokenize {source : String} {ts : List Token} (h : tokenize source = .ok ts) :
    ∀ t ∈ ts, t.Scanned 0 source.toList.length := by
  obtain ⟨body, rfl, -, hlayout⟩ := layout_of_tokenize h
  refine List.forall_mem_append.mpr ⟨fun t ht => ?_, List.forall_mem_singleton.mpr ?_⟩
  · obtain ⟨-, hlt, hstop⟩ := hlayout.inside t ht
    refine ⟨Nat.zero_le _, Nat.le_of_lt hlt, hstop, fun hnumber => ?_⟩
    exact (hlayout.spelled t ht).exists_readFloat?_eq_some hnumber
  · exact ⟨Nat.zero_le _, Nat.le_refl _, Nat.le_refl _, TokenKind.noConfusion⟩

/-- A text that cannot be scanned is refused with a part of it. -/
theorem within_of_tokenizeFrom {pos : Nat} {cs : List Char} {failure : Failure}
    (h : tokenizeFrom pos cs = .error failure) : failure.Within (pos + cs.length) := by
  obtain ⟨before, c, rest, rfl, hscan⟩ := exists_scanToken_of_tokenizeFrom h
  have hwithin := within_of_scanToken hscan
  rwa [Nat.add_assoc, ← List.length_cons, ← List.length_append] at hwithin

/-- The tokens of a text are complete, and there is at least the end mark. -/
theorem complete_of_tokenize {source : String} {ts : List Token} (h : tokenize source = .ok ts) :
    Complete ts source.toList.length ∧ 0 < ts.length := by
  have hscanned := scanned_of_tokenize h
  obtain ⟨body, mark, rfl, hmark, hbody⟩ := tokenizeFrom_eq_ok h
  refine ⟨⟨fun index t ht => ?_, fun t ht => (hscanned t ht).readable, fun t ht => ?_⟩, ?_⟩
  · rw [List.length_append, List.length_singleton]
    obtain hlt | hle := Nat.lt_or_ge index body.length
    · rw [List.getElem?_append_left hlt] at ht
      have hkind := (hbody t (List.mem_of_getElem? ht)).not_eof
      exact ⟨fun heof => absurd heof hkind, fun hlast => by omega⟩
    · obtain ⟨hindex, -⟩ := List.getElem?_eq_some_iff.mp ht
      rw [List.length_append, List.length_singleton] at hindex
      obtain rfl : index = body.length := by omega
      rw [List.getElem?_concat_length] at ht
      obtain rfl := Option.some.inj ht
      exact iff_of_true hmark rfl
  · exact ⟨(hscanned t ht).start_le_stop, (hscanned t ht).stop_le⟩
  · rw [List.length_append, List.length_singleton]
    exact Nat.succ_pos _

/-- A text is read, or refused with a part of it. -/
theorem within_of_parse {lenient : Bool} {source : String} {failure : Failure}
    (h : parse lenient source = .error failure) : failure.Within source.toList.length := by
  rw [parse] at h
  split_ifs at h
  · exact ⟨_, (Except.error.inj h).symm, Nat.zero_le _, Nat.le_refl _⟩
  cases htokens : tokenize source with
  | error e =>
      rw [htokens] at h
      obtain rfl : e = failure := Except.error.inj h
      have hwithin := within_of_tokenizeFrom htokens
      rwa [Nat.zero_add] at hwithin
  | ok ts =>
      rw [htokens, ok_bind, boundedOfTokens] at h
      obtain ⟨hc, hpos⟩ := complete_of_tokenize htokens
      have hend : Finishes ts source.toList.length
          (Walk.expression ts lenient ts.length .start) (ofTokens lenient ts) :=
        finishes_expression hc hpos (Nat.le_refl _)
      generalize Walk.expression ts lenient ts.length .start = result at hend
      cases hoftokens : ofTokens lenient ts with
      | error e =>
          rw [hoftokens] at h hend
          obtain rfl : e = failure := Except.error.inj h
          cases hend with
          | error hwithin hnesting hlt => exact ⟨_, rfl, hwithin⟩
      | ok e =>
          rw [hoftokens, ok_bind] at h
          split_ifs at h
          · exact ⟨_, (Except.error.inj h).symm, Nat.zero_le _, Nat.le_refl _⟩
          · cases h

/-- Every text is read to a tree, or refused with an error about a part of it. Where there
are tokens, the procedures that read them with a cursor end with what the readers give, in
no more steps than there are tokens: the count of operands is what it was when an operand
ends, the end mark is the last token taken, and neither a place behind a refusal is reached
nor a number that cannot be read. -/
theorem parse_stays_within (lenient : Bool) (source : String) :
    ((∃ e, parse lenient source = .ok e) ∨
      ∃ error, parse lenient source = .error (.rejected error) ∧
        error.Within source.toList.length) ∧
    ∀ tokens, tokenize source = .ok tokens → ∀ steps, tokens.length ≤ steps →
      Finishes tokens source.toList.length
        (Walk.expression tokens lenient steps .start) (ofTokens lenient tokens) ∧
      ∀ s : Cursor, s.index < tokens.length →
        Follows tokens source.toList.length s (Walk.operand tokens lenient steps s)
          (operand lenient (maxNesting - s.nesting) s.openGroups (tokens.drop s.index)) := by
  constructor
  · cases hparse : parse lenient source with
    | ok e => exact .inl ⟨e, rfl⟩
    | error failure =>
        obtain ⟨error, rfl, hwithin⟩ := within_of_parse hparse
        exact .inr ⟨error, rfl, hwithin⟩
  · intro tokens htokens steps hsteps
    obtain ⟨hc, hpos⟩ := complete_of_tokenize htokens
    exact ⟨finishes_expression hc hpos hsteps,
      fun s hlt => follows_operand hc hlt (Nat.le_add_left_of_le hsteps)⟩

def openGroupTokens : List Token :=
  [⟨.number, "2", 0, 1⟩, ⟨.star, "*", 1, 2⟩, ⟨.lparen, "(", 2, 3⟩, ⟨.name, "x", 3, 4⟩,
    ⟨.eof, "", 4, 4⟩]

/-- The group of `2*(x` is not closed: the parenthesis is refused when the cursor stands at
the end mark, with the group still open. -/
theorem parse_stays_within_openGroup :
    tokenize "2*(x" = .ok openGroupTokens ∧
      Walk.expression openGroupTokens false 5 .start =
        .error (.failure (.rejected ⟨.unclosedOpen, 2, 3, ["RPAREN"], some "EOF"⟩)) ⟨4, 0, 1⟩ ∧
      Finishes openGroupTokens 4 (Walk.expression openGroupTokens false 5 .start)
        (ofTokens false openGroupTokens) ∧
      Follows openGroupTokens 4 ⟨2, 0, 0⟩ (Walk.operand openGroupTokens false 5 ⟨2, 0, 0⟩)
        (operand false maxNesting 0 (openGroupTokens.drop 2)) := by
  have htokens : tokenize "2*(x" = .ok openGroupTokens := by cbv
  have hrun : Walk.expression openGroupTokens false 5 .start =
      .error (.failure (.rejected ⟨.unclosedOpen, 2, 3, ["RPAREN"], some "EOF"⟩)) ⟨4, 0, 1⟩ := by
    rfl
  obtain ⟨hend, hoperand⟩ :=
    (parse_stays_within false "2*(x").2 openGroupTokens htokens 5 (Nat.le_refl 5)
  exact ⟨htokens, hrun, hend, hoperand ⟨2, 0, 0⟩ (by decide)⟩

end Fluxion.Source
