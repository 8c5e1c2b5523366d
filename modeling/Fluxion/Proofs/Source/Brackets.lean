import Fluxion.Proofs.Source.Layout

/-!
# Open groups

How many groups are open behind a list of parentheses is counted by `groupsBehind`, which
gives nothing where one is closed that is not open.  A list is `Balanced` if it closes what it
opens and nothing else; then it may stand anywhere and changes no count.

The tokens of a text open and close the groups that its characters do, so a text is balanced
exactly if its tokens are: `balanced_iff_of_tokenize`.
-/

namespace Fluxion.Source

open Fluxion.Decimal Fluxion.Text

/-- What a token or a character does to groups. -/
inductive Bracket where
  | opening | closing | neither
deriving DecidableEq, Repr

/-- The number of open groups behind a bracket, unless it closes one where none is open. -/
def Bracket.step : Bracket → Nat → Option Nat
  | .opening, groups => some (groups + 1)
  | .closing, 0 => none
  | .closing, groups + 1 => some groups
  | .neither, groups => some groups

/-- The number of open groups behind brackets, with so many open in front of them. -/
def groupsBehind (groups : Nat) (brackets : List Bracket) : Option Nat :=
  brackets.foldlM (fun groups bracket => bracket.step groups) groups

/-- No group is closed that was not opened, and none is left open. -/
def Balanced (brackets : List Bracket) : Prop :=
  groupsBehind 0 brackets = some 0

def Token.bracket (t : Token) : Bracket :=
  match t.kind with
  | .lparen => .opening
  | .rparen => .closing
  | _ => .neither

def brackets (ts : List Token) : List Bracket :=
  ts.map Token.bracket

def bracketOf (c : Char) : Bracket :=
  if c = '(' then .opening else if c = ')' then .closing else .neither

section Brackets

variable {t : Token} {ts us : List Token}

theorem bracket_of_lparen (h : t.kind = .lparen) : t.bracket = .opening := by
  rw [Token.bracket, h]

theorem bracket_of_rparen (h : t.kind = .rparen) : t.bracket = .closing := by
  rw [Token.bracket, h]

theorem bracket_of_ne (hopener : t.kind ≠ .lparen) (hcloser : t.kind ≠ .rparen) :
    t.bracket = .neither := by
  rw [Token.bracket]
  split
  · next h => exact absurd h hopener
  · next h => exact absurd h hcloser
  · rfl

theorem brackets_append : brackets (ts ++ us) = brackets ts ++ brackets us :=
  List.map_append

theorem brackets_cons : brackets (t :: ts) = t.bracket :: brackets ts :=
  rfl

end Brackets

section Groups

variable {bs cs : List Bracket} {groups more : Nat}

theorem groupsBehind_cons (b : Bracket) (bs : List Bracket) (groups : Nat) :
    groupsBehind groups (b :: bs) = (b.step groups).bind fun groups => groupsBehind groups bs :=
  rfl

/-- Groups are counted through one part after the other. -/
theorem groupsBehind_append (bs cs : List Bracket) (groups : Nat) :
    groupsBehind groups (bs ++ cs) =
      (groupsBehind groups bs).bind fun groups => groupsBehind groups cs :=
  List.foldlM_append

/-- Groups that are open in front stay open. -/
theorem groupsBehind_add (h : groupsBehind groups bs = some more) (outer : Nat) :
    groupsBehind (groups + outer) bs = some (more + outer) := by
  induction bs generalizing groups with
  | nil =>
      obtain rfl : groups = more := Option.some.inj h
      rfl
  | cons b bs ih =>
      rw [groupsBehind_cons] at h ⊢
      obtain ⟨next, hnext, hrest⟩ := Option.bind_eq_some_iff.mp h
      have hstep : b.step (groups + outer) = some (next + outer) := by
        cases b with
        | opening =>
            obtain rfl := Option.some.inj hnext
            exact congrArg some (Nat.add_right_comm _ _ _)
        | closing =>
            cases groups with
            | zero => cases hnext
            | succ groups =>
                obtain rfl := Option.some.inj hnext
                rw [Nat.add_right_comm]
                rfl
        | neither =>
            obtain rfl := Option.some.inj hnext
            rfl
      rw [hstep, Option.bind_some, ih hrest]

/-- Balanced tokens leave as many groups open as there were. -/
theorem Balanced.groupsBehind_eq (h : Balanced bs) (groups : Nat) :
    groupsBehind groups bs = some groups := by
  have hmore := groupsBehind_add h groups
  rwa [Nat.zero_add] at hmore

theorem balanced_nil : Balanced [] := rfl

theorem Balanced.append (h : Balanced bs) (h' : Balanced cs) : Balanced (bs ++ cs) := by
  rw [Balanced, groupsBehind_append, h, Option.bind_some]
  exact h'

theorem Balanced.group (h : Balanced bs) : Balanced (.opening :: (bs ++ [.closing])) := by
  rw [Balanced, groupsBehind_cons, Bracket.step, Option.bind_some, groupsBehind_append,
    h.groupsBehind_eq]
  rfl

end Groups

/-! ## Texts and their tokens -/

theorem groupsBehind_of_neither {cs : List Char} (h : ∀ c ∈ cs, bracketOf c = .neither)
    (groups : Nat) : groupsBehind groups (cs.map bracketOf) = some groups := by
  induction cs with
  | nil => rfl
  | cons c cs ih =>
      obtain ⟨hc, hcs⟩ := List.forall_mem_cons.mp h
      rw [List.map_cons, groupsBehind_cons, hc]
      exact ih hcs

theorem bracketOf_eq_neither {p : Char → Bool} (hopening : p '(' = false)
    (hclosing : p ')' = false) {c : Char} (h : p c = true) : bracketOf c = .neither := by
  have hne : ∀ d, p d = false → c ≠ d := by
    rintro d hd rfl
    rw [h] at hd
    cases hd
  rw [bracketOf, if_neg (hne _ hopening), if_neg (hne _ hclosing)]

/-- A parenthesis is written as itself, and nothing else is written with one. -/
theorem Spelled.groupsBehind_eq {kind : TokenKind} {text : String} {piece behind : List Char}
    (h : Spelled kind text piece behind) (start stop groups : Nat) :
    groupsBehind groups (piece.map bracketOf) =
      (Token.bracket ⟨kind, text, start, stop⟩).step groups := by
  cases h with
  | sign hsign hpiece =>
      simp only [signs, List.mem_cons, Prod.mk.injEq, List.not_mem_nil, or_false] at hsign
      rcases hpiece with rfl | halias
      · rcases hsign with ⟨rfl, rfl⟩ | ⟨rfl, rfl⟩ | ⟨rfl, rfl⟩ | ⟨rfl, rfl⟩ | ⟨rfl, rfl⟩ |
          ⟨rfl, rfl⟩ | ⟨rfl, rfl⟩ | ⟨rfl, rfl⟩ <;> cases groups <;> rfl
      · simp only [aliases, List.mem_cons, Prod.mk.injEq, List.not_mem_nil, or_false] at halias
        rcases halias with ⟨rfl, rfl⟩ | ⟨rfl, rfl⟩ | ⟨rfl, rfl⟩ | ⟨rfl, rfl⟩ <;>
          simp at hsign <;> subst hsign <;> rfl
  | number hpiece =>
      have hchars := Numeral.numeralChar_of_mem hpiece.shaped
      exact groupsBehind_of_neither
        (fun c hc => bracketOf_eq_neither (by decide) (by decide) (hchars c hc)) groups
  | name hpiece =>
      have hchars := isNameChar_of_isNameText hpiece.shaped
      exact groupsBehind_of_neither
        (fun c hc => bracketOf_eq_neither (by decide) (by decide) (hchars c hc)) groups

/-- The tokens of a text open and close the groups that the text does. -/
theorem LaidOut.groupsBehind_eq {pos stop : Nat} {cs rest : List Char} {ts : List Token}
    (h : LaidOut pos cs ts stop rest) (groups : Nat) :
    groupsBehind groups (cs.map bracketOf) =
      (groupsBehind groups (brackets ts)).bind fun groups =>
        groupsBehind groups (rest.map bracketOf) := by
  induction h generalizing groups with
  | done => rfl
  | blank hc h ih =>
      rw [List.map_cons, bracketOf_eq_neither (by decide) (by decide) hc]
      exact ih groups
  | @token pos stop kind text piece behind rest ts hspelled h ih =>
      rw [List.map_append, groupsBehind_append, hspelled.groupsBehind_eq pos (pos + piece.length),
        brackets, List.map_cons, groupsBehind_cons, Option.bind_assoc]
      exact congrArg _ (funext ih)

/-- Characters balance exactly if the tokens that they make do. -/
theorem balanced_iff_of_tokenize {source : String} {tokens : List Token}
    (h : tokenize source = .ok tokens) :
    Balanced (source.toList.map bracketOf) ↔ Balanced (brackets tokens) := by
  obtain ⟨body, stop, rfl, hlaid⟩ := laidOut_of_tokenizeFrom h
  rw [Balanced, Balanced, hlaid.groupsBehind_eq, brackets_append, groupsBehind_append]
  rfl

end Fluxion.Source
