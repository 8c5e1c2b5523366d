import Fluxion.Document.Basic
import Fluxion.Proofs.Outcome
import Mathlib.Tactic.Common

/-!
# Documents that can be written

Writing a document descends into it, and it writes every integer that it meets.  So it fails
for a document that has more levels than there is room for, and for one that holds an integer
of too many digits; the texts of everything else are found.  A document that is a text itself
is not written at all.

The three functions that write documents, lists of items and lists of fields call each other,
and the lemmas about them do the same.
-/

namespace Fluxion.Document

open Fluxion.Decimal Fluxion.Text

mutual
def depth : Document → Nat
  | .list items => depthItems items + 1
  | .record fields => depthFields fields + 1
  | _ => 1

def depthItems : List Document → Nat
  | [] => 0
  | d :: ds => max (depth d) (depthItems ds)

def depthFields : List (String × Document) → Nat
  | [] => 0
  | (_, d) :: fs => max (depth d) (depthFields fs)
end

mutual
def integers : Document → List Int
  | .integer n => [n]
  | .list items => integersItems items
  | .record fields => integersFields fields
  | _ => []

def integersItems : List Document → List Int
  | [] => []
  | d :: ds => integers d ++ integersItems ds

def integersFields : List (String × Document) → List Int
  | [] => []
  | (_, d) :: fs => integers d ++ integersFields fs
end

/-- The integer has more digits than are written. -/
def Long (n : Int) : Prop :=
  Nat.pow 10 maxIntegerDigits ≤ n.natAbs

/-- The document is no text, and it is too deep to be written or holds an integer that is too
long. -/
def Unprintable [Stack] (d : Document) : Prop :=
  (∀ s, d ≠ .text s) ∧ (Stack.printing < d.depth ∨ ∃ n ∈ d.integers, Long n)

theorem pow_le_iff_lt_digitCount {n k : Nat} (hk : 0 < k) :
    Nat.pow 10 k ≤ n ↔ k < digitCount n := by
  have hshort : digitCount n ≤ k ↔ n < Nat.pow 10 k :=
    Nat.length_toDigits_le_iff (by decide) hk
  rw [← Nat.not_lt, ← hshort, Nat.not_le]

theorem long_iff {n : Int} : Long n ↔ maxIntegerDigits < digitCount n.natAbs :=
  pow_le_iff_lt_digitCount (by decide)

theorem integerWord_of_not_long {n : Int} (h : ¬ Long n) :
    integerWord n = .ok (intText n).toList := by
  rw [long_iff] at h
  rw [integerWord, if_neg h]

theorem integerWord_of_long {n : Int} (h : Long n) : integerWord n = .error .tooManyDigits := by
  rw [long_iff] at h
  rw [integerWord, if_pos h]

/-! ## What is written -/

/-- Writing comes to a text exactly if it stays within the room and no integer is too long. -/
def Writes (outcome : Except WordError (List Char)) (room depth : Nat) (integers : List Int) :
    Prop :=
  (∃ cs, outcome = .ok cs) ↔ depth ≤ room ∧ ∀ n ∈ integers, ¬ Long n

section Writes

variable {first second : Except WordError (List Char)} {room depth depth' : Nat}
  {integers integers' : List Int}

theorem Writes.map (h : Writes first room depth integers) (f : List Char → List Char) :
    Writes (do return f (← first)) room depth integers := by
  refine Iff.trans ?_ h
  simp only [bind_eq_ok]
  exact ⟨fun ⟨_, cs, hcs, _⟩ => ⟨cs, hcs⟩, fun ⟨cs, hcs⟩ => ⟨f cs, cs, hcs, rfl⟩⟩

/-- One text after another. -/
theorem Writes.append (h : Writes first room depth integers)
    (h' : Writes second room depth' integers') (f : List Char → List Char → List Char) :
    Writes (do return f (← first) (← second)) room (max depth depth') (integers ++ integers') := by
  have hboth : (∃ cs, (do return f (← first) (← second)) = Except.ok (ε := WordError) cs) ↔
      (∃ cs, first = .ok cs) ∧ ∃ cs, second = .ok cs := by
    simp only [bind_eq_ok]
    exact ⟨fun ⟨_, cs, hcs, cs', hcs', _⟩ => ⟨⟨cs, hcs⟩, cs', hcs'⟩,
      fun ⟨⟨cs, hcs⟩, cs', hcs'⟩ => ⟨f cs cs', cs, hcs, cs', hcs', rfl⟩⟩
  rw [Writes] at h h' ⊢
  rw [hboth, h, h', Nat.max_le, List.forall_mem_append]
  tauto

/-- What holds a document takes one level more. -/
theorem Writes.deeper (h : Writes first room depth integers) :
    Writes first (room + 1) (depth + 1) integers := by
  rw [Writes] at h ⊢
  rw [h, Nat.add_le_add_iff_right]

end Writes

mutual
/-- Inside another document a text is written as far as there is room for its levels and its
integers are short enough. -/
theorem writes_inner (room : Nat) (d : Document) :
    Writes (d.inner room) room d.depth d.integers := by
  cases room with
  | zero =>
      have hdepth : ¬ d.depth ≤ 0 := by cases d <;> simp [depth]
      simp [Writes, inner, hdepth]
  | succ room =>
      cases d with
      | null | number x | text s => simp [Writes, inner, depth, integers]
      | bool value => cases value <;> simp [Writes, inner, depth, integers]
      | integer n =>
          by_cases hlong : Long n
          · simp [Writes, inner, depth, integers, integerWord_of_long hlong, hlong]
          · simp [Writes, inner, depth, integers, integerWord_of_not_long hlong, hlong]
      | list items => exact ((writes_innerItems room items).map _).deeper
      | record fields => exact ((writes_innerFields room fields).map _).deeper

theorem writes_innerItems (room : Nat) : ∀ items : List Document,
    Writes (innerItems room items) room (depthItems items) (integersItems items)
  | [] => by simp [Writes, innerItems, depthItems, integersItems]
  | [d] => by simpa [innerItems, depthItems, integersItems] using writes_inner room d
  | d :: e :: ds => (writes_inner room d).append (writes_innerItems room (e :: ds)) _

theorem writes_innerFields (room : Nat) : ∀ fields : List (String × Document),
    Writes (innerFields room fields) room (depthFields fields) (integersFields fields)
  | [] => by simp [Writes, innerFields, depthFields, integersFields]
  | [(name, d)] => by
      simpa [innerFields, depthFields, integersFields] using
        (writes_inner room d).map ((quoted name).toList ++ ':' :: ' ' :: ·)
  | (name, d) :: f :: fs => (writes_inner room d).append (writes_innerFields room (f :: fs)) _
end

/-- A document has no text exactly if it is unprintable. -/
theorem exists_word_eq_error_iff [Stack] {d : Document} :
    (∃ e, d.word = .error e) ↔ d.Unprintable := by
  by_cases htext : ∃ s, d = .text s
  · obtain ⟨s, rfl⟩ := htext
    simp [Unprintable]
  · push Not at htext
    have hword : d.word = do return String.ofList (← d.inner Stack.printing) := by
      cases d with
      | text s => exact absurd rfl (htext s)
      | _ => rfl
    have hwrites := (writes_inner Stack.printing d).not
    rw [not_and_or, Nat.not_le] at hwrites
    push Not at hwrites
    rw [hword, Unprintable, and_iff_right htext, ← hwrites]
    cases d.inner Stack.printing with
    | error e => simp [bind, Except.bind]
    | ok cs => simp

end Fluxion.Document
