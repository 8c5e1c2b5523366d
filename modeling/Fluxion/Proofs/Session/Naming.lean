import Fluxion.Code.Reader
import Fluxion.Session.Basic
import Mathlib.Tactic.Common

/-!
# The parts of a task and its name

A task is its expression, its variable and its tag.  Its name is a letter, an underscore
and the first digits of its fingerprint, so it is a name that code can define a function
by, and it tells these digits.
-/

namespace Fluxion

open Fluxion.Code Fluxion.Digest Fluxion.Text

namespace Text

theorem isNameChar_of_mem_hexDigits {width n : Nat} {c : Char} (h : c ∈ hexDigits width n) :
    isNameChar c = true := by
  have hdigit : ∀ n < 16, isNameChar (hexDigit n) = true := by decide
  induction width generalizing n with
  | zero => cases h
  | succ width ih =>
      rcases List.mem_append.mp h with hfront | hlast
      · exact ih hfront
      · rw [List.mem_singleton.mp hlast]
        exact hdigit _ (Nat.mod_lt n (by decide))

end Text

namespace Session.Task

theorem isNameChar_of_mem_fingerprint (task : Task) {c : Char}
    (h : c ∈ task.fingerprint.toList) : isNameChar c = true := by
  rw [Task.fingerprint, Digest.fingerprint, Blake2b.hexText, String.toList_ofList] at h
  obtain ⟨byte, -, hbyte⟩ := List.mem_flatMap.mp h
  exact isNameChar_of_mem_hexDigits hbyte

/-- The letter of a name as a character. -/
theorem toList_name (task : Task) :
    task.name.toList =
      (if task.mode.isSome then 'd' else 'f') :: '_' ::
        task.fingerprint.toList.take namedDigits := by
  rw [name, initial]
  cases task.mode.isSome <;> simp

/-- A function has a name that code can define. -/
theorem isName_name (task : Task) : isName task.name = true := by
  have hdigits : ∀ c ∈ task.fingerprint.toList.take namedDigits, isNameChar c = true :=
    fun c hc => task.isNameChar_of_mem_fingerprint (List.mem_of_mem_take hc)
  rw [isName, toList_name, Bool.and_eq_true, List.all_cons, Bool.and_eq_true, List.all_eq_true]
  refine ⟨?_, rfl, hdigits⟩
  cases task.mode.isSome <;> decide

/-- No keyword has an underscore behind its first letter. -/
theorem isFreeName_name (task : Task) : isFreeName task.name = true := by
  have hkeywords : ∀ word ∈ keywords, word.toList[1]? ≠ some '_' := by decide
  rw [isFreeName, Bool.not_eq_true', List.contains_eq_mem, decide_eq_false_iff_not]
  intro hmem
  exact hkeywords task.name hmem (by rw [toList_name]; rfl)

/-- A name tells the digits that are in it. -/
theorem take_fingerprint_of_name_eq {t u : Task} (h : t.name = u.name) :
    t.fingerprint.toList.take namedDigits = u.fingerprint.toList.take namedDigits := by
  have hchars := congrArg String.toList h
  rw [toList_name, toList_name] at hchars
  exact (List.cons.inj (List.cons.inj hchars).2).2

theorem mode_eq_of_tag_eq {t u : Task} (h : t.tag = u.tag) : t.mode = u.mode := by
  rw [← t.ofName?_tag, h, u.ofName?_tag]

/-- The tag tells the mode, and whether a derivative is wanted. -/
theorem eq_of_parts {t u : Task} (hexpression : t.expression = u.expression) (hx : t.x = u.x)
    (htag : t.tag = u.tag) : t = u := by
  have hmode := mode_eq_of_tag_eq htag
  obtain ⟨expression, x, mode⟩ := t
  exact (Task.mk.injEq ..).mpr ⟨hexpression, hx, hmode⟩

/-- Fingerprint and tag make the name. -/
theorem name_eq_of_fingerprint_eq {t u : Task} (hfingerprint : t.fingerprint = u.fingerprint)
    (htag : t.tag = u.tag) : t.name = u.name := by
  rw [name, name, initial, initial, hfingerprint, mode_eq_of_tag_eq htag]

end Session.Task

end Fluxion
