import Mathlib.Tactic.Common

/-!
# Nesting of parentheses

The depth of a text is the largest number of parentheses that are open at once.  A
balanced text has its depth wherever it stands, and leaves as many parentheses open as
it found.
-/

namespace Fluxion.Code

/-- The number of open parentheses behind a character. -/
def opensAfter (opened : Nat) (c : Char) : Nat :=
  if c = '(' then opened + 1 else if c = ')' then opened - 1 else opened

/-- The largest number of open parentheses in a text in front of which some are open. -/
def parenDepthFrom (opened : Nat) : List Char → Nat
  | [] => opened
  | c :: cs => max opened (parenDepthFrom (opensAfter opened c) cs)

def parenDepth (cs : List Char) : Nat :=
  parenDepthFrom 0 cs

theorem le_parenDepthFrom (opened : Nat) (cs : List Char) : opened ≤ parenDepthFrom opened cs := by
  cases cs with
  | nil => exact Nat.le_refl opened
  | cons c cs => exact Nat.le_max_left _ _

/-- The text nests `depth` deep and closes what it opens. -/
def Balanced (depth : Nat) (cs : List Char) : Prop :=
  ∀ opened rest, parenDepthFrom opened (cs ++ rest) =
    max (opened + depth) (parenDepthFrom opened rest)

/-- A balanced text nests as deep as it says. -/
theorem Balanced.parenDepth_eq {depth : Nat} {cs : List Char} (h : Balanced depth cs) :
    parenDepth cs = depth := by
  have hnil := h 0 []
  rw [List.append_nil] at hnil
  rw [parenDepth, hnil, parenDepthFrom]
  omega

theorem balanced_nil : Balanced 0 [] := by
  intro opened rest
  have := le_parenDepthFrom opened rest
  simp only [List.nil_append]
  omega

/-- Texts that stand side by side nest as deep as the deeper one. -/
theorem Balanced.append {depth depth' : Nat} {cs cs' : List Char} (h : Balanced depth cs)
    (h' : Balanced depth' cs') : Balanced (max depth depth') (cs ++ cs') := by
  intro opened rest
  rw [List.append_assoc, h, h']
  omega

theorem Balanced.cons {depth : Nat} {c : Char} {cs : List Char} (h : Balanced depth cs)
    (hopen : c ≠ '(') (hclose : c ≠ ')') : Balanced depth (c :: cs) := by
  intro opened rest
  have hc : opensAfter opened c = opened := by simp [opensAfter, hopen, hclose]
  rw [List.cons_append, parenDepthFrom, hc, h]
  omega

theorem balanced_of_plain {cs : List Char} (h : ∀ c ∈ cs, c ≠ '(' ∧ c ≠ ')') :
    Balanced 0 cs := by
  induction cs with
  | nil => exact balanced_nil
  | cons c cs ih =>
      obtain ⟨hopen, hclose⟩ := h c List.mem_cons_self
      exact (ih fun d hd => h d (List.mem_cons_of_mem c hd)).cons hopen hclose

/-- A pair of parentheses adds one level. -/
theorem Balanced.group {depth : Nat} {cs : List Char} (h : Balanced depth cs) :
    Balanced (depth + 1) ('(' :: (cs ++ [')'])) := by
  intro opened rest
  have hinner : parenDepthFrom (opened + 1) (cs ++ ')' :: rest) =
      max (opened + 1 + depth) (max (opened + 1) (parenDepthFrom opened rest)) := h (opened + 1) _
  have hgroup : '(' :: (cs ++ [')']) ++ rest = '(' :: (cs ++ ')' :: rest) := by simp
  calc
    parenDepthFrom opened ('(' :: (cs ++ [')']) ++ rest)
      = max opened (parenDepthFrom (opened + 1) (cs ++ ')' :: rest)) := by rw [hgroup]; rfl
    _ = max (opened + (depth + 1)) (parenDepthFrom opened rest) := by rw [hinner]; omega

end Fluxion.Code
