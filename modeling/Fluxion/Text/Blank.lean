import Fluxion.Text.Ranges

/-!
# Blanks

Two sets of blanks matter.

* `isBlank` is the wide one: it decides whether a text is empty and what is
  stripped around settings and numbers.
* `isSpacing` is the narrow one: the six characters that may stand between the
  tokens of an expression.
-/

namespace Fluxion.Text

/-- The Unicode blanks, with the four separators below the space. -/
def blanks : Ranges := [
    (0x09, 0x0d), (0x1c, 0x20), (0x85, 0x85), (0xa0, 0xa0), (0x1680, 0x1680), (0x2000, 0x200a),
    (0x2028, 0x2029), (0x202f, 0x202f), (0x205f, 0x205f), (0x3000, 0x3000)]

/-- A blank in the wide sense. -/
def isBlank (c : Char) : Bool :=
  blanks.has c

/-- A character that separates tokens and is otherwise ignored. -/
def isSpacing (c : Char) : Bool :=
  c == ' ' || c == '\t' || c == '\n' || c == '\r' || c == '\x0c' || c == '\x0b'

def allBlank (cs : List Char) : Bool :=
  cs.all isBlank

def stripChars (cs : List Char) : List Char :=
  ((cs.dropWhile isBlank).reverse.dropWhile isBlank).reverse

def strip (s : String) : String :=
  String.ofList (stripChars s.toList)

theorem stripChars_eq_nil_of_allBlank {cs : List Char} (h : allBlank cs = true) :
    stripChars cs = [] := by
  have hdrop : cs.dropWhile isBlank = [] := by
    induction cs with
    | nil => rfl
    | cons c cs ih => simp_all [allBlank, List.dropWhile]
  simp [stripChars, hdrop]

end Fluxion.Text
