import Fluxion.Proofs.Code.Emission

/-!
# Written functions are modules of one definition

The text of a function has a header that becomes the same lexemes for every name, and a
body that is read as the term that it spells.  So the module that `emit` writes defines
the function and nothing else.
-/

namespace Fluxion.Code

open Fluxion.Text

variable {name : String} {body : List Char} {ls : List Lexeme} {t : Term}

/-! ## Steps of the lexer through a header -/

theorem lexemesFrom_name (hname : isIdentifier name = true) (opened : Nat) {rest : List Char}
    (hrest : Separated rest) :
    lexemesFrom false 0 opened (name.toList ++ rest) =
      (lexemesFrom false 0 opened rest).map (.name name :: ·) := by
  obtain ⟨c, cs, hchars, hc, hscan⟩ := scanLexeme_name hname
  rw [hchars, List.cons_append, lexemesFrom_scan 0 opened hc (hscan rest hrest)]
  rfl

/-- A line that starts with a name. -/
theorem lexemesFrom_start_name (hname : isIdentifier name = true) (indent opened : Nat)
    {rest : List Char} (hrest : Separated rest) :
    lexemesFrom true indent opened (name.toList ++ rest) =
      (lexemesFrom false 0 opened rest).map ([.line indent, .name name] ++ ·) := by
  have hname := lexemesFrom_name hname opened hrest
  obtain ⟨c, cs, hchars, hc, -⟩ := scanLexeme_name ‹_›
  rw [hchars, List.cons_append] at hname ⊢
  rw [lexemesFrom_start indent opened _ hc, hname, Option.map_map]
  rfl

theorem lexemesFrom_punctuation {c : Char} (hc : isPunctuation c = true) (opened : Nat)
    (rest : List Char) :
    lexemesFrom false 0 opened (c :: rest) =
      (lexemesFrom false 0 (openAfter opened (.punctuation c)) rest).map
        (.punctuation c :: ·) :=
  lexemesFrom_scan 0 opened (startsLexeme_of_isPunctuation hc) (by simp [scanLexeme, hc])

theorem lexemesFrom_space (opened : Nat) (rest : List Char) :
    lexemesFrom false 0 opened (' ' :: rest) = lexemesFrom false 0 opened rest := by
  rw [lexemesFrom_blank, lexemesFrom_indent]

/-! ## The text of a function -/

def headerLexemes (name : String) : List Lexeme :=
  [.line 0, .name "def", .name name, .punctuation '(', .name argumentName, .punctuation ')',
    .punctuation ':', .line 4, .name "return"]

def bodyLine (body : List Char) : List Char :=
  ' ' :: ' ' :: ' ' :: ' ' :: ("return".toList ++ ' ' :: (body ++ ['\n']))

theorem toList_functionText (name : String) (body : List Char) :
    (functionText name body).toList =
      "def".toList ++ ' ' :: (name.toList ++ '(' :: (argumentName.toList ++ ')' :: ':' :: '\n' ::
        bodyLine body)) := by
  simp [functionText, bodyLine]

theorem lexemesFrom_bodyLine (hlexes : LexesTo body ls) :
    lexemesFrom true 0 0 (bodyLine body) = some ([.line 4, .name "return"] ++ ls) := by
  have hreturn : isIdentifier "return" = true := by decide
  have hspace (rest : List Char) : Separated (' ' :: rest) := Or.inl rfl
  obtain ⟨opened, hbody⟩ := hlexes 0 ['\n'] (Or.inr (Or.inl rfl))
  have hend : lexemesFrom false 0 opened ['\n'] = some [] := by
    rw [lexemesFrom, if_pos (beq_self_eq_true _), lexemesFrom]
  rw [bodyLine, lexemesFrom_blank, lexemesFrom_blank, lexemesFrom_blank, lexemesFrom_blank,
    lexemesFrom_start_name hreturn _ _ (hspace _), lexemesFrom_space, hbody, hend]
  simp

/-- A function becomes the lexemes of its header and those of its body. -/
theorem lexemes_functionText (hname : isIdentifier name = true) (hlexes : LexesTo body ls) :
    lexemes (functionText name body) = some (headerLexemes name ++ ls) := by
  have hdef : isIdentifier "def" = true := by decide
  have hargument : isIdentifier argumentName = true := by decide
  have hspace (rest : List Char) : Separated (' ' :: rest) := Or.inl rfl
  have hopen (rest : List Char) : Separated ('(' :: rest) := by simp [Separated]
  have hclose (rest : List Char) : Separated (')' :: rest) := by simp [Separated]
  have hopened : openAfter (openAfter (openAfter 0 (.punctuation '(')) (.punctuation ')'))
      (.punctuation ':') = 0 := rfl
  rw [lexemes, toList_functionText, lexemesFrom_start_name hdef _ _ (hspace _),
    lexemesFrom_space, lexemesFrom_name hname _ (hopen _), lexemesFrom_punctuation rfl,
    lexemesFrom_name hargument _ (hclose _),
    lexemesFrom_punctuation rfl, lexemesFrom_punctuation rfl, hopened, lexemesFrom_newline,
    lexemesFrom_bodyLine hlexes]
  rfl

/-- The text of a function is a module that defines the function and nothing else. -/
theorem readModule_functionText (hname : isIdentifier name = true)
    (hfree : isFreeName name = true) {strength : Nat} (hspells : Spells strength body t)
    (hparens : parenDepth body ≤ maxParens) :
    readModule (functionText name body) = some [.define name argumentName t] := by
  obtain ⟨depth, ls, hspelling⟩ := hspells
  have hterm : term ls = some (t, []) := hspelling.termWithin_eq hparens
  have hargument : isFreeName argumentName = true := by decide
  rw [readModule, lexemes_functionText hname hspelling.lexes]
  simp [headerLexemes, statementsFrom, statement, hfree, hargument, functionBody, hterm]

end Fluxion.Code
