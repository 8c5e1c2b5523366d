import Fluxion.Proofs.Source.Strictness
import Fluxion.Proofs.Source.Wrapping
import Fluxion.Session.Basic

/-!
# One function for all spellings

A task is made from the tree of a text and not from the text.  So texts that are read as the
same tree make the same tasks, whose functions have one text, one name and one fingerprint.

Such texts are those whose tokens have the same contents, whichever blanks stand between them
and whichever spellings their operators have, and those with more parentheses than needed.
-/

namespace Fluxion.Session

open Fluxion.Source

/-- The second text is read as the tree, and no request for its functions tells it from the
first one.  The tasks for values are made by the strict parser. -/
structure SameFunction (lenient : Bool) (e : Tree) (text text' : String) : Prop where
  parse : Source.parse lenient text' = .ok e
  derivative : ∀ (config : Config) (x : String) (mode : Option String),
    config.derivativeTask text' x mode = config.derivativeTask text x mode
  fingerprint : ∀ (s : Session) (x : String) (mode : Option String),
    s.fingerprint text' x mode = s.fingerprint text x mode
  value : lenient = false → ∀ x, valueTask text' x = valueTask text x

/-- The two texts are for the same function, unless the second one nests too deeply. -/
def SameFunctionUnlessTooDeep (lenient : Bool) (e : Tree) (text text' : String) : Prop :=
  SameFunction lenient e text text' ∨
    ∃ error, Source.parse lenient text' = .error (.rejected error) ∧
      error.cause.kind = .nestingTooDeep

section Texts

variable {lenient : Bool} {text text' : String} {e : Tree}

theorem readExpression_of_parse (h : Source.parse lenient text = .ok e) :
    readExpression lenient text = .ok e := by
  rw [readExpression, h]

/-- Texts that are read as one tree are for the same functions. -/
theorem sameFunction_of_parse (h : Source.parse lenient text = .ok e)
    (h' : Source.parse lenient text' = .ok e) : SameFunction lenient e text text' := by
  have hread : readExpression true text' = readExpression true text := by
    rw [readExpression_of_parse (parse_carryOver h (callsCarryOver_true _ _)),
      readExpression_of_parse (parse_carryOver h' (callsCarryOver_true _ _))]
  refine ⟨h', fun config x mode => ?_, fun s x mode => ?_, fun hstrict x => ?_⟩
  · rw [Config.derivativeTask, Config.derivativeTask, hread]
  · rw [fingerprint, fingerprint, hread]
  · subst hstrict
    rw [valueTask, valueTask, readExpression_of_parse h, readExpression_of_parse h']

theorem sameFunctionUnlessTooDeep_of_read (h : Source.parse lenient text = .ok e)
    (h' : ReadUnlessTooDeep lenient text' e) : SameFunctionUnlessTooDeep lenient e text text' :=
  h'.imp_left (sameFunction_of_parse h)

end Texts

/-- Neither spacing nor spare parentheses make another function.  Every text whose tokens have
the same contents is for the same function, and the texts of the tokens with blanks between
them make such a text.  So is the text in parentheses, and the text with parentheses around
what some call of the reader of primaries took, unless it nests too deeply. -/
theorem same_function_of_respelling {lenient : Bool} {text : String} {e : Tree}
    {tokens : List Token} (h : Source.parse lenient text = .ok e)
    (htokens : tokenize text = .ok tokens) :
    (∀ text' tokens', tokenize text' = .ok tokens' → contents tokens' = contents tokens →
      SameFunction lenient e text text') ∧
    (∃ tokens', tokenize (spaced tokens.dropLast) = .ok tokens' ∧
      contents tokens' = contents tokens) ∧
    SameFunctionUnlessTooDeep lenient e text (wrap text 0 text.toList.length) ∧
    ∀ left groups ts, Called lenient tokens .primary left groups ts →
      ∃ value us rest first last,
        primary lenient (operand lenient left) groups ts = .ok (value, rest) ∧ ts = us ++ rest ∧
        us.head? = some first ∧ us.getLast? = some last ∧
        SameFunctionUnlessTooDeep lenient e text (wrap text first.start last.stop) := by
  refine ⟨fun text' tokens' htokens' hcontents => ?_, ?_, ?_, fun left groups ts hcalled => ?_⟩
  · exact sameFunction_of_parse h (parse_of_contents h htokens htokens' hcontents)
  · obtain ⟨body, rfl, -, -⟩ := layout_of_tokenize htokens
    rw [List.dropLast_concat]
    exact tokenize_spaced htokens
  · exact sameFunctionUnlessTooDeep_of_read h (parse_wrap_whole h)
  · obtain ⟨value, us, rest, first, last, hread, hts, hfirst, hlast, hwrap⟩ :=
      parse_wrap_primary h htokens hcalled
    exact ⟨value, us, rest, first, last, hread, hts, hfirst, hlast,
      sameFunctionUnlessTooDeep_of_read h hwrap⟩

def squareTokens : List Token :=
  [⟨.name, "x", 0, 1⟩, ⟨.star, "*", 1, 2⟩, ⟨.name, "x", 2, 3⟩, endMark 3]

/-- Another sign and blanks, and parentheses around the second factor. -/
theorem same_function_of_respelling_square :
    Source.parse true "x*x" = .ok (.binary .mul (.var "x") (.var "x")) ∧
      tokenize "x*x" = .ok squareTokens ∧
      SameFunction true (.binary .mul (.var "x") (.var "x")) "x*x" " x × x" ∧
      Called true squareTokens .primary 63 0 (squareTokens.drop 2) ∧
      SameFunctionUnlessTooDeep true (.binary .mul (.var "x") (.var "x")) "x*x" "x*(x)" := by
  have hparse : Source.parse true "x*x" = .ok (.binary .mul (.var "x") (.var "x")) := by
    with_unfolding_all rfl
  have htokens : tokenize "x*x" = .ok squareTokens := by cbv
  obtain ⟨hsame, -, -, hwrap⟩ := same_function_of_respelling hparse htokens
  have htokens' : tokenize " x × x" =
      .ok [⟨.name, "x", 1, 2⟩, ⟨.star, "*", 3, 4⟩, ⟨.name, "x", 5, 6⟩, endMark 6] := by cbv
  have hfirst : operand true maxNesting 0 squareTokens =
      .ok (.var "x", ⟨.star, "*", 1, 2⟩ :: squareTokens.drop 2) := by rfl
  have hcalled : Called true squareTokens .primary 63 0 (squareTokens.drop 2) :=
    .primary (.operand (.nextFactor (.factor (.product .start)) hfirst rfl)) (by decide)
  obtain ⟨value, us, rest, first, last, hread, hts, hus, hlast, hdeep⟩ := hwrap _ _ _ hcalled
  have hread' : primary true (operand true 63) 0 (squareTokens.drop 2) =
      .ok (.var "x", [endMark 3]) := by rfl
  obtain ⟨rfl, rfl⟩ := Prod.mk.inj (Except.ok.inj (hread'.symm.trans hread))
  obtain rfl : [⟨.name, "x", 2, 3⟩] = us := List.append_cancel_right hts
  obtain rfl := Option.some.inj hus
  obtain rfl := Option.some.inj hlast
  have hwrapped : wrap "x*x" 2 3 = "x*(x)" := by rfl
  exact ⟨hparse, htokens, hsame _ _ htokens' rfl, hcalled, hwrapped ▸ hdeep⟩

end Fluxion.Session
