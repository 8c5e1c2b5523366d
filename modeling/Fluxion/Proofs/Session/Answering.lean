import Fluxion.Proofs.Calculus.Coverage
import Fluxion.Proofs.Code.DerivativeNesting
import Fluxion.Proofs.Document.Word
import Fluxion.Proofs.Number.Nearest
import Fluxion.Proofs.Session.Closing
import Fluxion.Proofs.Session.Failure
import Fluxion.Proofs.Source.Spans
import Fluxion.Session.Request

/-!
# Requests are answered

Whatever a request holds, and whatever its session has been through, it is answered: with a
value, or with the message of the error that stopped it.  An error becomes a message unless
its grade is `unexpected`, so each stage is asked which of its errors can arise there.  Errors
of that grade are about places that no text leads to, about names that stand for nothing and
about builds that do not end.

There are two ways out.  The point of a request may be an integer that no `Float` is near
enough to, an error of that grade that does arise.  And the name of the variable is written
before errors are caught: a document that is too deep, or holds an integer of too many digits,
is no name and no reply either.  `answer_run` says that there is no other.
-/

namespace Fluxion

open Fluxion.Calculus Fluxion.Code Fluxion.Number Fluxion.Source Fluxion.Text

/-! ## Integers as points -/

namespace Document

/-- From here on integers are nearer to `2 ^ 1024` than to the largest `Float`. -/
def floatLimit : ℕ :=
  2 ^ 1024 - 2 ^ 970

theorem cast_floatLimit : (floatLimit : ℚ) = 2 ^ (1024 : ℤ) - 2 ^ (970 : ℤ) := by
  have hle : 2 ^ 970 ≤ 2 ^ 1024 := pow_le_pow_right₀ one_le_two (by decide)
  rw [floatLimit, Nat.cast_sub hle, Nat.cast_pow, Nat.cast_pow, Nat.cast_ofNat, zpow_ofNat,
    zpow_ofNat]

/-- Integers from the limit on have no `Float`, whatever their sign. -/
theorem integerToFloat_eq_error_iff {n : ℤ} {error : NumberError} :
    integerToFloat n = .error error ↔ floatLimit ≤ n.natAbs ∧ error = .tooLarge := by
  have hinfinite := isInf_nearest_iff (decide (n < 0)) n.natAbs one_pos
  rw [Nat.cast_one, div_one, ← cast_floatLimit, Nat.cast_le] at hinfinite
  rw [integerToFloat, ← hinfinite]
  split_ifs with h
  · simp [h, eq_comm]
  · simp [h]

/-- A document stands for no number because it is of the wrong kind, or no numeral, or an
integer beyond the limit. -/
theorem toFloat_error_cases {d : Document} {error : NumberError} (h : d.toFloat = .error error) :
    Session.numberGrade error = .value ∨
      ∃ n, d = .integer n ∧ floatLimit ≤ n.natAbs ∧ error = .tooLarge := by
  cases d with
  | bool value | number x => cases h
  | integer n =>
      obtain ⟨hlimit, herror⟩ := integerToFloat_eq_error_iff.mp h
      exact Or.inr ⟨n, rfl, hlimit, herror⟩
  | null | list items | record fields =>
      obtain rfl := Except.error.inj h
      exact Or.inl rfl
  | text s =>
      rw [toFloat] at h
      split at h
      · cases h
      · obtain rfl := Except.error.inj h
        exact Or.inl rfl

end Document

namespace Session

section Stages

variable [Stack] {config : Config} {table : Kernel.LinkTable} {tasks : List Task} {s : Session}
  {text x : String} {mode : Option String} {error : SessionError}

/-! ## Errors of the stages -/

omit [Stack] in
/-- The constants of a tree that was read are told apart. -/
theorem discrete_of_parse {lenient : Bool} {e : Tree} (h : parse lenient text = .ok e) :
    Discrete e :=
  discrete_of_numbers fun _ hc => ((readable_of_parse h).unsigned_of_subtree hc).number

/-- An expression that was read is not differentiated for a reason that the library names. -/
theorem derivativeGrade_of_parse {lenient : Bool} {e : Tree} {mode : Mode} {err : DerivativeError}
    (h : parse lenient text = .ok e) (hfails : Calculus.differentiate mode x e = .error err) :
    derivativeGrade err = .domain := by
  rcases faultIn_of_differentiate (readable_of_parse h).arithmetic (discrete_of_parse h) hfails with
    ⟨t, -, hfault⟩ | ⟨rfl, -⟩
  · exact hfault.derivativeGrade_eq
  · rfl

/-- Trees over the operators that have a spelling are written, or not for a reason that is
foreseen. -/
theorem emitGrade_ne_unexpected {name : String} {e : Expr Float} {err : EmitError}
    (he : e.Standard) (h : emit name x e = .error err) : emitGrade err ≠ .unexpected := by
  rw [emit] at h
  split_ifs at h with hname
  · obtain rfl := Except.error.inj h
    rintro ⟨⟩
  · dsimp only at h
    split_ifs at h with hunbound
    · obtain rfl := Except.error.inj h
      rintro ⟨⟩
    · have hphrase := eq_error_of_bind_pure h
      rcases phraseOf_cases he name Stack.writing with ⟨phrase, hok, -⟩ | hdeep
      · rw [hok] at hphrase
        cases hphrase
      · rw [hdeep] at hphrase
        obtain rfl := Except.error.inj hphrase
        rintro ⟨⟩

omit [Stack] in
theorem grade_of_derivativeTask (h : config.derivativeTask text x mode = .error error) :
    error.grade ≠ .unexpected := by
  rcases bind_eq_error.mp h with hx | ⟨_, -, h⟩
  · rw [checkVariable] at hx
    split_ifs at hx
    obtain rfl := Except.error.inj hx
    rintro ⟨⟩
  rcases bind_eq_error.mp h with hmode | ⟨_, -, h⟩
  · unfold Config.resolveMode at hmode
    split at hmode
    · cases hmode
    · split at hmode
      · cases hmode
      · obtain rfl := Except.error.inj hmode
        rintro ⟨⟩
  · have hread := eq_error_of_bind_pure h
    rw [readExpression] at hread
    split at hread
    · cases hread
    · next failure hparse =>
        obtain ⟨refusal, rfl, -⟩ := within_of_parse hparse
        obtain rfl := Except.error.inj hread
        rintro ⟨⟩

omit [Stack] in
/-- The task of a derivative has the expression that was read and a mode. -/
theorem derivativeTask_eq_ok {task : Task} (h : config.derivativeTask text x mode = .ok task) :
    ∃ e m, parse true text = .ok e ∧ task = ⟨e, x, some m⟩ := by
  obtain ⟨_, -, h⟩ := bind_eq_ok.mp h
  obtain ⟨m, -, h⟩ := bind_eq_ok.mp h
  obtain ⟨e, hread, h⟩ := bind_eq_ok.mp h
  rw [readExpression] at hread
  split at hread
  · next hparse =>
      obtain rfl := Except.ok.inj hread
      exact ⟨_, m, hparse, (Except.ok.inj h).symm⟩
  · cases hread

theorem grade_of_code {task : Task} (htask : config.derivativeTask text x mode = .ok task)
    (h : task.code = .error error) : error.grade ≠ .unexpected := by
  obtain ⟨e, m, hparse, rfl⟩ := derivativeTask_eq_ok htask
  rcases bind_eq_error.mp h with htarget | ⟨d, htarget, hemit⟩
  · rw [Task.target] at htarget
    dsimp only at htarget
    split at htarget
    · cases htarget
    · next hfails =>
        obtain rfl := Except.error.inj htarget
        rw [SessionError.grade, derivativeGrade_of_parse hparse hfails]
        rintro ⟨⟩
  · rw [Task.target] at htarget
    dsimp only at htarget
    split at htarget
    · next hderivative =>
        obtain rfl := Except.ok.inj htarget
        obtain ⟨-, hover⟩ :=
          standardOver_differentiate m (readable_of_parse hparse).arithmetic hderivative
        split at hemit
        · cases hemit
        · next hfails =>
            obtain rfl := Except.error.inj hemit
            exact emitGrade_ne_unexpected hover.standard hfails
    · cases htarget

/-- No request for a derivative fails for a reason that nobody expects. -/
theorem Traced.grade_of_differentiate (h : Traced config table tasks s)
    (hfails : (s.differentiate text x mode).2 = .error error) : error.grade ≠ .unexpected := by
  have hserve : (Request.serve s (.derivative text x mode)).2 = .error error := hfails
  rcases h.failed_cases hserve with
    ⟨htask, -⟩ | ⟨task, htask, hcode, -⟩ | ⟨task, code, cause, -, -, -, rfl, -⟩
  · exact grade_of_derivativeTask htask
  · exact grade_of_code htask hcode
  · rintro ⟨⟩

end Stages

/-! ## Replies -/

section Replies

variable {error : SessionError}

/-- The outcome makes a reply. -/
def Told (outcome : Except SessionError Quantity) : Prop :=
  ∃ reply, replyOf outcome = .ok reply

theorem told_ok (q : Quantity) : Told (.ok q) :=
  ⟨_, rfl⟩

theorem told_error (h : error.grade ≠ .unexpected) : Told (.error error) := by
  rw [Told, replyOf]
  cases hgrade : error.grade with
  | domain | value => exact ⟨_, rfl⟩
  | unexpected => exact absurd hgrade h

end Replies

section Queries

variable [Stack] [Machine]

/-- An evaluation of an open session is a value or the failure of a machine, or the name is not
known. -/
theorem Traced.told_evaluate {config : Config} {table : Kernel.LinkTable} {tasks : List Task}
    {s : Session} (h : Traced config table tasks s) (name : String) (q : Quantity) :
    Told (s.evaluate name q).2 := by
  cases h.evaluated name q with
  | missing hanswer _ =>
      rw [hanswer]
      exact told_error (by rintro ⟨⟩)
  | found _ entry _ _ _ hanswer _ =>
      rw [hanswer, runOutcome]
      split
      · exact told_ok _
      · exact told_error (by rintro ⟨⟩)

def Query.call (query : Query) : Call :=
  .differentiate query.text query.x (query.mode.map Mode.name)

/-- A query is a request for a function and an evaluation, if the request succeeds. -/
theorem answerQuery_cases (s : Session) (query : Query) :
    (∃ error, (s.differentiate query.text query.x (query.mode.map Mode.name)).2 = .error error ∧
        s.answerQuery query = (run [query.call] s, .error error)) ∨
      ∃ name q, s.answerQuery query = (run [query.call] s).evaluate name q := by
  rw [answerQuery]
  have hrun : run [query.call] s =
      (s.differentiate query.text query.x (query.mode.map Mode.name)).1 := rfl
  rw [hrun]
  cases s.differentiate query.text query.x (query.mode.map Mode.name) with
  | mk next outcome =>
      cases outcome with
      | error error => exact Or.inl ⟨error, rfl, rfl⟩
      | ok handle => exact Or.inr ⟨handle.name, _, rfl⟩

theorem run_append (calls later : List Call) (s : Session) :
    run (calls ++ later) s = run later (run calls s) :=
  List.foldl_append

/-- What a query does to a session, a run does. -/
theorem exists_run_of_answerQuery (s : Session) (query : Query) :
    ∃ later, (s.answerQuery query).1 = run later s := by
  rcases answerQuery_cases s query with ⟨error, -, heq⟩ | ⟨name, q, heq⟩
  · exact ⟨[query.call], by rw [heq]⟩
  · exact ⟨[query.call] ++ [.evaluate name q], by rw [heq, run_append]; rfl⟩

/-- A query of any session that calls lead to makes a reply. -/
theorem told_answerQuery (config : Config) (symbols : Kernel.LinkTable) (calls : List Call)
    (query : Query) : Told ((run calls (newWith config symbols)).answerQuery query).2 := by
  rcases answerQuery_cases (run calls (newWith config symbols)) query with
    ⟨error, hfails, heq⟩ | ⟨name, q, heq⟩
  · rw [heq]
    cases hclosed : (run calls (newWith config symbols)).closed with
    | true =>
        rw [differentiate_of_closed hclosed] at hfails
        obtain rfl := Except.error.inj hfails
        exact told_error (by rintro ⟨⟩)
    | false => exact told_error ((traced_of_open hclosed).grade_of_differentiate hfails)
  · rw [heq, ← run_append]
    cases hclosed : (run (calls ++ [query.call]) (newWith config symbols)).closed with
    | true =>
        rw [evaluate_of_closed hclosed]
        exact told_error (by rintro ⟨⟩)
    | false => exact (traced_of_open hclosed).told_evaluate name q

end Queries

/-! ## Reading a request -/

/-- The point of a request is an integer beyond the limit. -/
def Oversized (fields : List (String × Document)) : Prop :=
  ∃ n, Document.field? fields "x" = some (.integer n) ∧ Document.floatLimit ≤ n.natAbs

/-- The name of the variable in a request is a document that cannot be written. -/
def Nameless [Stack] (fields : List (String × Document)) : Prop :=
  ∃ d, Document.field? fields "variable" = some d ∧ d.Unprintable

section Fields

variable {fields : List (String × Document)} {text x : String} {error : SessionError}

/-- The only error about a point that nobody expects is about an integer beyond the limit. -/
theorem requestedPoint_error_cases
    (h : requestedPoint (Document.field? fields "x") = .error error) :
    error.grade ≠ .unexpected ∨ Oversized fields := by
  unfold requestedPoint at h
  split at h
  · cases h
  · next d hfield =>
      split at h
      · cases h
      · next err hnumber =>
          obtain rfl := Except.error.inj h
          rcases Document.toFloat_error_cases hnumber with hgrade | ⟨n, rfl, hlimit, -⟩
          · exact Or.inl (by rw [SessionError.grade, hgrade]; rintro ⟨⟩)
          · exact Or.inr ⟨n, hfield, hlimit⟩

theorem exists_requestedVariable_eq_error_iff [Stack] :
    (∃ e, requestedVariable (Document.field? fields "variable") = .error e) ↔ Nameless fields := by
  cases hfield : Document.field? fields "variable" with
  | none => simp [requestedVariable, Nameless, hfield]
  | some d => simp [requestedVariable, Nameless, hfield, Document.exists_word_eq_error_iff]

theorem grade_of_requestedMode [Stack] {d : Option Document} (h : requestedMode d = .error error) :
    error.grade ≠ .unexpected := by
  unfold requestedMode at h
  split at h
  · cases h
  · cases h
  · split at h
    · obtain rfl := Except.error.inj h
      rintro ⟨⟩
    · split at h
      · cases h
      · obtain rfl := Except.error.inj h
        rintro ⟨⟩

theorem ofFields_error_cases [Stack] (h : Query.ofFields fields text x = .error error) :
    error.grade ≠ .unexpected ∨ Oversized fields := by
  rcases bind_eq_error.mp h with hpoint | ⟨_, -, h⟩
  · exact requestedPoint_error_cases hpoint
  · exact Or.inl (grade_of_requestedMode (eq_error_of_bind_pure h))

/-- The point is read first, so nothing else that is wrong with the request is found. -/
theorem ofFields_of_oversized [Stack] (h : Oversized fields) (text x : String) :
    Query.ofFields fields text x = .error (.argument .tooLarge) := by
  obtain ⟨n, hfield, hlimit⟩ := h
  have hpoint : requestedPoint (Document.field? fields "x") = .error (.argument .tooLarge) := by
    rw [hfield, requestedPoint, Document.toFloat,
      Document.integerToFloat_eq_error_iff.mpr ⟨hlimit, rfl⟩]
  rw [Query.ofFields, hpoint]
  rfl

end Fields

/-! ## Answers -/

/-- The request has an expression, and the name of its variable cannot be written or its point
is an integer beyond the limit. -/
def Escapes [Stack] (fields : List (String × Document)) : Prop :=
  (∃ text, Document.field? fields "expression" = some (.text text)) ∧
    (Nameless fields ∨ Oversized fields)

section Answers

variable [Stack] [Machine] {fields : List (String × Document)}

/-- A request without an expression is refused.  Of any other one the variable is read first,
and then the rest. -/
theorem answer_cases (s : Session) (fields : List (String × Document)) :
    ((∀ text, Document.field? fields "expression" ≠ some (.text text)) ∧
        answer s fields = (s, .ok (.refused missingExpressionMessage))) ∨
      ∃ text, Document.field? fields "expression" = some (.text text) ∧
        ((∃ e, requestedVariable (Document.field? fields "variable") = .error e ∧
            answer s fields = (s, .error (.unwritten e))) ∨
          ∃ x, requestedVariable (Document.field? fields "variable") = .ok x ∧
            ((∃ error, Query.ofFields fields text x = .error error ∧
                answer s fields = (s, replyOf (.error error))) ∨
              ∃ query, Query.ofFields fields text x = .ok query ∧
                answer s fields = ((s.answerQuery query).1, replyOf (s.answerQuery query).2))) := by
  unfold answer
  split
  · next text htext =>
      refine Or.inr ⟨text, htext, ?_⟩
      split
      · next e hvariable => exact Or.inl ⟨e, hvariable, rfl⟩
      · next x hvariable =>
          refine Or.inr ⟨x, hvariable, ?_⟩
          split
          · next error hquery => exact Or.inl ⟨error, hquery, rfl⟩
          · next query hquery => exact Or.inr ⟨query, hquery, rfl⟩
  · next hother => exact Or.inl ⟨hother, rfl⟩

/-- What a request does to a session, a run does. -/
theorem exists_run_of_answer (s : Session) (fields : List (String × Document)) :
    ∃ later, (answer s fields).1 = run later s := by
  rcases answer_cases s fields with
    ⟨-, heq⟩ | ⟨text, -, ⟨e, -, heq⟩ | ⟨x, -, ⟨error, -, heq⟩ | ⟨query, -, heq⟩⟩⟩
  · exact ⟨[], by rw [heq]; rfl⟩
  · exact ⟨[], by rw [heq]; rfl⟩
  · exact ⟨[], by rw [heq]; rfl⟩
  · rw [heq]
    exact exists_run_of_answerQuery s query

/-- The error that escapes is about the name of the variable, and about the point if there is a
name. -/
theorem answer_of_escapes (h : Escapes fields) (s : Session) :
    (Nameless fields ∧ ∃ e, answer s fields = (s, .error (.unwritten e))) ∨
      ¬ Nameless fields ∧ answer s fields = (s, .error (.argument .tooLarge)) := by
  obtain ⟨⟨text, htext⟩, hescapes⟩ := h
  have hnameless : (∃ e, requestedVariable (Document.field? fields "variable") = .error e) ↔
      Nameless fields := exists_requestedVariable_eq_error_iff
  cases hvariable : requestedVariable (Document.field? fields "variable") with
  | error e =>
      refine Or.inl ⟨hnameless.mp ⟨e, hvariable⟩, e, ?_⟩
      simp only [answer, htext, hvariable]
  | ok x =>
      have hname : ¬ Nameless fields := fun hn => by
        obtain ⟨e, he⟩ := hnameless.mpr hn
        rw [hvariable] at he
        cases he
      refine Or.inr ⟨hname, ?_⟩
      simp only [answer, htext, hvariable, ofFields_of_oversized (hescapes.resolve_left hname),
        replyOf, SessionError.grade, numberGrade]

/-- Any other request is answered, whatever calls came before it. -/
theorem exists_reply_of_answer (config : Config) (symbols : Kernel.LinkTable)
    (calls : List Call) (h : ¬ Escapes fields) :
    ∃ reply, (answer (run calls (newWith config symbols)) fields).2 = .ok reply := by
  rcases answer_cases (run calls (newWith config symbols)) fields with
    ⟨-, heq⟩ | ⟨text, htext, ⟨e, hvariable, -⟩ | ⟨x, -, ⟨error, hquery, heq⟩ | ⟨query, -, heq⟩⟩⟩
  · exact ⟨_, by rw [heq]⟩
  · have hnameless := exists_requestedVariable_eq_error_iff.mp ⟨e, hvariable⟩
    exact absurd ⟨⟨text, htext⟩, Or.inl hnameless⟩ h
  · rw [heq]
    rcases ofFields_error_cases hquery with hgrade | hover
    · exact told_error hgrade
    · exact absurd ⟨⟨text, htext⟩, Or.inr hover⟩ h
  · rw [heq]
    exact told_answerQuery config symbols calls query

/-- A session that any calls have led to, open or closed, answers every request with a value or
with the message of an error, with two exceptions.  A request with an expression whose variable
is no text, and too deep to be written or with an integer of too many digits inside, ends in the
error about this, which is passed on.  So does one whose point is an integer beyond the limit.
Both leave the session alone.  What any other request does to the session, calls can do, so the
next request is answered as well. -/
theorem answer_run (config : Config) (symbols : Kernel.LinkTable) (calls : List Call)
    (fields : List (String × Document)) :
    let s := run calls (newWith config symbols)
    ((∃ reply, (answer s fields).2 = .ok reply) ↔ ¬ Escapes fields) ∧
      (Escapes fields →
        (Nameless fields ∧ ∃ e, answer s fields = (s, .error (.unwritten e))) ∨
          ¬ Nameless fields ∧ answer s fields = (s, .error (.argument .tooLarge))) ∧
      ∃ later, (answer s fields).1 = run (calls ++ later) (newWith config symbols) := by
  intro s
  refine ⟨⟨fun ⟨reply, hreply⟩ hescapes => ?_, exists_reply_of_answer config symbols calls⟩,
    fun h => answer_of_escapes h s, ?_⟩
  · rcases answer_of_escapes hescapes s with ⟨-, e, heq⟩ | ⟨-, heq⟩
    · rw [heq] at hreply
      cases hreply
    · rw [heq] at hreply
      cases hreply
  · obtain ⟨later, hlater⟩ := exists_run_of_answer s fields
    exact ⟨later, by rw [hlater, run_append]⟩

end Answers

/-- A request with a mode that is none, of a session that was closed before. -/
theorem answer_run_sideways :
    let fields := [("expression", .text "x*x"), ("mode", .text "sideways"), ("x", .integer 3)]
    ¬ Escapes fields ∧
      ∃ reply, (answer (run [.close] (newWith Config.default [])) fields).2 = .ok reply := by
  intro fields
  have hescapes : ¬ Escapes fields := by
    rintro ⟨-, ⟨d, hfield, -⟩ | ⟨n, hfield, hlimit⟩⟩
    · cases hfield
    · obtain rfl : 3 = n := Document.integer.inj (Option.some.inj hfield)
      exact absurd hlimit (by decide +kernel)
  exact ⟨hescapes, (answer_run Config.default [] [.close] fields).1.mpr hescapes⟩

/-- The point `10 ^ 309` gets no reply. -/
theorem not_answer_of_largePoint :
    ¬ ∃ reply, (answer (new Config.default)
      [("expression", .text "x"), ("x", .integer (10 ^ 309))]).2 = .ok reply := by
  have hescapes : Escapes [("expression", .text "x"), ("x", .integer (10 ^ 309))] :=
    ⟨⟨"x", rfl⟩, Or.inr ⟨_, rfl, by decide +kernel⟩⟩
  rintro ⟨reply, hreply⟩
  rcases answer_of_escapes hescapes (new Config.default) with ⟨-, e, heq⟩ | ⟨-, heq⟩
  · rw [heq] at hreply
    cases hreply
  · rw [heq] at hreply
    cases hreply

end Session

end Fluxion
