import Fluxion.Session.Basic

/-!
# Requests

A request is a record of unknown shape that asks for the value of a derivative
at a point. What it holds is read as what it should be wherever that is
possible: nearly all documents stand for some text, and many stand for numbers.

The reply says what is wrong with a request instead of failing, with two exceptions: the
name of the variable is written before errors are caught, and an error may be of a
grade that nobody expects.
-/

namespace Fluxion.Session

open Fluxion.Calculus Fluxion.Number

inductive Reply where
  | value (value error : Float)
  | refused (message : String)

structure Query where
  text : String
  x : String
  mode : Option Mode
  point : Float

def defaultPoint : Float := 1.0

def defaultVariable : String := "x"

def requestedVariable [Stack] : Option Document → Except Document.WordError String
  | none => .ok defaultVariable
  | some d => d.word

def requestedMode [Stack] : Option Document → Except SessionError (Option Mode)
  | none => .ok none
  | some .null => .ok none
  | some d =>
      match d.word with
      | .error e => .error (.unwritten e)
      | .ok name =>
          match Mode.ofName? name with
          | some mode => .ok (some mode)
          | none => .error (.unknownMode name)

def requestedPoint : Option Document → Except SessionError Float
  | none => .ok defaultPoint
  | some d =>
      match d.toFloat with
      | .ok x => .ok x
      | .error e => .error (.argument e)

/-- The query in a request about the expression in `text` with the variable `x`. The point is
looked at before the mode. -/
def Query.ofFields [Stack] (fields : List (String × Document)) (text x : String) :
    Except SessionError Query := do
  let point ← requestedPoint (Document.field? fields "x")
  let mode ← requestedMode (Document.field? fields "mode")
  return ⟨text, x, mode, point⟩

def answerQuery [Stack] [Machine] (s : Session) (query : Query) :
    Session × Except SessionError Quantity :=
  match s.differentiate query.text query.x (query.mode.map Mode.name) with
  | (s, .ok handle) => s.evaluate handle.name (.fast query.point 0.0)
  | (s, .error e) => (s, .error e)

/-- The reply for a result. An error that nobody expects is no reply. -/
def replyOf : Except SessionError Quantity → Except SessionError Reply
  | .ok value => .ok (.value value.toFloat value.error)
  | .error e =>
      match e.grade with
      | .domain => .ok (.refused e.message)
      | .value => .ok (.refused e.message)
      | .unexpected => .error e

def missingExpressionMessage : String :=
  "request must carry an 'expression' string"

def answer [Stack] [Machine] (s : Session) (fields : List (String × Document)) :
    Session × Except SessionError Reply :=
  match Document.field? fields "expression" with
  | some (.text text) =>
      match requestedVariable (Document.field? fields "variable") with
      -- no reply is made of this error, whatever its grade
      | .error e => (s, .error (.unwritten e))
      | .ok x =>
          match Query.ofFields fields text x with
          | .error e => (s, replyOf (.error e))
          | .ok query =>
              let (s, result) := s.answerQuery query
              (s, replyOf result)
  | _ => (s, .ok (.refused missingExpressionMessage))

end Fluxion.Session
