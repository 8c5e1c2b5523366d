import Fluxion.Decimal.Layout
import Fluxion.Decimal.Reading
import Fluxion.Stack
import Fluxion.Text.Quoted

/-!
# Documents

A document is a value of unknown shape, such as a request or a report. What a
request holds may be of the wrong kind, so a document can be read as a text and
as a number whatever it is.

* `Document.word` is the text that stands for a document, which may be too deep or hold an
  integer that is too long to be written.
* `Document.toFloat` is the number that it stands for, if it does.
-/

namespace Fluxion

open Fluxion.Decimal Fluxion.Number Fluxion.Text

/-- A value of unknown shape. The fields of a record are in order. -/
inductive Document where
  | null
  | bool (value : Bool)
  | integer (value : Int)
  | number (value : Float)
  | text (value : String)
  | list (items : List Document)
  | record (fields : List (String × Document))
deriving Inhabited

namespace Document

def field? (fields : List (String × Document)) (name : String) : Option Document :=
  fields.lookup name

inductive WordError where
  | tooManyDigits
  | tooDeep
deriving DecidableEq, Repr

def WordError.message : WordError → String
  | .tooManyDigits =>
      "Exceeds the limit (" ++ natText maxIntegerDigits ++ " digits) for integer string " ++
        "conversion; use sys.set_int_max_str_digits() to increase the limit"
  | .tooDeep => "maximum recursion depth exceeded while getting the repr of an object"

/-- The digits of an integer with its sign. There is a limit to what is written, as there is
to what is read. -/
def integerWord (n : Int) : Except WordError (List Char) :=
  if maxIntegerDigits < digitCount n.natAbs then .error .tooManyDigits
  else .ok (intText n).toList

mutual
/-- The text of a document inside another one, where texts are quoted. There is room for so
many levels. -/
def inner : Nat → Document → Except WordError (List Char)
  | 0, _ => .error .tooDeep
  | _ + 1, .null => .ok "None".toList
  | _ + 1, .bool true => .ok "True".toList
  | _ + 1, .bool false => .ok "False".toList
  | _ + 1, .integer n => integerWord n
  | _ + 1, .number x => .ok (floatChars x)
  | _ + 1, .text s => .ok (quoted s).toList
  | room + 1, .list items => do
      let cs ← innerItems room items
      return '[' :: cs ++ [']']
  | room + 1, .record fields => do
      let cs ← innerFields room fields
      return '\x7b' :: cs ++ ['\x7d']

def innerItems (room : Nat) : List Document → Except WordError (List Char)
  | [] => .ok []
  | [d] => inner room d
  | d :: e :: ds => do
      let cs ← inner room d
      let rest ← innerItems room (e :: ds)
      return cs ++ ',' :: ' ' :: rest

/-- The texts of the fields of a record, with commas between them. A name is a text inside the
record. -/
def innerFields (room : Nat) : List (String × Document) → Except WordError (List Char)
  | [] => .ok []
  | [(name, d)] => do
      let cs ← inner room d
      return (quoted name).toList ++ ':' :: ' ' :: cs
  | (name, d) :: f :: fs => do
      let cs ← inner room d
      let rest ← innerFields room (f :: fs)
      return (quoted name).toList ++ ':' :: ' ' :: cs ++ ',' :: ' ' :: rest
end

/-- The text that stands for a document: a text for itself, anything else for how
it is written, if it can be. -/
def word [Stack] : Document → Except WordError String
  | .text s => .ok s
  | d => do
      let cs ← d.inner Stack.printing
      return String.ofList cs

@[simp]
theorem word_text [Stack] (s : String) : (Document.text s).word = .ok s := rfl

inductive NumberError where
  /-- A text that is no numeral. -/
  | notNumeral (spelling : String)
  /-- A kind of documents that are never numbers. -/
  | wrongKind (kind : String)
  /-- An integer beyond the largest `Float`. -/
  | tooLarge
deriving DecidableEq, Repr

def NumberError.message : NumberError → String
  | .notNumeral spelling => "could not convert string to float: " ++ quoted spelling
  | .wrongKind kind =>
      "float() argument must be a string or a real number, not " ++ quoted kind
  | .tooLarge => "int too large to convert to float"

/-- The `Float` nearest to an integer, if it is in range. -/
def integerToFloat (n : Int) : Except NumberError Float :=
  let x := Binary64.nearest (decide (n < 0)) n.natAbs 1
  if x.isInf then .error .tooLarge else .ok x

/-- The number that a document stands for: truth is one, and a text is read. -/
def toFloat : Document → Except NumberError Float
  | .bool value => .ok (if value then 1.0 else 0.0)
  | .integer n => integerToFloat n
  | .number x => .ok x
  | .text s =>
      match readFloat? s with
      | some x => .ok x
      | none => .error (.notNumeral s)
  | .null => .error (.wrongKind "NoneType")
  | .list _ => .error (.wrongKind "list")
  | .record _ => .error (.wrongKind "dict")

end Document

end Fluxion
