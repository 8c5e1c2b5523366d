import Fluxion.Document.Basic

/-!
# The JSON text of a document

A document is written as JSON in ASCII, one item or field a line, two spaces
deeper than what holds it. Numbers that JSON has no form for are written as
`NaN`, `Infinity` and `-Infinity`.
-/

namespace Fluxion.Document

open Fluxion.Decimal Fluxion.Text

def unitEscape (n : Nat) : List Char :=
  '\\' :: 'u' :: hexDigits 4 n

/-- A character inside a JSON string. Characters beyond the first plane are two
units. -/
def jsonChar (c : Char) : List Char :=
  if c == '\x22' then ['\\', '\x22']
  else if c == '\\' then ['\\', '\\']
  else if c == '\n' then ['\\', 'n']
  else if c == '\r' then ['\\', 'r']
  else if c == '\t' then ['\\', 't']
  else if c == '\x08' then ['\\', 'b']
  else if c == '\x0c' then ['\\', 'f']
  else if ' ' ≤ c && c ≤ '~' then [c]
  else if c.toNat < 0x10000 then unitEscape c.toNat
  else
    unitEscape (0xd800 + (c.toNat - 0x10000) / 0x400) ++
      unitEscape (0xdc00 + (c.toNat - 0x10000) % 0x400)

def jsonString (s : String) : List Char :=
  '\x22' :: s.toList.flatMap jsonChar ++ ['\x22']

def jsonNumber (x : Float) : List Char :=
  if x.isNaN then "NaN".toList
  else if x.isInf then (if x < 0.0 then "-Infinity" else "Infinity").toList
  else floatChars x

def newline (level : Nat) : List Char :=
  '\n' :: List.replicate (2 * level) ' '

mutual
def jsonChars (level : Nat) : Document → List Char
  | .null => "null".toList
  | .bool true => "true".toList
  | .bool false => "false".toList
  | .integer n => (intText n).toList
  | .number x => jsonNumber x
  | .text s => jsonString s
  | .list [] => ['[', ']']
  | .list (d :: ds) => '[' :: jsonItems (level + 1) (d :: ds) ++ newline level ++ [']']
  | .record [] => ['\x7b', '\x7d']
  | .record (f :: fs) =>
      '\x7b' :: jsonFields (level + 1) (f :: fs) ++ newline level ++ ['\x7d']

def jsonItems (level : Nat) : List Document → List Char
  | [] => []
  | [d] => newline level ++ jsonChars level d
  | d :: e :: ds => newline level ++ jsonChars level d ++ ',' :: jsonItems level (e :: ds)

def jsonFields (level : Nat) : List (String × Document) → List Char
  | [] => []
  | [(name, d)] => newline level ++ jsonString name ++ ':' :: ' ' :: jsonChars level d
  | (name, d) :: f :: fs =>
      newline level ++ jsonString name ++ ':' :: ' ' :: jsonChars level d ++
        ',' :: jsonFields level (f :: fs)
end

def json (d : Document) : String :=
  String.ofList (jsonChars 0 d)

end Fluxion.Document
