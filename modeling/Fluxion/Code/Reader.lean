import Fluxion.Code.Lexeme

/-!
# Reading code

Sums bind weaker than products and products weaker than signs; all group to
the left. A call is an operand followed by arguments in parentheses, and a
function without a name reaches as far to the right as it can. Parentheses may
nest two hundred deep.

`readModule` reads the modules that are made of definitions of functions of one
argument, of names bound to values, and of expressions. Every emitted text is
one. Other modules of the language are not read; nothing is said about them.
-/

namespace Fluxion.Code

open Fluxion.Number Fluxion.Text

def maxParens : Nat := 200

/-- A reader takes what it reads from the front of the lexemes. -/
abbrev Reader (β : Type) := List Lexeme → Option (β × List Lexeme)

/-- The words that are no names. -/
def keywords : List String :=
  ["False", "None", "True", "and", "as", "assert", "async", "await", "break", "class", "continue",
    "def", "del", "elif", "else", "except", "finally", "for", "from", "global", "if", "import",
    "in", "is", "lambda", "nonlocal", "not", "or", "pass", "raise", "return", "try", "while",
    "with", "yield"]

def isFreeName (symbol : String) : Bool :=
  !keywords.contains symbol

def sumOp? : Lexeme → Option ArithmeticOp
  | .punctuation '+' => some .add
  | .punctuation '-' => some .sub
  | _ => none

def productOp? : Lexeme → Option ArithmeticOp
  | .punctuation '*' => some .mul
  | .punctuation '/' => some .div
  | _ => none

/-- Operands and operations as long as they go on, around `left`. -/
def chainFrom (op? : Lexeme → Option ArithmeticOp) (operand : Reader Term) :
    Nat → Term → Reader Term
  | 0, left, ls => some (left, ls)
  | rounds + 1, left, ls =>
      match ls with
      | [] => some (left, [])
      | l :: rest =>
          match op? l with
          | none => some (left, l :: rest)
          | some op =>
              match operand rest with
              | none => none
              | some (right, rest) =>
                  chainFrom op? operand rounds (.binary op left right) rest

def chain (op? : Lexeme → Option ArithmeticOp) (operand : Reader Term) : Reader Term :=
  fun ls =>
    match operand ls with
    | none => none
    | some (left, rest) => chainFrom op? operand rest.length left rest

/-- The signs at the front; `true` stands for a minus. -/
def spanSigns : List Lexeme → List Bool × List Lexeme
  | .punctuation '-' :: ls => let (signs, rest) := spanSigns ls; (true :: signs, rest)
  | .punctuation '+' :: ls => let (signs, rest) := spanSigns ls; (false :: signs, rest)
  | ls => ([], ls)

/-- A term with signs in front of it. A plus leaves no trace. -/
def withSigns (signs : List Bool) (term : Term) : Term :=
  signs.foldr (fun minus term => if minus then .neg term else term) term

/-- More arguments behind those of `read`, up to the closing parenthesis. -/
def argumentsFrom (argument : Reader Term) : Nat → List Term → Reader (List Term)
  | 0, _, _ => none
  | rounds + 1, read, ls =>
      match ls with
      | .punctuation ')' :: rest => some (read, rest)
      | .punctuation ',' :: .punctuation ')' :: rest => some (read, rest)
      | .punctuation ',' :: rest =>
          match argument rest with
          | none => none
          | some (a, rest) => argumentsFrom argument rounds (read ++ [a]) rest
      | _ => none

def arguments (argument : Reader Term) : Reader (List Term) :=
  fun ls =>
    match ls with
    | .punctuation ')' :: rest => some ([], rest)
    | ls =>
        match argument ls with
        | none => none
        | some (a, rest) => argumentsFrom argument (rest.length + 1) [a] rest

/-- Calls of `function`, as long as parentheses go on. -/
def callsFrom (inner : Option (Reader Term)) : Nat → Term → Reader Term
  | 0, function, ls => some (function, ls)
  | rounds + 1, function, ls =>
      match ls with
      | .punctuation '(' :: rest =>
          match inner with
          | none => none
          | some inner =>
              match arguments inner rest with
              | none => none
              | some (args, rest) => callsFrom (some inner) rounds (.call function args) rest
      | ls => some (function, ls)

/-- A number, a name or a term in parentheses. `inner` reads what stands in
parentheses, and is missing when no more may be opened. -/
def atom (inner : Option (Reader Term)) : Reader Term :=
  fun ls =>
    match ls with
    | .integer n :: rest => some (.integer n, rest)
    | .float x :: rest => some (.float x, rest)
    | .name symbol :: rest =>
        if symbol = "True" then some (.integer 1, rest)
        else if symbol = "False" then some (.integer 0, rest)
        else if isFreeName symbol then some (.name symbol, rest)
        else none
    | .punctuation '(' :: rest =>
        match inner with
        | none => none
        | some inner =>
            match inner rest with
            | some (term, .punctuation ')' :: rest) => some (term, rest)
            | _ => none
    | _ => none

/-- An atom with its signs and the calls behind it. -/
def factor (inner : Option (Reader Term)) : Reader Term :=
  fun ls =>
    let (signs, rest) := spanSigns ls
    match atom inner rest with
    | none => none
    | some (term, rest) =>
        match callsFrom inner rest.length term rest with
        | none => none
        | some (term, rest) => some (withSigns signs term, rest)

/-- A term, with `parens` more parentheses to open. Every round is one for a
parenthesis or a function without a name, so as many rounds as there are
lexemes are enough. -/
def termWithin : Nat → Nat → Reader Term
  | 0, _, _ => none
  | rounds + 1, parens, ls =>
      match ls with
      | .name "lambda" :: .name param :: .punctuation ':' :: rest =>
          if isFreeName param then
            match termWithin rounds parens rest with
            | none => none
            | some (body, rest) => some (.function param body, rest)
          else none
      | ls =>
          let inner := if parens = 0 then none else some (termWithin rounds (parens - 1))
          chain sumOp? (chain productOp? (factor inner)) ls

def term : Reader Term :=
  fun ls => termWithin (ls.length + 1) maxParens ls

/-- The body of a function: a term that is returned, on the same line or on an
indented one. -/
def functionBody : Reader Term :=
  fun ls =>
    match ls with
    | .name "return" :: rest => term rest
    | .line indent :: .name "return" :: rest => if indent = 0 then none else term rest
    | _ => none

/-- A statement, behind the start of its line. -/
def statement : Reader Statement :=
  fun ls =>
    match ls with
    | .name "def" :: .name f :: .punctuation '(' :: .name param :: .punctuation ')' ::
        .punctuation ':' :: rest =>
        if isFreeName f && isFreeName param then
          (functionBody rest).map fun (body, rest) => (.define f param body, rest)
        else none
    | .name symbol :: .punctuation '=' :: rest =>
        if isFreeName symbol then
          (term rest).map fun (value, rest) => (.bind symbol value, rest)
        else none
    | ls => (term ls).map fun (value, rest) => (.run value, rest)

/-- The statements of a module; each starts a line without an indent. -/
def statementsFrom : Nat → List Lexeme → Option (List Statement)
  | _, [] => some []
  | 0, _ => none
  | rounds + 1, .line 0 :: ls =>
      match statement ls with
      | none => none
      | some (first, rest) => (statementsFrom rounds rest).map (first :: ·)
  | _, _ => none

def readModule (source : String) : Option (List Statement) :=
  match lexemes source with
  | none => none
  | some ls => statementsFrom ls.length ls

end Fluxion.Code
