import Fluxion.Kernel.Fragment

/-!
# The compiler

A compiler counts what it is asked to compile and keeps the keys of what it
compiled until it is closed. A closed compiler compiles nothing.

`compileWith` compiles with any interpreter. The compiler of a session compiles code that
was emitted, with the interpreter of that language: `compile`, over `compileModule`.
-/

namespace Fluxion.Kernel

open Fluxion.Code

abbrev LinkTable := Bindings

/-- The functions of the table, powers, and the names of numbers that have no
literal. -/
def defaultLinkTable : LinkTable :=
  Function.all.map (fun f => (f.name, .function f)) ++
    [(powerSymbol, .power), ("inf", .float Number.infinity), ("nan", .float Number.notANumber)]

def compileModule [Stack] (table : LinkTable) (source name : String) :
    Except CompileCause Kernel :=
  fragment.compileFunction table source name

/-- A compiled function: its fingerprint, its name, what it was lowered to and its text. -/
structure CompiledOver (κ : Type) where
  fingerprint : String
  name : String
  kernel : κ
  source : String

abbrev Compiled := CompiledOver Kernel

inductive CompilerError where
  /-- The compiler is closed. -/
  | closed
  | compile (error : CompileError)
deriving DecidableEq, Repr

def CompilerError.message : CompilerError → String
  | .closed => "JIT backend is closed"
  | .compile e => e.message

/-- A compiler: its link table, how much it was asked to compile, and under
which keys it keeps what it compiled. -/
structure CompilerOver (β : Type) where
  table : Namespace β
  count : Nat
  namespaces : List String
  closed : Bool

abbrev Compiler := CompilerOver Value

namespace CompilerOver

/-- The key under which a function is kept: its fingerprint, or its name if it
has none. -/
def keyOf (fingerprint name : String) : String :=
  if fingerprint.isEmpty then name else fingerprint

/-- Compiles the function `name` of a text with an interpreter. -/
def compileWith (I : Interpreter) (compiler : CompilerOver I.Value)
    (source name fingerprint : String) :
    CompilerOver I.Value × Except CompilerError (CompiledOver I.Executable) :=
  if compiler.closed then (compiler, .error .closed)
  else
    let counted := { compiler with count := compiler.count + 1 }
    match I.compileFunction compiler.table source name with
    | .error cause => (counted, .error (.compile ⟨name, cause⟩))
    | .ok kernel =>
        ({ counted with
            namespaces := Expr.insertName (keyOf fingerprint name) compiler.namespaces },
          .ok ⟨fingerprint, name, kernel, source⟩)

/-- Closes the compiler and drops what it kept. -/
def close {β : Type} (compiler : CompilerOver β) : CompilerOver β :=
  { compiler with namespaces := [], closed := true }

end CompilerOver

namespace Compiler

def new (symbols : LinkTable) : Compiler :=
  ⟨symbols ++ defaultLinkTable, 0, [], false⟩

def compile [Stack] (compiler : Compiler) (source name fingerprint : String) :
    Compiler × Except CompilerError Compiled :=
  compiler.compileWith fragment source name fingerprint

end Compiler

end Fluxion.Kernel
