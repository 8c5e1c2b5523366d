import Fluxion.Digest.Fingerprint
import Fluxion.Expr.Text
import Fluxion.Kernel.Compiler
import Fluxion.Session.Config
import Fluxion.Session.Error
import Fluxion.Source.Parser

/-!
# Sessions

A session owns a compiler and a cache of what it compiled. It turns the text of
an expression into a compiled function, of the derivative or of the expression
itself, and evaluates the function by its name.

A request is first made into a `Task`, which needs no more than the
configuration. A task knows everything about its function but whether it
compiles: the fingerprint, the name and the code. It is then served from the
cache, or else its code is written, compiled and kept.

* `differentiate` and `compileExpression` serve tasks and return a handle.
* `fingerprint` and `derivativeCode` only look at a task, so they neither need
  nor change the state.
* `evaluate` runs a function.
* `close` ends the session: it empties the cache and closes the compiler.
-/

namespace Fluxion

open Fluxion.Calculus Fluxion.Kernel Fluxion.Number Fluxion.Source Fluxion.Text

structure Session where
  config : Session.Config
  compiler : Compiler
  cache : Cache Kernel
  closed : Bool

namespace Session

def newWith (config : Config) (symbols : LinkTable) : Session :=
  ⟨config, Compiler.new symbols, Cache.empty config.cacheBound config.cacheBound_pos, false⟩

def new (config : Config) : Session :=
  newWith config []

/-- What is wanted of an expression: its derivative in some mode, or its value. -/
structure Task where
  expression : Tree
  x : String
  mode : Option Mode

namespace Task

def tag (task : Task) : String :=
  match task.mode with
  | some mode => mode.name
  | none => "value"

@[simp]
theorem ofName?_tag (task : Task) : Mode.ofName? task.tag = task.mode := by
  obtain ⟨expression, x, mode⟩ := task
  cases mode with
  | none => rfl
  | some mode => exact Mode.ofName?_name mode

def text (task : Task) : String :=
  task.expression.render

def fingerprint (task : Task) : String :=
  Digest.fingerprint task.text task.x task.tag

/-- How much of the fingerprint is in the name of a function. -/
def namedDigits : Nat := 24

/-- The first letter of the function's name: `d` for derivatives, `f` for values. -/
def initial (task : Task) : String :=
  if task.mode.isSome then "d" else "f"

def name (task : Task) : String :=
  task.initial ++ "_" ++ String.ofList (task.fingerprint.toList.take namedDigits)

def target [Stack] (task : Task) : Except SessionError Tree :=
  match task.mode with
  | none => .ok task.expression
  | some mode =>
      match differentiate mode task.x task.expression with
      | .ok e => .ok e
      | .error e => .error (.derivative e)

def code [Stack] (task : Task) : Except SessionError String := do
  let target ← task.target
  match Code.emit task.name task.x target with
  | .ok code => .ok code
  | .error e => .error (.emit e)

end Task

structure Handle where
  name : String
  fingerprint : String
  expression : String
  x : String
  mode : Option Mode
  code : String
deriving DecidableEq, Repr

/-- Refuses what is not a name of a variable. -/
def checkVariable (x : String) : Except SessionError Unit :=
  if isName x then .ok () else .error (.invalidVariable x)

def readExpression (lenient : Bool) (text : String) : Except SessionError Tree :=
  match parse lenient text with
  | .ok e => .ok e
  | .error failure => .error (.parse failure)

/-- The mode of a request: that of the configuration if none is named. -/
def Config.resolveMode (config : Config) : Option String → Except SessionError Mode
  | none => .ok config.mode
  | some name =>
      match Mode.ofName? name with
      | some mode => .ok mode
      | none => .error (.unknownMode name)

def Config.derivativeTask (config : Config) (text x : String) (mode : Option String) :
    Except SessionError Task := do
  checkVariable x
  let mode ← config.resolveMode mode
  let e ← readExpression true text
  return ⟨e, x, some mode⟩

/-- The task of a value. Unlike a derivative it names an unknown function as soon
as the text is read. -/
def valueTask (text x : String) : Except SessionError Task := do
  checkVariable x
  let e ← readExpression false text
  return ⟨e, x, none⟩

def fingerprint (s : Session) (text x : String) (mode : Option String) :
    Except SessionError String := do
  checkVariable x
  let e ← readExpression true text
  let mode ← s.config.resolveMode mode
  return (Task.mk e x (some mode)).fingerprint

/-- The code of a derivative, which is not compiled. -/
def derivativeCode [Stack] (s : Session) (text x : String) (mode : Option String) :
    Except SessionError String := do
  let task ← s.config.derivativeTask text x mode
  task.code

def requestFailure : Cache.RequestError SessionError → SessionError
  | .build (.compile e) => .compile e
  | .build (.other e) => e
  | .unfinished => .unfinished

def build [Stack] (fingerprint name code : String) : Cache.Build Compiler SessionError Kernel :=
  fun compiler =>
    match compiler.compile code name fingerprint with
    | (compiler, .ok f) => (compiler, .ok ⟨f.fingerprint, f.name, f.source, f.kernel⟩)
    | (compiler, .error .closed) => (compiler, .error (.other .compilerClosed))
    | (compiler, .error (.compile e)) => (compiler, .error (.compile e))

def Task.handle (task : Task) (code : String) : Handle :=
  ⟨task.name, task.fingerprint, task.text, task.x, task.mode, code⟩

def serve [Stack] (s : Session) (task : Task) : Session × Except SessionError Handle :=
  match s.cache.get task.fingerprint with
  | (cache, some entry) => ({ s with cache }, .ok (task.handle entry.source))
  | (_, none) =>
      match task.code with
      | .error e => (s, .error e)
      | .ok code =>
          let (cache, compiler, result) :=
            s.cache.request task.fingerprint task.name (build task.fingerprint task.name code)
              s.compiler
          ({ s with cache, compiler },
            match result with
            | .ok entry => .ok (task.handle entry.source)
            | .error e => .error (requestFailure e))

/-- Refuses a closed session. -/
def checkOpen (s : Session) : Except SessionError Unit :=
  if s.closed then .error .closed else .ok ()

/-- Serves the task that a request is made into, if it is. -/
def serveRequest [Stack] (s : Session) (task : Except SessionError Task) :
    Session × Except SessionError Handle :=
  match (do s.checkOpen; task) with
  | .ok task => s.serve task
  | .error e => (s, .error e)

def differentiate [Stack] (s : Session) (text x : String) (mode : Option String) :
    Session × Except SessionError Handle :=
  s.serveRequest (s.config.derivativeTask text x mode)

def compileExpression [Stack] (s : Session) (text x : String) :
    Session × Except SessionError Handle :=
  s.serveRequest (valueTask text x)

/-- The machine that kernels run on. A kernel has a value at every `Float`, but running it
may fail all the same, with a failure that has a class and a text. -/
class Machine where
  failure? : Kernel → Float → Option (String × String)

/-- A machine that runs all kernels to their end. -/
instance Machine.standard : Machine where
  failure? := fun _ _ => none

def runKernel [Machine] (kernel : Kernel) (x : Float) :
    Except (Cache.RunFailure SessionError) Float :=
  match Machine.failure? kernel x with
  | some (kind, text) => .error (.trap kind text)
  | none => .ok (kernel.run x)

def evalFailure : Cache.EvalFailure SessionError → SessionError
  | .failed e => .eval e
  | .dangling name => .dangling name
  | .own e => e

def evaluate [Machine] (s : Session) (name : String) (x : Quantity) :
    Session × Except SessionError Quantity :=
  match s.checkOpen with
  | .error e => (s, .error e)
  | .ok _ =>
      match Cache.evaluate runKernel s.cache name x with
      | (cache, .ok value) => ({ s with cache }, .ok value)
      | (cache, .error e) => ({ s with cache }, .error (evalFailure e))

def evaluateExpression [Stack] [Machine] (s : Session) (text x : String) (argument : Quantity) :
    Session × Except SessionError Quantity :=
  match s.compileExpression text x with
  | (s, .ok handle) => s.evaluate handle.name argument
  | (s, .error e) => (s, .error e)

def resetStats (s : Session) : Session :=
  { s with cache := s.cache.resetStats }

/-- Ends a session. Ending it again changes nothing. -/
def close (s : Session) : Session :=
  if s.closed then s
  else { s with cache := s.cache.clear, compiler := s.compiler.close, closed := true }

@[simp]
theorem closed_close (s : Session) : s.close.closed = true := by
  unfold close
  split
  · assumption
  · rfl

@[simp]
theorem close_close (s : Session) : s.close.close = s.close := by
  rw [close, if_pos s.closed_close]

/-- A closed session serves no request. -/
theorem serveRequest_of_closed [Stack] {s : Session} (h : s.closed = true)
    (task : Except SessionError Task) : s.serveRequest task = (s, .error .closed) := by
  have hopen : s.checkOpen = .error .closed := by rw [checkOpen, if_pos h]
  simp only [serveRequest, hopen]
  rfl

end Session

end Fluxion
