import Fluxion.Proofs.Session.Constant

/-!
# Requests that fail

A request passes several stages: the variable, the mode and the text are looked at, the
expression is differentiated, its code is written and compiled.  Each stage can fail, and
the last one has counted the request by then, in the cache and in the compiler.

What is kept for later requests is written only when all stages have succeeded.  So a
request that fails early changes nothing at all, and one that the compiler turns down
changes three counters.
-/

namespace Fluxion.Session

open Fluxion.Code Fluxion.Kernel Fluxion.Text

inductive Request where
  | derivative (text x : String) (mode : Option String)
  | value (text x : String)
deriving DecidableEq, Repr

def Request.task (config : Config) : Request → Except SessionError Task
  | .derivative text x mode => config.derivativeTask text x mode
  | .value text x => valueTask text x

def Request.serve [Stack] (s : Session) : Request → Session × Except SessionError Handle
  | .derivative text x mode => s.differentiate text x mode
  | .value text x => s.compileExpression text x

theorem Request.serve_eq [Stack] (s : Session) (request : Request) :
    request.serve s = s.serveRequest (request.task s.config) := by
  cases request <;> rfl

/-- Whether an error comes from a stage before the compiler. -/
def SessionError.isEarly : SessionError → Bool
  | .invalidVariable _ => true
  | .unknownMode _ => true
  | .parse _ => true
  | .derivative _ => true
  | .emit _ => true
  | _ => false

/-! ## Stages before the compiler -/

/-- If the stage fails, its error comes from before the compiler. -/
def FailsEarly {α : Type} (stage : Except SessionError α) : Prop :=
  ∀ error, stage = .error error → error.isEarly = true

section Stages

variable {α β : Type}

theorem FailsEarly.ok (value : α) : FailsEarly (.ok value) := by
  intro error h
  cases h

theorem FailsEarly.error {error : SessionError} (h : error.isEarly = true) :
    FailsEarly (.error error : Except SessionError α) := by
  intro other hother
  obtain rfl := Except.error.inj hother
  exact h

/-- Stages that fail early, one after the other, fail early together. -/
theorem FailsEarly.bind {first : Except SessionError α} {next : α → Except SessionError β}
    (hfirst : FailsEarly first) (hnext : ∀ value, FailsEarly (next value)) :
    FailsEarly (first >>= next) := by
  cases first with
  | error error => exact .error (hfirst error rfl)
  | ok value => exact hnext value

theorem failsEarly_checkVariable (x : String) : FailsEarly (checkVariable x) := by
  unfold checkVariable
  split
  · exact .ok ()
  · exact .error rfl

theorem failsEarly_readExpression (lenient : Bool) (text : String) :
    FailsEarly (readExpression lenient text) := by
  unfold readExpression
  split
  · exact .ok _
  · exact .error rfl

theorem failsEarly_resolveMode (config : Config) (mode : Option String) :
    FailsEarly (config.resolveMode mode) := by
  unfold Config.resolveMode
  split
  · exact .ok _
  · split
    · exact .ok _
    · exact .error rfl

/-- Making a task fails before the compiler is called. -/
theorem failsEarly_task (config : Config) (request : Request) :
    FailsEarly (request.task config) := by
  cases request with
  | derivative text x mode =>
      exact (failsEarly_checkVariable x).bind fun _ =>
        (failsEarly_resolveMode config mode).bind fun _ =>
          (failsEarly_readExpression true text).bind fun _ => .ok _
  | value text x =>
      exact (failsEarly_checkVariable x).bind fun _ =>
        (failsEarly_readExpression false text).bind fun _ => .ok _

/-- Writing the code of a task fails before the compiler is called. -/
theorem failsEarly_code [Stack] (task : Task) : FailsEarly task.code := by
  have htarget : FailsEarly task.target := by
    unfold Task.target
    split
    · exact .ok _
    · split
      · exact .ok _
      · exact .error rfl
  refine htarget.bind fun target => ?_
  split
  · exact .ok _
  · exact .error rfl

end Stages

/-! ## What a failed request leaves -/

section Failures

variable [Stack] {config : Config} {table : LinkTable} {tasks : List Task} {s : Session}

/-- A request fails because it is made into no task, or because the task has no code, and then
changes nothing, or because the code is turned down. -/
theorem Traced.failed_cases (h : Traced config table tasks s) {request : Request}
    {error : SessionError} (hfailed : (request.serve s).2 = .error error) :
    (request.task config = .error error ∧ (request.serve s).1 = s) ∨
      (∃ task, request.task config = .ok task ∧ task.code = .error error ∧
        (request.serve s).1 = s) ∨
      ∃ task code cause, request.task config = .ok task ∧ task.code = .ok code ∧
        compileModule table code task.name = .error cause ∧
        error = .compile ⟨task.name, cause⟩ ∧ (request.serve s).1 = s.countRejected := by
  rw [request.serve_eq, h.config_eq] at hfailed ⊢
  cases htask : request.task config with
  | error first =>
      rw [htask, serveRequest_error_of_open h.isOpen] at hfailed
      rw [serveRequest_error_of_open h.isOpen]
      obtain rfl := Except.error.inj hfailed
      exact Or.inl ⟨rfl, rfl⟩
  | ok task =>
      rw [htask, serveRequest_of_open h.isOpen] at hfailed
      rw [serveRequest_of_open h.isOpen]
      cases hpeek : s.cache.peek? task.fingerprint with
      | some entry =>
          rw [serve_of_present hpeek] at hfailed
          cases hfailed
      | none =>
          cases hcode : task.code with
          | error first =>
              rw [serve_of_code_error hpeek hcode] at hfailed ⊢
              obtain rfl := Except.error.inj hfailed
              exact Or.inr (Or.inl ⟨task, rfl, hcode, rfl⟩)
          | ok code =>
              cases hkernel : compileModule table code task.name with
              | ok kernel =>
                  rw [(h.serve_of_compiles hpeek hcode hkernel).1] at hfailed
                  cases hfailed
              | error cause =>
                  rw [h.serve_of_rejected hpeek hcode hkernel] at hfailed ⊢
                  obtain rfl := Except.error.inj hfailed
                  exact Or.inr (Or.inr ⟨task, code, cause, rfl, hcode, hkernel, rfl, rfl⟩)

/-- A failed request either stops before the compiler and changes nothing, or its code is
turned down and three counters grow. -/
theorem Traced.of_failed (h : Traced config table tasks s) {request : Request}
    {error : SessionError} (hfailed : (request.serve s).2 = .error error) :
    error.isEarly = true ∧ (request.serve s).1 = s ∨
      ∃ task code cause, request.task config = .ok task ∧ task.code = .ok code ∧
        compileModule table code task.name = .error cause ∧
        error = .compile ⟨task.name, cause⟩ ∧ (request.serve s).1 = s.countRejected := by
  rcases h.failed_cases hfailed with ⟨htask, hsame⟩ | ⟨task, -, hcode, hsame⟩ | hrejected
  · exact Or.inl ⟨failsEarly_task config request error htask, hsame⟩
  · exact Or.inl ⟨failsEarly_code task error hcode, hsame⟩
  · exact Or.inr hrejected

end Failures

/-! ## The main statement -/

/-- Two sessions differ in their counters at most: the entries of their caches with the
order of use, the names, the builds under way and what their compilers keep are the same. -/
structure SameButCounters (s after : Session) : Prop where
  config : after.config = s.config
  closed : after.closed = s.closed
  tables : Cache.SameTables after.cache s.cache
  table : after.compiler.table = s.compiler.table
  namespaces : after.compiler.namespaces = s.compiler.namespaces
  compiler_closed : after.compiler.closed = s.compiler.closed

theorem SameButCounters.refl (s : Session) : SameButCounters s s :=
  ⟨rfl, rfl, ⟨rfl, rfl, rfl, rfl⟩, rfl, rfl, rfl⟩

theorem sameButCounters_countRejected (s : Session) : SameButCounters s s.countRejected :=
  ⟨rfl, rfl, ⟨rfl, rfl, rfl, rfl⟩, rfl, rfl, rfl⟩

/-- A request of an open session that fails changes nothing but counters.  If the error
comes from a stage before the compiler, the counters are what they were.  Otherwise the
compiler has turned the code of the request down: it has compiled once more, and the cache
has one more miss and one more failure. -/
theorem failed_request_run [Stack] [Machine] (config : Config) (symbols : LinkTable)
    (calls : List Call) :
    let s := run calls (newWith config symbols)
    s.closed = false → ∀ (request : Request) (error : SessionError),
      (request.serve s).2 = .error error →
      let after := (request.serve s).1
      SameButCounters s after ∧
        (error.isEarly = true ∧ after.compiler.count = s.compiler.count ∧
            after.cache.stats = s.cache.stats ∨
          (∃ task code cause, request.task config = .ok task ∧ task.code = .ok code ∧
              compileModule (symbols ++ defaultLinkTable) code task.name = .error cause ∧
              error = .compile ⟨task.name, cause⟩) ∧
            after.compiler.count = s.compiler.count + 1 ∧
            after.cache.stats =
              { s.cache.stats with
                  misses := s.cache.stats.misses + 1
                  failures := s.cache.stats.failures + 1 }) := by
  intro s hopen request error hfailed after
  have hs : Traced config (symbols ++ defaultLinkTable) (asked config calls) s :=
    traced_of_open hopen
  rcases hs.of_failed hfailed with ⟨hearly, hafter⟩ | ⟨task, code, cause, htask, hcode, hcause,
    herror, hafter⟩
  · rw [show after = s from hafter]
    exact ⟨.refl s, Or.inl ⟨hearly, rfl, rfl⟩⟩
  · rw [show after = s.countRejected from hafter]
    exact ⟨sameButCounters_countRejected s,
      Or.inr ⟨⟨task, code, cause, htask, hcode, hcause, herror⟩, rfl, rfl⟩⟩

def powerTask : Task :=
  ⟨.binary .pow (.var "x") (.var "x"), "x", none⟩

theorem code_powerTask :
    powerTask.code = .ok (functionText powerTask.name "pow(_x, _x)".toList) := by
  have hstandard : powerTask.expression.Standard := .binary rfl (.var "x") (.var "x")
  have hname : isIdentifier powerTask.name = true := isIdentifier_of_isName powerTask.isName_name
  have hphrase : phraseOf powerTask.name Stack.writing powerTask.expression =
      .ok ⟨"pow(_x, _x)".toList, atomStrength⟩ := by
    simp [Stack.writing, powerTask, phraseOf, exponentOf, integerExponent?, argumentName,
      powerSymbol]
  have hemit : emit powerTask.name powerTask.x powerTask.expression =
      .ok (functionText powerTask.name "pow(_x, _x)".toList) := by
    rw [emit_eq hstandard (by decide) hname, hphrase]
    rfl
  have htarget : powerTask.target = .ok powerTask.expression := rfl
  rw [Task.code, htarget, ok_bind, hemit]

/-- A link table whose power takes one argument. -/
def crossedTable : LinkTable :=
  [(powerSymbol, .function .sin)]

theorem compileModule_powerTask :
    compileModule (crossedTable ++ defaultLinkTable)
      (functionText powerTask.name "pow(_x, _x)".toList) powerTask.name =
      .error (.failed .wrongArguments) := by
  have hspells :=
    Spells.call_pair plainName_power isIdentifier_power spells_argument spells_argument
  exact compileModule_functionText (isIdentifier_of_isName powerTask.isName_name)
    powerTask.isFreeName_name hspells (by decide) (by decide) rfl

theorem fingerprint_power_ne_line : powerTask.fingerprint ≠ lineTask.fingerprint := by
  decide +kernel

/-- The session has compiled a function and keeps it.  A request whose mode is unknown leaves it
there, and so does one whose code the compiler turns down. -/
theorem failed_request_run_crossed :
    let s := run [.differentiate "x" "x" none] (newWith oneFunction crossedTable)
    let unread := Request.derivative "x^x" "x" (some "sideways")
    let rejected := Request.value "x^x" "x"
    s.closed = false ∧ s.cache.order = [lineTask.fingerprint] ∧
      (unread.serve s).2 = .error (.unknownMode "sideways") ∧ SameButCounters s (unread.serve s).1 ∧
      (rejected.serve s).2 = .error (.compile ⟨powerTask.name, .failed .wrongArguments⟩) ∧
      SameButCounters s (rejected.serve s).1 ∧
      s.compiler.count = 1 ∧ (rejected.serve s).1.compiler.count = 2 := by
  intro s unread rejected
  obtain ⟨horder, -, hline⟩ := run_line crossedTable
  have hopen : s.closed = false := closed_serveRequest _ _
  have hs : Traced oneFunction (crossedTable ++ defaultLinkTable) _ s := traced_of_open hopen
  have hunread : (unread.serve s).2 = .error (.unknownMode "sideways") := by
    rw [unread.serve_eq, hs.config_eq]
    exact congrArg Prod.snd (serveRequest_error_of_open hopen)
  have htask : rejected.task s.config = .ok powerTask := by
    have hparse : Source.parse false "x^x" = .ok powerTask.expression := by with_unfolding_all rfl
    change valueTask "x^x" "x" = .ok powerTask
    rw [valueTask, readExpression, hparse]
    rfl
  have habsent : s.cache.peek? powerTask.fingerprint = none := by
    rw [Cache.peek?_eq_none_iff, horder, List.mem_singleton]
    exact fingerprint_power_ne_line
  have hrejected : (rejected.serve s).2 =
      .error (.compile ⟨powerTask.name, .failed .wrongArguments⟩) := by
    rw [rejected.serve_eq, htask, serveRequest_of_open hopen,
      hs.serve_of_rejected habsent code_powerTask compileModule_powerTask]
  have hresult := failed_request_run oneFunction crossedTable [.differentiate "x" "x" none] hopen
  obtain ⟨hkept, hearly | ⟨-, hcount, -⟩⟩ := hresult rejected _ hrejected
  · exact absurd hearly.1 Bool.false_ne_true
  · rw [show s.compiler.count = 1 from hline] at hcount ⊢
    exact ⟨hopen, horder, hunread, (hresult unread _ hunread).1, hrejected, hkept, rfl, hcount⟩

end Fluxion.Session
