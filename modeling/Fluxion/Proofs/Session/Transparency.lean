import Fluxion.Proofs.Session.Naming
import Fluxion.Proofs.Session.Visits

/-!
# The cache does not show

What a session answers to a request for a function does not depend on what it was asked
before.  The invariant is that every function in the cache is what some task of the
history compiles to; a task that finds its fingerprint in the cache then gets what it
would have compiled itself, provided that the tasks of the history can be told apart.

* `Task.outcome` is what a task comes to with nothing but the link table.
* `Traced` is the invariant, kept by every call but `close`.
* `outcome_run` is the main statement.
-/

namespace Fluxion.Session

open Fluxion.Calculus Fluxion.Code Fluxion.Kernel Fluxion.Number

/-- What a task comes to on its own: its code is written and compiled. -/
def Task.outcome [Stack] (table : LinkTable) (task : Task) : Except SessionError Handle := do
  let code ← task.code
  match compileModule table code task.name with
  | .ok _ => .ok (task.handle code)
  | .error cause => .error (.compile ⟨task.name, cause⟩)

/-- A function of the cache is what a task compiles to. -/
structure Task.Compiled [Stack] (table : LinkTable) (task : Task) (entry : Cache.Entry Kernel) :
    Prop where
  fingerprint : entry.fingerprint = task.fingerprint
  name : entry.name = task.name
  code : task.code = .ok entry.source
  kernel : compileModule table entry.source task.name = .ok entry.payload

/-- A function of the cache is handed out as what compiling its task anew would give. -/
theorem Task.Compiled.outcome_eq [Stack] {table : LinkTable} {task : Task}
    {entry : Cache.Entry Kernel} (h : task.Compiled table entry) :
    task.outcome table = .ok (task.handle entry.source) := by
  rw [Task.outcome, h.code, ok_bind, h.kernel]

/-! ## Tasks of a history -/

/-- The tasks can be told apart: no two requests share a fingerprint, and no two
expressions share a text. -/
structure Distinct (tasks : List Task) : Prop where
  fingerprint : ∀ t ∈ tasks, ∀ u ∈ tasks, t.fingerprint = u.fingerprint →
    t.text = u.text ∧ t.x = u.x ∧ t.tag = u.tag
  text : ∀ t ∈ tasks, ∀ u ∈ tasks, t.text = u.text → t.expression = u.expression

/-- Two tasks that can be told apart, asked for any number of times. -/
theorem Distinct.of_two {t u : Task} (hfingerprint : t.fingerprint ≠ u.fingerprint)
    (htext : t.text ≠ u.text) {tasks : List Task} (h : ∀ v ∈ tasks, v = t ∨ v = u) :
    Distinct tasks where
  fingerprint := fun v hv w hw heq => by
    rcases h v hv with rfl | rfl <;> rcases h w hw with rfl | rfl
    · exact ⟨rfl, rfl, rfl⟩
    · exact absurd heq hfingerprint
    · exact absurd heq.symm hfingerprint
    · exact ⟨rfl, rfl, rfl⟩
  text := fun v hv w hw heq => by
    rcases h v hv with rfl | rfl <;> rcases h w hw with rfl | rfl
    · rfl
    · exact absurd heq htext
    · exact absurd heq.symm htext
    · rfl

/-- Tasks with one fingerprint are the same. -/
theorem Distinct.eq_of_fingerprint_eq {tasks : List Task} (h : Distinct tasks) {t u : Task}
    (ht : t ∈ tasks) (hu : u ∈ tasks) (heq : t.fingerprint = u.fingerprint) : t = u := by
  obtain ⟨htext, hx, htag⟩ := h.fingerprint t ht u hu heq
  exact Task.eq_of_parts (h.text t ht u hu htext) hx htag

/-! ## Every cached function comes from a task -/

/-- The session is open, and every function in its cache is what one of the tasks
compiles to. -/
structure Traced [Stack] (config : Config) (table : LinkTable) (tasks : List Task)
    (s : Session) : Prop where
  config_eq : s.config = config
  isOpen : s.closed = false
  compiler_isOpen : s.compiler.closed = false
  table_eq : s.compiler.table = table
  consistent : s.cache.Consistent
  origin : ∀ fingerprint e, s.cache.peek? fingerprint = some e →
    ∃ task ∈ tasks, task.Compiled table e

namespace Traced

variable [Stack] {config : Config} {table : LinkTable} {tasks : List Task} {s : Session}
  {task : Task}

theorem newWith (config : Config) (symbols : LinkTable) (tasks : List Task) :
    Traced config (symbols ++ defaultLinkTable) tasks (Session.newWith config symbols) where
  config_eq := rfl
  isOpen := rfl
  compiler_isOpen := rfl
  table_eq := rfl
  consistent := Cache.Consistent.empty _ _
  origin := fun _ _ h => by cases h

/-- A visit that adds no function. -/
theorem of_peek? (h : Traced config table tasks s) {cache : Cache Kernel}
    (hconsistent : cache.Consistent) (hpeek : ∀ key, cache.peek? key = s.cache.peek? key) :
    Traced config table tasks { s with cache } where
  config_eq := h.config_eq
  isOpen := h.isOpen
  compiler_isOpen := h.compiler_isOpen
  table_eq := h.table_eq
  consistent := hconsistent
  origin := fun fingerprint e he => h.origin fingerprint e ((hpeek fingerprint).symm.trans he)

theorem fingerprint_of_compiled (h : Traced config table tasks s) {fingerprint : String}
    {e : Cache.Entry Kernel} (hpeek : s.cache.peek? fingerprint = some e)
    (hcompiled : task.Compiled table e) : task.fingerprint = fingerprint :=
  hcompiled.fingerprint.symm.trans (h.consistent.fingerprint_of_peek? hpeek)

/-! ### What a task is answered -/

/-- A task that finds its fingerprint finds what it compiles to; any other one is
compiled. -/
theorem serve_outcome (h : Traced config table tasks s) (hdistinct : Distinct tasks)
    (hmem : task ∈ tasks) : (s.serve task).2 = task.outcome table := by
  cases hpeek : s.cache.peek? task.fingerprint with
  | some e =>
      obtain ⟨origin, horigin, hcompiled⟩ := h.origin _ e hpeek
      have heq := hdistinct.eq_of_fingerprint_eq horigin hmem
        (h.fingerprint_of_compiled hpeek hcompiled)
      subst heq
      rw [serve_of_present hpeek, hcompiled.outcome_eq]
  | none =>
      cases hcode : task.code with
      | error error =>
          rw [serve_of_code_error hpeek hcode, Task.outcome, hcode]
          rfl
      | ok code =>
          rw [serve_of_code hpeek h.consistent.idle hcode, Task.outcome, hcode, ok_bind,
            ← h.table_eq]
          cases hkernel : compileModule s.compiler.table code task.name with
          | ok kernel =>
              rw [build_of_compiles h.compiler_isOpen _ hkernel]
              rfl
          | error cause =>
              rw [build_of_fails h.compiler_isOpen _ hkernel]
              rfl

/-- The answer to a request, in which the cache does not occur. -/
theorem serveRequest_outcome (h : Traced config table tasks s) (hdistinct : Distinct tasks)
    {request : Except SessionError Task} (hmem : ∀ task, request = .ok task → task ∈ tasks) :
    (s.serveRequest request).2 = request >>= Task.outcome table := by
  cases request with
  | error error => rw [serveRequest_error_of_open h.isOpen]; rfl
  | ok task =>
      rw [serveRequest_of_open h.isOpen, ok_bind]
      exact h.serve_outcome hdistinct (hmem task rfl)

/-! ### What a call leaves behind -/

/-- A build leaves behind the functions that were there and what the task compiles to. -/
theorem settle (h : Traced config table tasks s) (hmem : task ∈ tasks)
    (habsent : s.cache.peek? task.fingerprint = none) {compiler : Compiler}
    (hopen : compiler.closed = false) (htable : compiler.table = table)
    {result : Except (Cache.BuildError SessionError) (Cache.Entry Kernel)}
    (hresult : ∀ e, result = .ok e → task.Compiled table e) :
    Traced config table tasks
      { s with
        cache := s.cache.countMiss.settle task.fingerprint task.name result
        compiler } where
  config_eq := h.config_eq
  isOpen := h.isOpen
  compiler_isOpen := hopen
  table_eq := htable
  consistent :=
    h.consistent.change <| Cache.change_settle h.consistent.idle habsent
      (fun e he => ⟨(hresult e he).fingerprint, (hresult e he).name⟩) 0
  origin := by
    have hcounted : s.cache.countMiss.Consistent :=
      h.consistent.of_sameTables ⟨rfl, rfl, rfl, rfl⟩
    intro fingerprint e he
    rcases hcounted.peek?_settle habsent he with hold | ⟨-, hnew⟩
    · exact h.origin fingerprint e hold
    · exact ⟨task, hmem, hresult e hnew⟩

/-- Serving a task of the history adds what that task compiles to, if anything. -/
theorem serve (h : Traced config table tasks s) (hmem : task ∈ tasks) :
    Traced config table tasks (s.serve task).1 := by
  cases hpeek : s.cache.peek? task.fingerprint with
  | some e =>
      rw [serve_of_present hpeek]
      refine h.of_peek? ?_ (Cache.peek?_touch s.cache task.fingerprint)
      exact h.consistent.change (.touched task.fingerprint ⟨rfl, rfl, rfl, rfl⟩)
  | none =>
      cases hcode : task.code with
      | error error => rw [serve_of_code_error hpeek hcode]; exact h
      | ok code =>
          rw [serve_of_code hpeek h.consistent.idle hcode]
          cases hkernel : compileModule s.compiler.table code task.name with
          | ok kernel =>
              have hbuild := build_of_compiles h.compiler_isOpen task.fingerprint hkernel
              refine h.settle hmem hpeek ?_ ?_ fun e he => ?_
              · rw [hbuild]; exact h.compiler_isOpen
              · rw [hbuild]; exact h.table_eq
              · rw [hbuild] at he
                obtain rfl := Except.ok.inj he
                exact ⟨rfl, rfl, hcode, h.table_eq ▸ hkernel⟩
          | error cause =>
              have hbuild := build_of_fails h.compiler_isOpen task.fingerprint hkernel
              refine h.settle hmem hpeek ?_ ?_ fun e he => ?_
              · rw [hbuild]; exact h.compiler_isOpen
              · rw [hbuild]; exact h.table_eq
              · rw [hbuild] at he
                cases he

theorem evaluate [Machine] (h : Traced config table tasks s) (name : String) (x : Quantity) :
    Traced config table tasks (s.evaluate name x).1 := by
  rw [evaluate_fst h.isOpen]
  exact h.of_peek? (h.consistent.change (Cache.change_lookup s.cache name))
    (Cache.peek?_lookup s.cache name)

theorem resetStats (h : Traced config table tasks s) : Traced config table tasks s.resetStats :=
  h.of_peek? (h.consistent.of_sameTables ⟨rfl, rfl, rfl, rfl⟩) fun _ => rfl

theorem kept [Machine] : KeptByVisits config tasks (fun _ => True) (Traced config table tasks) where
  config_eq := fun _ h => h.config_eq
  isOpen := fun _ h => h.isOpen
  serve := fun _ _ h hmem _ => h.serve hmem
  evaluate := fun _ name x h _ => h.evaluate name x
  resetStats := fun _ h => h.resetStats

theorem serveRequest [Machine] (h : Traced config table tasks s)
    {request : Except SessionError Task} (hmem : ∀ task, request = .ok task → task ∈ tasks) :
    Traced config table tasks (s.serveRequest request).1 :=
  kept.serveRequest h hmem fun _ _ => trivial

theorem call [Machine] (h : Traced config table tasks s) {call : Call} (hcall : call ≠ .close)
    (hmem : ∀ task, call.task? config = some task → task ∈ tasks) :
    Traced config table tasks (call.run s) :=
  kept.call h hcall hmem fun _ _ => trivial

/-- The functions of the cache stay accounted for throughout a run that closes nothing. -/
theorem run [Machine] (h : Traced config table tasks s) {calls : List Call} (hopen : .close ∉ calls)
    (hmem : ∀ task ∈ asked config calls, task ∈ tasks) :
    Traced config table tasks (Session.run calls s) :=
  kept.run h hopen hmem fun _ _ => trivial

end Traced

/-- An open session has only seen calls that left it open. -/
theorem traced_of_open [Stack] [Machine] {config : Config} {symbols : LinkTable} {calls : List Call}
    (hopen : (run calls (newWith config symbols)).closed = false) :
    Traced config (symbols ++ defaultLinkTable) (asked config calls)
      (run calls (newWith config symbols)) := by
  have hcalls : .close ∉ calls := fun hmem =>
    Bool.false_ne_true (hopen.symm.trans (closed_run_iff.mpr (Or.inr hmem)))
  exact (Traced.newWith config symbols _).run hcalls fun _ htask => htask

/-! ## The main statement -/

/-- A successful request for a derivative is answered with what `fingerprint` and
`derivativeCode` say about it. -/
theorem handle_of_outcome [Stack] {s : Session} {table : LinkTable} {text x : String}
    {mode : Option String} {handle : Handle}
    (h : s.config.derivativeTask text x mode >>= Task.outcome table = .ok handle) :
    s.fingerprint text x mode = .ok handle.fingerprint ∧
      s.derivativeCode text x mode = .ok handle.code := by
  obtain ⟨task, htask, houtcome⟩ := bind_eq_ok.mp h
  obtain ⟨code, hcode, hhandle⟩ := bind_eq_ok.mp houtcome
  obtain rfl : task.handle code = handle := by
    split at hhandle
    · exact Except.ok.inj hhandle
    · cases hhandle
  constructor
  · obtain ⟨checked, hx, hrest⟩ := bind_eq_ok.mp htask
    obtain ⟨resolved, hmode, hrest⟩ := bind_eq_ok.mp hrest
    obtain ⟨e, he, hpure⟩ := bind_eq_ok.mp hrest
    obtain rfl := Except.ok.inj hpure
    rw [fingerprint, hx, ok_bind, he, ok_bind, hmode]
    rfl
  · rw [derivativeCode, htask, ok_bind, hcode]
    rfl

theorem mem_asked_append {config : Config} {calls : List Call} {call : Call} {task : Task}
    (h : call.task? config = some task) : task ∈ asked config (calls ++ [call]) :=
  mem_asked (List.mem_append_right calls (List.mem_singleton_self call)) h

theorem asked_append_subset {config : Config} {calls : List Call} {call : Call} :
    ∀ task ∈ asked config calls, task ∈ asked config (calls ++ [call]) :=
  asked_subset fun _ => List.mem_append_left [call]

/-- A session that is still open answers the next request for a function as a new
session of the same configuration does, as long as the tasks of the calls can be told
apart.  A derivative that it returns has the fingerprint and the code that the session
tells for it. -/
theorem outcome_run [Stack] [Machine] (config : Config) (symbols : LinkTable) (calls : List Call)
    (hopen : .close ∉ calls) :
    let start := newWith config symbols
    let s := run calls start
    (∀ text x mode, Distinct (asked config (calls ++ [.differentiate text x mode])) →
      (s.differentiate text x mode).2 = (start.differentiate text x mode).2 ∧
        ∀ handle, (s.differentiate text x mode).2 = .ok handle →
          s.fingerprint text x mode = .ok handle.fingerprint ∧
            s.derivativeCode text x mode = .ok handle.code) ∧
      ∀ text x, Distinct (asked config (calls ++ [.compileExpression text x])) →
        (s.compileExpression text x).2 = (start.compileExpression text x).2 := by
  intro start s
  constructor
  · intro text x mode hdistinct
    have hstart := Traced.newWith config symbols
      (asked config (calls ++ [.differentiate text x mode]))
    have hs := hstart.run hopen asked_append_subset
    have hmem : ∀ task, config.derivativeTask text x mode = .ok task →
        task ∈ asked config (calls ++ [.differentiate text x mode]) := fun task htask =>
      mem_asked_append (by rw [Call.task?, htask]; rfl)
    have houtcome := hs.serveRequest_outcome hdistinct hmem
    constructor
    · rw [differentiate, hs.config_eq, houtcome, differentiate, hstart.config_eq,
        hstart.serveRequest_outcome hdistinct hmem]
    · intro handle hhandle
      rw [differentiate, hs.config_eq, houtcome] at hhandle
      exact handle_of_outcome (hs.config_eq ▸ hhandle)
  · intro text x hdistinct
    have hstart := Traced.newWith config symbols
      (asked config (calls ++ [.compileExpression text x]))
    have hs := hstart.run hopen asked_append_subset
    have hmem : ∀ task, valueTask text x = .ok task →
        task ∈ asked config (calls ++ [.compileExpression text x]) := fun task htask =>
      mem_asked_append (by rw [Call.task?, htask]; rfl)
    rw [compileExpression, hs.serveRequest_outcome hdistinct hmem, compileExpression,
      hstart.serveRequest_outcome hdistinct hmem]

def oneFunction : Config :=
  ⟨some 1, .forward, Policy.default, Cache.pos_of_mem_some Nat.one_pos⟩

def squareTask : Task :=
  ⟨.binary .mul (.var "x") (.var "x"), "x", some .forward⟩

def doubleTask : Task :=
  ⟨.binary .add (.var "x") (.var "x"), "x", none⟩

theorem fingerprint_square_ne_double : squareTask.fingerprint ≠ doubleTask.fingerprint := by
  decide +kernel

theorem text_square_ne_double : squareTask.text ≠ doubleTask.text := by
  decide

/-- The derivative is compiled, dropped for another function, and asked for again. -/
theorem outcome_run_square :
    let calls := [.differentiate "x*x" "x" none, .compileExpression "x" "2",
      .compileExpression "x+x" "x"]
    let start := newWith oneFunction []
    .close ∉ calls ∧
      Distinct (asked oneFunction (calls ++ [.differentiate "x*x" "x" none])) ∧
      ((run calls start).differentiate "x*x" "x" none).2 =
        (start.differentiate "x*x" "x" none).2 := by
  have hsquare : oneFunction.derivativeTask "x*x" "x" none = .ok squareTask := by
    have hparse : Source.parse true "x*x" = .ok squareTask.expression := by with_unfolding_all rfl
    rw [Config.derivativeTask, readExpression, hparse]
    rfl
  have hdouble : valueTask "x+x" "x" = .ok doubleTask := by
    have hparse : Source.parse false "x+x" = .ok doubleTask.expression := by with_unfolding_all rfl
    rw [valueTask, readExpression, hparse]
    rfl
  have hrefused : valueTask "x" "2" = .error (.invalidVariable "2") := rfl
  have hopen : Call.close ∉ [.differentiate "x*x" "x" none, .compileExpression "x" "2",
      .compileExpression "x+x" "x"] := by simp
  have hdistinct : Distinct (asked oneFunction ([.differentiate "x*x" "x" none,
      .compileExpression "x" "2", .compileExpression "x+x" "x"] ++
        [.differentiate "x*x" "x" none])) := by
    refine Distinct.of_two fingerprint_square_ne_double text_square_ne_double fun v hv => ?_
    have hcases : v = squareTask ∨ v = doubleTask ∨ v = squareTask := by
      simpa [asked, Call.task?, hsquare, hdouble, hrefused, Except.toOption] using hv
    rcases hcases with hv | hv | hv
    · exact Or.inl hv
    · exact Or.inr hv
    · exact Or.inl hv
  exact ⟨hopen, hdistinct, ((outcome_run oneFunction [] _ hopen).1 _ _ _ hdistinct).1⟩

end Fluxion.Session
