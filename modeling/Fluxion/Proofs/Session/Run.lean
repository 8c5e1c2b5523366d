import Fluxion.Session.Basic
import Fluxion.Proofs.Cache.Consistent
import Fluxion.Proofs.Outcome

/-!
# Runs of a session

A run is a sequence of calls of one session, which may succeed or fail.

Serving a task goes one of three ways: its function is in the cache, or its code cannot
be written, or the code is compiled.  The lemmas here say what each way does to the
session and what it answers.
-/

namespace Fluxion

open Fluxion.Calculus Fluxion.Code Fluxion.Kernel Fluxion.Number

/-! ## Cached functions that are evaluated -/

namespace Cache

variable {φ ε : Type}

@[simp]
theorem peek?_lookup (cache : Cache φ) (name key : String) :
    (cache.lookup name).1.peek? key = cache.peek? key := by
  unfold lookup
  split
  · rfl
  · split
    · rfl
    · exact peek?_touch cache _ key

/-- An evaluation does to the cache what the search for the name does. -/
theorem evaluate_fst (run : φ → Float → Except (RunFailure ε) Float) (cache : Cache φ)
    (name : String) (x : Quantity) : (evaluate run cache name x).1 = (cache.lookup name).1 := by
  unfold evaluate
  split
  · rename_i hlookup
    rw [hlookup]
  · rename_i hlookup
    rw [hlookup]
  · rename_i hlookup
    rw [hlookup]
    split <;> rfl

end Cache

namespace Session

inductive Call where
  | differentiate (text x : String) (mode : Option String)
  | compileExpression (text x : String)
  | evaluate (name : String) (x : Quantity)
  | evaluateExpression (text x : String) (point : Quantity)
  | resetStats
  | close

def Call.run [Stack] [Machine] (s : Session) : Call → Session
  | .differentiate text x mode => (s.differentiate text x mode).1
  | .compileExpression text x => (s.compileExpression text x).1
  | .evaluate name x => (s.evaluate name x).1
  | .evaluateExpression text x point => (s.evaluateExpression text x point).1
  | .resetStats => s.resetStats
  | .close => s.close

def run [Stack] [Machine] (calls : List Call) (s : Session) : Session :=
  calls.foldl Call.run s

/-! ## Compiling for the cache -/

section Build

variable [Stack] {compiler : Compiler} (hopen : compiler.closed = false) {code name : String}
  (fingerprint : String)

include hopen

/-- A build that compiles keeps the kernel under its fingerprint. -/
theorem build_of_compiles {kernel : Kernel}
    (hkernel : compileModule compiler.table code name = .ok kernel) :
    build fingerprint name code compiler =
      ({ compiler with
          count := compiler.count + 1
          namespaces :=
            Expr.insertName (CompilerOver.keyOf fingerprint name) compiler.namespaces },
        .ok ⟨fingerprint, name, code, kernel⟩) := by
  rw [compileModule] at hkernel
  rw [build, Compiler.compile, CompilerOver.compileWith, hopen, hkernel]
  rfl

/-- A build that fails changes the count of compilations only. -/
theorem build_of_fails {cause : CompileCause}
    (hcause : compileModule compiler.table code name = .error cause) :
    build fingerprint name code compiler =
      ({ compiler with count := compiler.count + 1 }, .error (.compile ⟨name, cause⟩)) := by
  rw [compileModule] at hcause
  rw [build, Compiler.compile, CompilerOver.compileWith, hopen, hcause]
  rfl

end Build

/-! ## Serving a task -/

section Serve

variable [Stack] {s : Session} {task : Task}

/-- A function that is there is handed out without compiling. -/
theorem serve_of_present {entry : Cache.Entry Kernel}
    (hpresent : s.cache.peek? task.fingerprint = some entry) :
    s.serve task =
      ({ s with cache := (s.cache.touch task.fingerprint).countHit },
        .ok (task.handle entry.source)) := by
  rw [serve, Cache.get, hpresent]

variable (habsent : s.cache.peek? task.fingerprint = none)

include habsent

theorem serve_of_code_error {error : SessionError} (hcode : task.code = .error error) :
    s.serve task = (s, .error error) := by
  rw [serve, Cache.get, habsent, hcode]

/-- What the session is after the code of a task was compiled, and what it answers. -/
theorem serve_of_code (hidle : s.cache.inFlight = []) {code : String}
    (hcode : task.code = .ok code) :
    s.serve task =
      ({ s with
          cache := s.cache.countMiss.settle task.fingerprint task.name
            (build task.fingerprint task.name code s.compiler).2
          compiler := (build task.fingerprint task.name code s.compiler).1 },
        match Cache.answerOf (build task.fingerprint task.name code s.compiler).2 with
        | .ok entry => .ok (task.handle entry.source)
        | .error e => .error (requestFailure e)) := by
  rw [serve, Cache.get, habsent, hcode]
  cases hanswer : Cache.answerOf (build task.fingerprint task.name code s.compiler).2 with
  | ok entry => simp only [Cache.request_of_absent hidle habsent, hanswer]
  | error e => simp only [Cache.request_of_absent hidle habsent, hanswer]

end Serve

theorem checkOpen_of_open {s : Session} (hopen : s.closed = false) : s.checkOpen = .ok () := by
  simp [checkOpen, hopen]

theorem evaluate_fst [Machine] {s : Session} (hopen : s.closed = false) (name : String)
    (x : Quantity) :
    (s.evaluate name x).1 = { s with cache := (s.cache.lookup name).1 } := by
  rw [evaluate, checkOpen_of_open hopen, ← Cache.evaluate_fst runKernel s.cache name x]
  dsimp only
  split
  · rename_i hevaluate
    rw [hevaluate]
  · rename_i hevaluate
    rw [hevaluate]

theorem serveRequest_of_open [Stack] {s : Session} (hopen : s.closed = false) {task : Task} :
    s.serveRequest (.ok task) = s.serve task := by
  rw [serveRequest, checkOpen_of_open hopen]
  rfl

theorem serveRequest_error_of_open [Stack] {s : Session} (hopen : s.closed = false)
    {error : SessionError} : s.serveRequest (.error error) = (s, .error error) := by
  rw [serveRequest, checkOpen_of_open hopen]
  rfl

/-! ## Open and closed sessions -/

section Closed

variable [Stack] [Machine] (s : Session)

omit [Machine] in
theorem closed_serve (task : Task) : (s.serve task).1.closed = s.closed := by
  unfold serve
  split
  · rfl
  · split <;> rfl

omit [Machine] in
theorem closed_serveRequest (request : Except SessionError Task) :
    (s.serveRequest request).1.closed = s.closed := by
  unfold serveRequest
  split
  · exact s.closed_serve _
  · rfl

omit [Stack] in
theorem closed_evaluate (name : String) (x : Quantity) :
    (s.evaluate name x).1.closed = s.closed := by
  unfold evaluate
  split
  · rfl
  · split <;> rfl

theorem closed_evaluateExpression (text x : String) (point : Quantity) :
    (s.evaluateExpression text x point).1.closed = s.closed := by
  have hcompile : (s.compileExpression text x).1.closed = s.closed := s.closed_serveRequest _
  unfold evaluateExpression
  split
  · rename_i next handle heq
    rw [closed_evaluate, ← hcompile, heq]
  · rename_i next error heq
    rw [← hcompile, heq]

variable {s}

/-- No other call closes or opens a session. -/
theorem closed_call {call : Call} (hcall : call ≠ .close) : (call.run s).closed = s.closed := by
  cases call with
  | differentiate text x mode => exact s.closed_serveRequest _
  | compileExpression text x => exact s.closed_serveRequest _
  | evaluate name x => exact s.closed_evaluate name x
  | evaluateExpression text x point => exact s.closed_evaluateExpression text x point
  | resetStats => rfl
  | close => exact absurd rfl hcall

/-- A session is closed from the first call of `close` on. -/
theorem closed_run_iff {calls : List Call} :
    (run calls s).closed = true ↔ s.closed = true ∨ .close ∈ calls := by
  induction calls generalizing s with
  | nil => simp [run]
  | cons call calls ih =>
      have hrest : run (call :: calls) s = run calls (call.run s) := rfl
      rw [hrest, ih, List.mem_cons]
      by_cases hcall : call = .close
      · subst hcall
        exact ⟨fun _ => Or.inr (Or.inl rfl), fun _ => Or.inl s.closed_close⟩
      · rw [closed_call hcall, or_iff_right (Ne.symm hcall)]

end Closed

end Session

end Fluxion
