import Fluxion.Proofs.Session.Constant

/-!
# Sessions that were closed

Closing a session empties its cache and closes its compiler.  Nothing opens it again: every
request and every evaluation is refused before it reaches the cache, so that a closed
session can only be closed again, which changes nothing, or have its statistics started
anew.

What only looks at the configuration is not refused: the fingerprint and the code of a
derivative are told after closing as before.

* `Ended` is what closing leaves.
* `ended_run` is the main statement.
-/

namespace Fluxion.Session

open Fluxion.Code Fluxion.Kernel Fluxion.Number

/-- A session of a configuration that holds nothing and lets nothing in. -/
structure Ended (config : Config) (s : Session) : Prop where
  config_eq : s.config = config
  closed : s.closed = true
  compiler_closed : s.compiler.closed = true
  namespaces : s.compiler.namespaces = []
  entries : s.cache.entries = []
  names : s.cache.names = []
  idle : s.cache.inFlight = []

/-! ## Calls of a closed session -/

section Refused

variable [Stack] [Machine] {s : Session} (h : s.closed = true)

include h

omit [Machine] in
theorem differentiate_of_closed (text x : String) (mode : Option String) :
    s.differentiate text x mode = (s, .error .closed) :=
  serveRequest_of_closed h _

omit [Machine] in
theorem compileExpression_of_closed (text x : String) :
    s.compileExpression text x = (s, .error .closed) :=
  serveRequest_of_closed h _

omit [Stack] in
theorem evaluate_of_closed (name : String) (x : Quantity) :
    s.evaluate name x = (s, .error .closed) := by
  have hopen : s.checkOpen = .error .closed := by rw [checkOpen, if_pos h]
  rw [evaluate, hopen]

theorem evaluateExpression_of_closed (text x : String) (point : Quantity) :
    s.evaluateExpression text x point = (s, .error .closed) := by
  rw [evaluateExpression, compileExpression_of_closed h]

omit [Stack] [Machine] in
theorem close_of_closed : s.close = s := by
  rw [close, if_pos h]

/-- A call of a closed session starts its statistics anew, or does nothing. -/
theorem call_of_closed (call : Call) : call.run s = s ∨ call.run s = s.resetStats := by
  cases call with
  | differentiate text x mode =>
      exact Or.inl (congrArg Prod.fst (differentiate_of_closed h text x mode))
  | compileExpression text x =>
      exact Or.inl (congrArg Prod.fst (compileExpression_of_closed h text x))
  | evaluate name x => exact Or.inl (congrArg Prod.fst (evaluate_of_closed h name x))
  | evaluateExpression text x point =>
      exact Or.inl (congrArg Prod.fst (evaluateExpression_of_closed h text x point))
  | resetStats => exact Or.inr rfl
  | close => exact Or.inl (close_of_closed h)

/-- Nothing but the statistics of a closed session can change. -/
theorem run_of_closed (calls : List Call) : run calls s = s ∨ run calls s = s.resetStats := by
  induction calls generalizing s with
  | nil => exact Or.inl rfl
  | cons call calls ih =>
      change run calls (call.run s) = s ∨ run calls (call.run s) = s.resetStats
      rcases call_of_closed h call with hcall | hcall
      · rw [hcall]
        exact ih h
      · rw [hcall]
        exact Or.inr ((@ih s.resetStats h).elim id id)

end Refused

/-! ## What closing leaves -/

namespace Ended

variable [Stack] {config : Config} {s : Session}

omit [Stack] in
theorem resetStats (h : Ended config s) : Ended config s.resetStats :=
  ⟨h.config_eq, h.closed, h.compiler_closed, h.namespaces, h.entries, h.names, h.idle⟩

theorem run [Machine] (h : Ended config s) (calls : List Call) :
    Ended config (Session.run calls s) := by
  rcases run_of_closed h.closed calls with hrun | hrun
  · rw [hrun]
    exact h
  · rw [hrun]
    exact h.resetStats

omit [Stack] in
/-- What is told of a derivative without a compiler does not depend on the session. -/
theorem fingerprint_eq (h : Ended config s) (text x : String) (mode : Option String) :
    s.fingerprint text x mode = (new config).fingerprint text x mode := by
  unfold fingerprint
  rw [h.config_eq]
  rfl

theorem derivativeCode_eq (h : Ended config s) (text x : String) (mode : Option String) :
    s.derivativeCode text x mode = (new config).derivativeCode text x mode := by
  unfold derivativeCode
  rw [h.config_eq]
  rfl

/-- The compiler of an ended session refuses to work. -/
theorem compile_eq (h : Ended config s) (source name fingerprint : String) :
    s.compiler.compile source name fingerprint = (s.compiler, .error .closed) := by
  rw [Compiler.compile, CompilerOver.compileWith, if_pos h.compiler_closed]

end Ended

/-- Closing ends a session. -/
theorem Traced.ended_close [Stack] {config : Config} {table : LinkTable} {tasks : List Task}
    {s : Session}
    (h : Traced config table tasks s) : Ended config s.close := by
  rw [close, h.isOpen]
  exact ⟨h.config_eq, rfl, rfl, rfl, rfl, rfl, h.consistent.idle⟩

/-- Whatever was called before and after, a session that was closed holds nothing. -/
theorem ended_of_close_mem [Stack] [Machine] (config : Config) (symbols : LinkTable)
    {calls : List Call}
    (hclose : .close ∈ calls) : Ended config (run calls (newWith config symbols)) := by
  obtain ⟨before, after, rfl, hbefore⟩ := List.eq_append_cons_of_mem hclose
  have hopen := (Traced.newWith config symbols (asked config before)).run hbefore
    fun _ htask => htask
  rw [run, List.foldl_append, List.foldl_cons]
  exact hopen.ended_close.run after

/-! ## The main statement -/

/-- Closed means closed, for whatever needs the cache or the compiler.  After a history with
a close and any further calls, requests and evaluations are refused and change nothing, the
cache and the compiler hold nothing, the compiler compiles nothing and never counts again,
and closing again changes nothing; at most the statistics were started anew.

The fingerprint and the code of a derivative are told as by a new session. -/
theorem ended_run [Stack] [Machine] (config : Config) (symbols : LinkTable)
    (calls later : List Call)
    (hclose : .close ∈ calls) :
    let s := run calls (newWith config symbols)
    let after := run later s
    Ended config after ∧
      (∀ text x mode, after.differentiate text x mode = (after, .error .closed)) ∧
      (∀ text x, after.compileExpression text x = (after, .error .closed)) ∧
      (∀ name x, after.evaluate name x = (after, .error .closed)) ∧
      (∀ text x point, after.evaluateExpression text x point = (after, .error .closed)) ∧
      (∀ source name fingerprint,
        after.compiler.compile source name fingerprint = (after.compiler, .error .closed)) ∧
      after.compiler.count = s.compiler.count ∧ after.close = after ∧
      (after = s ∨ after = s.resetStats) ∧
      ∀ text x mode, after.fingerprint text x mode = (new config).fingerprint text x mode ∧
        after.derivativeCode text x mode = (new config).derivativeCode text x mode := by
  intro s after
  have hs : Ended config s := ended_of_close_mem config symbols hclose
  have hafter : Ended config after := hs.run later
  have hrun : after = s ∨ after = s.resetStats := run_of_closed hs.closed later
  have hcount : after.compiler.count = s.compiler.count := by
    rcases hrun with heq | heq
    · rw [heq]
    · rw [heq]
      rfl
  exact ⟨hafter, differentiate_of_closed hafter.closed, compileExpression_of_closed hafter.closed,
    evaluate_of_closed hafter.closed, evaluateExpression_of_closed hafter.closed,
    hafter.compile_eq, hcount, close_of_closed hafter.closed, hrun,
    fun text x mode => ⟨hafter.fingerprint_eq text x mode, hafter.derivativeCode_eq text x mode⟩⟩

/-- A session is closed after it has compiled a function, and used again. -/
theorem ended_run_used :
    let before := [Call.differentiate "x" "x" none]
    let calls := before ++ [.close, .differentiate "x" "x" none]
    let later := [Call.evaluate lineTask.name (.fast 1.0 0.0), .resetStats, .close]
    let after := run later (run calls (newWith oneFunction []))
    (run before (newWith oneFunction [])).cache.order = [lineTask.fingerprint] ∧
      .close ∈ calls ∧ Ended oneFunction after ∧
      after.differentiate "x" "x" none = (after, .error .closed) ∧
      after.compiler.count = 1 ∧ after.close = after := by
  intro before calls later after
  obtain ⟨horder, -, hcount⟩ := run_line []
  have hclose : .close ∈ calls := by simp [calls]
  have h := ended_run oneFunction [] calls later hclose
  have hopen : (run before (newWith oneFunction [])).closed = false := closed_serveRequest _ _
  -- nothing is compiled from the close on
  have hcalls : run calls (newWith oneFunction []) =
      (run before (newWith oneFunction [])).close := by
    change ((run before (newWith oneFunction [])).close.differentiate "x" "x" none).1 = _
    rw [differentiate_of_closed (closed_close _)]
  have hkept : (run calls (newWith oneFunction [])).compiler.count = 1 := by
    rw [hcalls, close, hopen]
    exact hcount
  exact ⟨horder, hclose, h.1, h.2.1 "x" "x" none, h.2.2.2.2.2.2.1.trans hkept, h.2.2.2.2.2.2.2.1⟩

/-- A closed session still tells the fingerprint and the code of the derivative of `x`. -/
theorem not_refused_of_closed :
    ¬ ∀ (config : Config) (symbols : LinkTable) (calls : List Call), .close ∈ calls →
      ∀ text x mode,
        (run calls (newWith config symbols)).fingerprint text x mode = .error .closed ∧
          (run calls (newWith config symbols)).derivativeCode text x mode = .error .closed := by
  intro h
  have hrefused := (h oneFunction [] [.close] (List.mem_singleton_self _) "x" "x" none).1
  have hparse : Source.parse true "x" = .ok (.var "x") := by with_unfolding_all rfl
  have htold : (run [.close] (newWith oneFunction [])).fingerprint "x" "x" none =
      .ok (Task.mk (.var "x") "x" (some .forward)).fingerprint := by
    rw [fingerprint, readExpression, hparse]
    rfl
  rw [htold] at hrefused
  cases hrefused

end Fluxion.Session
