import Fluxion.Proofs.Session.Transparency

/-!
# What a request and an evaluation do to the cache

`Served` and `Evaluated` say all that a request and an evaluation can do to the cache of
an open session, and what they answer.  So whatever a run uses was asked for:
`Traced.task_of_mem_usedIn`.
-/

namespace Fluxion.Session

open Fluxion.Code Fluxion.Kernel Fluxion.Number

def Call.handle? [Stack] (s : Session) : Call → Option Handle
  | .differentiate text x mode => (s.differentiate text x mode).2.toOption
  | .compileExpression text x => (s.compileExpression text x).2.toOption
  | _ => none

def handles [Stack] [Machine] : List Call → Session → List Handle
  | [], _ => []
  | call :: calls, s => (call.handle? s).toList ++ handles calls (call.run s)

/-- A session with one more request that its compiler has turned down. -/
def countRejected (s : Session) : Session :=
  { s with
      cache := s.cache.countMiss.countFailure
      compiler := { s.compiler with count := s.compiler.count + 1 } }

/-! ## What a request and an evaluation can do -/

section Visits

variable [Stack] {config : Config} {table : LinkTable} {tasks : List Task} {s : Session}

/-- What serving a task does: it fails and leaves the cache alone, or its function is
there, or it is built and stored. -/
inductive Served (s : Session) (task : Task) : Prop
  | failed (error : SessionError) (hanswer : (s.serve task).2 = .error error)
      (hcache : Cache.SameTables (s.serve task).1.cache s.cache)
  | found (entry : Cache.Entry Kernel) (hpresent : s.cache.peek? task.fingerprint = some entry)
      (hanswer : (s.serve task).2 = .ok (task.handle entry.source))
      (hcache : Cache.SameTables (s.serve task).1.cache (s.cache.touch task.fingerprint))
  | built (entry : Cache.Entry Kernel) (habsent : s.cache.peek? task.fingerprint = none)
      (hname : entry.name = task.name)
      (hanswer : (s.serve task).2 = .ok (task.handle entry.source))
      (hcache : Cache.SameTables (s.serve task).1.cache
        (s.cache.store task.fingerprint task.name entry))

/-- A task whose function is not there and compiles is answered with its function, which is
stored and counted. -/
theorem Traced.serve_of_compiles (h : Traced config table tasks s) {task : Task} {code : String}
    {kernel : Kernel} (habsent : s.cache.peek? task.fingerprint = none)
    (hcode : task.code = .ok code) (hkernel : compileModule table code task.name = .ok kernel) :
    (s.serve task).2 = .ok (task.handle code) ∧
      Cache.SameTables (s.serve task).1.cache
        (s.cache.store task.fingerprint task.name ⟨task.fingerprint, task.name, code, kernel⟩) ∧
      (s.serve task).1.compiler.count = s.compiler.count + 1 := by
  have hsettle (entry : Cache.Entry Kernel) :
      Cache.SameTables (s.cache.countMiss.settle task.fingerprint task.name
        (.ok entry : Except (Cache.BuildError SessionError) (Cache.Entry Kernel)))
        (s.cache.store task.fingerprint task.name entry) :=
    Cache.sameTables_settle_ok h.consistent.idle _ _ entry 0
  rw [← h.table_eq] at hkernel
  rw [serve_of_code habsent h.consistent.idle hcode,
    build_of_compiles h.compiler_isOpen task.fingerprint hkernel]
  exact ⟨rfl, hsettle _, rfl⟩

/-- A task whose code does not compile is counted, and that is all. -/
theorem Traced.serve_of_rejected (h : Traced config table tasks s) {task : Task} {code : String}
    {cause : CompileCause} (habsent : s.cache.peek? task.fingerprint = none)
    (hcode : task.code = .ok code) (hcause : compileModule table code task.name = .error cause) :
    s.serve task = (s.countRejected, .error (.compile ⟨task.name, cause⟩)) := by
  have hidle := h.consistent.idle
  have hland : s.cache.countMiss.land task.fingerprint = s.cache.countMiss := by
    simp [Cache.land, Cache.countMiss, hidle]
  rw [← h.table_eq] at hcause
  rw [serve_of_code habsent hidle hcode, build_of_fails h.compiler_isOpen task.fingerprint hcause,
    Cache.settle, hland]
  rfl

/-- Serving a task goes one of these ways. -/
theorem Traced.served (h : Traced config table tasks s) (task : Task) : Served s task := by
  cases hpeek : s.cache.peek? task.fingerprint with
  | some entry =>
      have hserve := serve_of_present hpeek
      exact .found entry hpeek (by rw [hserve]) (by rw [hserve]; exact ⟨rfl, rfl, rfl, rfl⟩)
  | none =>
      cases hcode : task.code with
      | error error =>
          have hserve := serve_of_code_error hpeek hcode
          exact .failed error (by rw [hserve]) (by rw [hserve]; exact ⟨rfl, rfl, rfl, rfl⟩)
      | ok code =>
          cases hkernel : compileModule table code task.name with
          | ok kernel =>
              obtain ⟨hanswer, hcache, -⟩ := h.serve_of_compiles hpeek hcode hkernel
              exact .built ⟨task.fingerprint, task.name, code, kernel⟩ hpeek rfl hanswer hcache
          | error cause =>
              have hserve := h.serve_of_rejected hpeek hcode hkernel
              exact .failed _ (by rw [hserve]) (by rw [hserve]; exact ⟨rfl, rfl, rfl, rfl⟩)

/-- A request is answered with a function of its fingerprint. -/
theorem Traced.fingerprint_of_mem_servedBy (h : Traced config table tasks s) {task : Task}
    {f : String} (hf : f ∈ servedBy (s.serve task).2) : f = task.fingerprint := by
  cases h.served task with
  | failed error hanswer _ =>
      rw [hanswer] at hf
      cases hf
  | found entry _ hanswer _ =>
      rw [hanswer] at hf
      exact List.mem_singleton.mp hf
  | built entry _ _ hanswer _ =>
      rw [hanswer] at hf
      exact List.mem_singleton.mp hf

/-- What running the kernel of the function `name` comes to: its value, or a failure of the
machine. -/
def runOutcome [Machine] (name : String) (kernel : Kernel) (x : Quantity) :
    Except SessionError Quantity :=
  match Machine.failure? kernel x.toFloat with
  | none => .ok (Cache.resultOf x.error (kernel.run x.toFloat))
  | some (kind, text) => .error (.eval ⟨name, .trap kind text⟩)

/-- What an evaluation does: the name stands for nothing, or for a function of this name,
which is run. -/
inductive Evaluated [Machine] (s : Session) (name : String) (x : Quantity) : Prop
  | missing (hanswer : (s.evaluate name x).2 = .error (.eval ⟨name, .notFound⟩))
      (hcache : (s.evaluate name x).1.cache = s.cache)
  | found (fingerprint : String) (entry : Cache.Entry Kernel)
      (hfind : s.cache.fingerprintOf? name = some fingerprint)
      (hpresent : s.cache.peek? fingerprint = some entry) (hname : entry.name = name)
      (hanswer : (s.evaluate name x).2 = runOutcome name entry.payload x)
      (hcache : (s.evaluate name x).1.cache = s.cache.touch fingerprint)

omit [Stack] in
/-- A function that is found by its name is run. -/
theorem evaluate_of_find [Machine] (hopen : s.closed = false) {name fingerprint : String}
    {entry : Cache.Entry Kernel} (hfind : s.cache.fingerprintOf? name = some fingerprint)
    (hpresent : s.cache.peek? fingerprint = some entry) (x : Quantity) :
    s.evaluate name x =
      ({ s with cache := s.cache.touch fingerprint }, runOutcome name entry.payload x) := by
  simp only [evaluate, checkOpen_of_open hopen, Cache.evaluate, Cache.lookup, hfind, hpresent,
    runKernel, runOutcome]
  cases Machine.failure? entry.payload x.toFloat with
  | none => rfl
  | some failure => rfl

omit [Stack] in
/-- The function that a name stands for counts as used, whatever running it comes to. -/
theorem evaluated_of_find [Machine] (hopen : s.closed = false) {name fingerprint : String}
    {entry : Cache.Entry Kernel} (hfind : s.cache.fingerprintOf? name = some fingerprint)
    (hpresent : s.cache.peek? fingerprint = some entry) (x : Quantity) :
    s.evaluated name x = [fingerprint] := by
  rw [Session.evaluated, evaluate_of_find hopen hfind hpresent, hfind, runOutcome]
  cases Machine.failure? entry.payload x.toFloat with
  | none => rfl
  | some failure => rfl

theorem Traced.evaluated [Machine] (h : Traced config table tasks s) (name : String)
    (x : Quantity) :
    Evaluated s name x := by
  cases hfind : s.cache.fingerprintOf? name with
  | none =>
      have hevaluate : s.evaluate name x = (s, .error (.eval ⟨name, .notFound⟩)) := by
        simp only [Session.evaluate, checkOpen_of_open h.isOpen, Cache.evaluate, Cache.lookup,
          hfind, evalFailure]
      exact .missing (by rw [hevaluate]) (by rw [hevaluate])
  | some fingerprint =>
      obtain ⟨entry, hpresent, hname⟩ :=
        h.consistent.named name fingerprint (Cache.mem_of_lookup hfind)
      have hevaluate := evaluate_of_find h.isOpen hfind hpresent x
      exact .found fingerprint entry hfind hpresent hname (by rw [hevaluate]) (by rw [hevaluate])

/-- The function that an evaluation runs comes from a task. -/
theorem Traced.task_of_mem_evaluated [Machine] (h : Traced config table tasks s) {name : String}
    {x : Quantity} {f : String} (hf : f ∈ s.evaluated name x) :
    ∃ task ∈ tasks, task.fingerprint = f := by
  cases h.evaluated name x with
  | missing hanswer _ =>
      rw [Session.evaluated, hanswer] at hf
      cases hf
  | found fingerprint entry hfind hpresent _ _ _ =>
      rw [evaluated_of_find h.isOpen hfind hpresent] at hf
      obtain rfl := List.mem_singleton.mp hf
      obtain ⟨task, htask, hcompiled⟩ := h.origin f entry hpresent
      exact ⟨task, htask, h.fingerprint_of_compiled hpresent hcompiled⟩

theorem Traced.task_of_mem_servedBy (h : Traced config table tasks s)
    {request : Except SessionError Task} (hmem : ∀ task, request = .ok task → task ∈ tasks)
    {f : String} (hf : f ∈ servedBy (s.serveRequest request).2) :
    ∃ task ∈ tasks, task.fingerprint = f := by
  cases request with
  | error error =>
      rw [serveRequest_error_of_open h.isOpen] at hf
      cases hf
  | ok task =>
      rw [serveRequest_of_open h.isOpen] at hf
      exact ⟨task, hmem task rfl, (h.fingerprint_of_mem_servedBy hf).symm⟩

/-- A function that is used was made for one of the tasks. -/
theorem Traced.task_of_mem_used [Machine] (h : Traced config table tasks s) {call : Call}
    (hmem : ∀ task, call.task? config = some task → task ∈ tasks) {f : String}
    (hf : f ∈ call.used s) : ∃ task ∈ tasks, task.fingerprint = f := by
  cases call with
  | differentiate text x mode =>
      refine h.task_of_mem_servedBy (fun task htask => hmem task ?_) hf
      exact toOption_eq_some.mpr (h.config_eq ▸ htask)
  | compileExpression text x =>
      exact h.task_of_mem_servedBy (fun task htask => hmem task (toOption_eq_some.mpr htask)) hf
  | evaluate name x => exact h.task_of_mem_evaluated hf
  | evaluateExpression text x point =>
      have htasks : ∀ task, valueTask text x = .ok task → task ∈ tasks := fun task htask =>
        hmem task (toOption_eq_some.mpr htask)
      have hnext : Traced config table tasks (s.compileExpression text x).1 :=
        h.serveRequest htasks
      have hserved (hf : f ∈ servedBy (s.compileExpression text x).2) :
          ∃ task ∈ tasks, task.fingerprint = f :=
        h.task_of_mem_servedBy htasks hf
      rw [Call.used] at hf
      cases hcompile : s.compileExpression text x with
      | mk next answer =>
          rw [hcompile] at hf hnext hserved
          cases answer with
          | error error => cases hf
          | ok handle =>
              rcases List.mem_cons.mp hf with rfl | hrun
              · exact hserved (List.mem_singleton_self _)
              · exact hnext.task_of_mem_evaluated hrun
  | resetStats => cases hf
  | close => cases hf

/-- What a run uses was asked for. -/
theorem Traced.task_of_mem_usedIn [Machine] (h : Traced config table tasks s) {calls : List Call}
    (hopen : .close ∉ calls) (hmem : ∀ task ∈ asked config calls, task ∈ tasks) {f : String}
    (hf : f ∈ usedIn calls s) : ∃ task ∈ tasks, task.fingerprint = f := by
  induction calls generalizing s with
  | nil => cases hf
  | cons call calls ih =>
      rw [List.mem_cons, not_or] at hopen
      have hfirst : ∀ task, call.task? config = some task → task ∈ tasks := fun task htask =>
        hmem task (mem_asked List.mem_cons_self htask)
      rcases List.mem_append.mp hf with hthis | hlater
      · exact h.task_of_mem_used hfirst hthis
      · exact ih (h.call (Ne.symm hopen.1) hfirst) hopen.2 (fun task htask => hmem task
          (asked_subset (fun _ => List.mem_cons_of_mem call) task htask)) hlater

end Visits

end Fluxion.Session
