import Fluxion.Proofs.Session.Run

/-!
# What the calls of a run ask for and use

A call asks for the function of a task, and if it succeeds it uses a function: the one
that it returns a handle of, or the one that it runs.  `asked` lists the tasks of a run
and `usedIn` the fingerprints of the functions that it uses.

A property that requests and evaluations keep, as long as what they use is allowed, is
kept by every run that does not close the session: `KeptByVisits.run`.
-/

namespace Fluxion.Session

open Fluxion.Number

def Call.task? (config : Config) : Call → Option Task
  | .differentiate text x mode => (config.derivativeTask text x mode).toOption
  | .compileExpression text x => (valueTask text x).toOption
  | .evaluateExpression text x _ => (valueTask text x).toOption
  | _ => none

def asked (config : Config) (calls : List Call) : List Task :=
  calls.filterMap (Call.task? config)

/-- The fingerprint of the function that a request is answered with. -/
def servedBy : Except SessionError Handle → List String
  | .ok handle => [handle.fingerprint]
  | .error _ => []

/-- The fingerprint of the function that an evaluation runs, if it comes to a value or a
failure of the machine. -/
def evaluated [Machine] (s : Session) (name : String) (x : Quantity) : List String :=
  match (s.evaluate name x).2 with
  | .ok _ => (s.cache.fingerprintOf? name).toList
  | .error (.eval ⟨_, .trap _ _⟩) => (s.cache.fingerprintOf? name).toList
  | .error _ => []

def Call.used [Stack] [Machine] (s : Session) : Call → List String
  | .differentiate text x mode => servedBy (s.differentiate text x mode).2
  | .compileExpression text x => servedBy (s.compileExpression text x).2
  | .evaluate name x => s.evaluated name x
  | .evaluateExpression text x point =>
      match s.compileExpression text x with
      | (s, .ok handle) => handle.fingerprint :: s.evaluated handle.name point
      | (_, .error _) => []
  | .resetStats => []
  | .close => []

def usedIn [Stack] [Machine] : List Call → Session → List String
  | [], _ => []
  | call :: calls, s => call.used s ++ usedIn calls (call.run s)

theorem mem_asked {config : Config} {calls : List Call} {call : Call} {task : Task}
    (hcall : call ∈ calls) (htask : call.task? config = some task) : task ∈ asked config calls :=
  List.mem_filterMap.mpr ⟨call, hcall, htask⟩

theorem asked_subset {config : Config} {calls others : List Call}
    (h : ∀ call ∈ calls, call ∈ others) :
    ∀ task ∈ asked config calls, task ∈ asked config others := by
  intro task htask
  obtain ⟨call, hcall, heq⟩ := List.mem_filterMap.mp htask
  exact mem_asked (h call hcall) heq

theorem usedIn_append [Stack] [Machine] (calls later : List Call) (s : Session) :
    usedIn (calls ++ later) s = usedIn calls s ++ usedIn later (run calls s) := by
  induction calls generalizing s with
  | nil => rfl
  | cons call calls ih =>
      rw [List.cons_append, usedIn, usedIn, ih, List.append_assoc]
      rfl

/-! ## What a whole run keeps -/

/-- A property of open sessions that requests for the tasks and evaluations keep, as long
as the functions that they use are allowed. -/
structure KeptByVisits [Stack] [Machine] (config : Config) (tasks : List Task)
    (allowed : String → Prop)
    (P : Session → Prop) : Prop where
  config_eq : ∀ s, P s → s.config = config
  isOpen : ∀ s, P s → s.closed = false
  serve : ∀ s task, P s → task ∈ tasks → (∀ f ∈ servedBy (s.serve task).2, allowed f) →
    P (s.serve task).1
  evaluate : ∀ s name x, P s → (∀ f ∈ s.evaluated name x, allowed f) → P (s.evaluate name x).1
  resetStats : ∀ s, P s → P s.resetStats

namespace KeptByVisits

variable [Stack] [Machine] {config : Config} {tasks : List Task} {allowed : String → Prop}
  {P : Session → Prop}
  {s : Session}

/-- A property that serving keeps is kept by any request for one of the tasks. -/
theorem serveRequest (h : KeptByVisits config tasks allowed P) (hP : P s)
    {request : Except SessionError Task} (hmem : ∀ task, request = .ok task → task ∈ tasks)
    (hused : ∀ f ∈ servedBy (s.serveRequest request).2, allowed f) :
    P (s.serveRequest request).1 := by
  cases request with
  | error error =>
      rw [serveRequest_error_of_open (h.isOpen s hP)]
      exact hP
  | ok task =>
      rw [serveRequest_of_open (h.isOpen s hP)] at hused ⊢
      exact h.serve s task hP (hmem task rfl) hused

theorem evaluateExpression (h : KeptByVisits config tasks allowed P) (hP : P s)
    {text x : String} {point : Quantity} (hmem : ∀ task, valueTask text x = .ok task → task ∈ tasks)
    (hused : ∀ f ∈ Call.used s (.evaluateExpression text x point), allowed f) :
    P (s.evaluateExpression text x point).1 := by
  have hcompiled := h.serveRequest hP hmem
  change (∀ f ∈ servedBy (s.compileExpression text x).2, allowed f) →
    P (s.compileExpression text x).1 at hcompiled
  rw [Call.used] at hused
  rw [Session.evaluateExpression]
  cases hcompile : s.compileExpression text x with
  | mk next answer =>
      rw [hcompile] at hcompiled hused
      cases answer with
      | ok handle =>
          have hnext : P next := hcompiled fun f hf =>
            hused f (List.mem_singleton.mp hf ▸ List.mem_cons_self)
          exact h.evaluate next handle.name point hnext fun f hf =>
            hused f (List.mem_cons_of_mem _ hf)
      | error error => exact hcompiled fun f hf => absurd hf List.not_mem_nil

theorem call (h : KeptByVisits config tasks allowed P) (hP : P s) {call : Call}
    (hcall : call ≠ .close) (hmem : ∀ task, call.task? config = some task → task ∈ tasks)
    (hused : ∀ f ∈ call.used s, allowed f) : P (call.run s) := by
  cases call with
  | differentiate text x mode =>
      refine h.serveRequest hP (fun task htask => hmem task ?_) hused
      exact toOption_eq_some.mpr (h.config_eq s hP ▸ htask)
  | compileExpression text x =>
      exact h.serveRequest hP (fun task htask => hmem task (toOption_eq_some.mpr htask)) hused
  | evaluate name x => exact h.evaluate s name x hP hused
  | evaluateExpression text x point =>
      exact h.evaluateExpression hP (fun task htask => hmem task (toOption_eq_some.mpr htask))
        hused
  | resetStats => exact h.resetStats s hP
  | close => exact absurd rfl hcall

/-- A property of this kind holds after every run that closes nothing, makes no other tasks and
uses only what is allowed. -/
theorem run (h : KeptByVisits config tasks allowed P) (hP : P s) {calls : List Call}
    (hopen : .close ∉ calls) (hmem : ∀ task ∈ asked config calls, task ∈ tasks)
    (hused : ∀ f ∈ usedIn calls s, allowed f) : P (Session.run calls s) := by
  induction calls generalizing s with
  | nil => exact hP
  | cons call calls ih =>
      rw [List.mem_cons, not_or] at hopen
      simp only [usedIn, List.mem_append] at hused
      have hfirst : P (call.run s) := by
        refine h.call hP (Ne.symm hopen.1) (fun task htask => hmem task ?_) fun f hf =>
          hused f (Or.inl hf)
        exact mem_asked List.mem_cons_self htask
      refine ih hfirst hopen.2 (fun task htask => hmem task ?_) fun f hf => hused f (Or.inr hf)
      exact asked_subset (fun _ => List.mem_cons_of_mem call) task htask

end KeptByVisits

end Fluxion.Session
