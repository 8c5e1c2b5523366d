import Fluxion.Proofs.Cache.Window
import Fluxion.Proofs.Session.Constant
import Fluxion.Proofs.Session.Identity

/-!
# How long a handle stays usable

A handle names its function by the first digits of the fingerprint.  As long as these
digits tell the functions of a run apart, the function of a handle that was just returned
or evaluated is found by its name until the cache needs its place for other functions,
and it is the same function until then.

It is the function that was compiled from the code of the handle, except where requests
share a fingerprint but not their code: a function that was dropped may then have been
compiled again from other code.

* `Accounted` is the invariant of all runs, `Holding` the one of the window.
* `evaluate_within_window` is the main statement.
-/

namespace Fluxion.Session

open Fluxion.Code Fluxion.Expr Fluxion.Kernel Fluxion.Number Fluxion.Source Fluxion.Text

/-- The digits that are in names tell fingerprints apart. -/
def NamedApart (fingerprints : List String) : Prop :=
  ∀ f ∈ fingerprints, ∀ g ∈ fingerprints,
    f.toList.take Task.namedDigits = g.toList.take Task.namedDigits → f = g

/-- No two messages of the tasks have one digest. -/
def CollisionFree (tasks : List Task) : Prop :=
  ∀ t ∈ tasks, ∀ u ∈ tasks, t.fingerprint = u.fingerprint → t.message = u.message

/-- No task of a fingerprint has an infinite constant, or none has the name of infinity as
a variable. -/
def ClearOfInfinity (tasks : List Task) (fingerprint : String) : Prop :=
  (∀ t ∈ tasks, t.fingerprint = fingerprint → t.expression.hasInfinity = false) ∨
    ∀ t ∈ tasks, t.fingerprint = fingerprint → t.expression.dependsOn infinityName = false

/-! ## Tasks that share a fingerprint -/

/-- The parts of a task were read from texts. -/
structure Task.Read (task : Task) : Prop where
  plain : task.expression.Plain
  isName : Text.isName task.x = true

theorem plain_of_readExpression {lenient : Bool} {text : String} {e : Tree}
    (h : readExpression lenient text = .ok e) : e.Plain := by
  unfold readExpression at h
  split at h
  · rename_i hparse
    rw [← Except.ok.inj h]
    exact plain_of_parse hparse
  · cases h

theorem Task.read_of_derivativeTask {config : Config} {text x : String} {mode : Option String}
    {task : Task} (h : config.derivativeTask text x mode = .ok task) : task.Read := by
  obtain ⟨_, hx, h⟩ := bind_eq_ok.mp h
  obtain ⟨_, -, h⟩ := bind_eq_ok.mp h
  obtain ⟨e, he, h⟩ := bind_eq_ok.mp h
  rw [← Except.ok.inj h]
  exact ⟨plain_of_readExpression he, isName_of_checkVariable hx⟩

theorem Task.read_of_valueTask {text x : String} {task : Task}
    (h : valueTask text x = .ok task) : task.Read := by
  obtain ⟨_, hx, h⟩ := bind_eq_ok.mp h
  obtain ⟨e, he, h⟩ := bind_eq_ok.mp h
  rw [← Except.ok.inj h]
  exact ⟨plain_of_readExpression he, isName_of_checkVariable hx⟩

theorem read_of_mem_asked {config : Config} {calls : List Call} {task : Task}
    (h : task ∈ asked config calls) : task.Read := by
  obtain ⟨call, -, htask⟩ := List.mem_filterMap.mp h
  cases call with
  | differentiate text x mode => exact Task.read_of_derivativeTask (toOption_eq_some.mp htask)
  | compileExpression text x => exact Task.read_of_valueTask (toOption_eq_some.mp htask)
  | evaluateExpression text x point => exact Task.read_of_valueTask (toOption_eq_some.mp htask)
  | evaluate name x => cases htask
  | resetStats => cases htask
  | close => cases htask

section Shared

variable {tasks : List Task} {t u : Task} (hread : ∀ task ∈ tasks, task.Read)
  (hdigest : CollisionFree tasks) (ht : t ∈ tasks) (hu : u ∈ tasks)
  (hfingerprint : t.fingerprint = u.fingerprint)

include hread hdigest ht hu hfingerprint

/-- Tasks with one fingerprint are for functions of one name. -/
theorem name_eq_of_collisionFree : t.name = u.name := by
  have hmessage := hdigest t ht u hu hfingerprint
  obtain ⟨-, -, htag⟩ := (Task.message_eq_iff (hread t ht).plain (hread u hu).plain
    (hread t ht).isName (hread u hu).isName).mp hmessage
  exact Task.name_eq_of_fingerprint_eq hfingerprint htag

/-- Where infinity has one spelling, tasks that share a fingerprint are the same. -/
theorem eq_of_collisionFree (hclear : ClearOfInfinity tasks t.fingerprint) : t = u := by
  have hmessage := hdigest t ht u hu hfingerprint
  obtain ⟨hnamed, hx, htag⟩ := (Task.message_eq_iff (hread t ht).plain (hread u hu).plain
    (hread t ht).isName (hread u hu).isName).mp hmessage
  have hexpression : t.expression = u.expression := by
    refine (hread t ht).plain.eq_of_nameInfinity_eq (hread u hu).plain hnamed ?_
    rcases hclear with hfinite | hfree
    · exact Or.inl ⟨hfinite t ht rfl, hfinite u hu hfingerprint.symm⟩
    · exact Or.inr ⟨hfree t ht rfl, hfree u hu hfingerprint.symm⟩
  exact Task.eq_of_parts hexpression hx htag

end Shared

/-! ## The invariant of all runs -/

/-- The session is open, every function in its cache is what one of the tasks compiles to,
and it is found there by its name. -/
structure Accounted [Stack] (config : Config) (table : LinkTable) (tasks : List Task)
    (used : List String) (s : Session) : Prop where
  traced : Traced config table tasks s
  indexed : s.cache.Indexed config.cacheBound used

/-- A handle was made for a task, with the code of a task of the same fingerprint. -/
structure Issued [Stack] (tasks : List Task) (used : List String) (handle : Handle) : Prop where
  mem_used : handle.fingerprint ∈ used
  named : ∃ task ∈ tasks, task.fingerprint = handle.fingerprint ∧ task.name = handle.name
  coded : ∃ task ∈ tasks, task.fingerprint = handle.fingerprint ∧ task.code = .ok handle.code

variable {config : Config} {table : LinkTable} {tasks : List Task} {used : List String}
  {s : Session} {task : Task} {handle : Handle} {others : Finset String}

section Runs

variable [Stack]

/-- A function that a request is answered with was just used. -/
theorem Traced.held_of_serve (h : Traced config table tasks s) (others : Finset String)
    (hanswer : (s.serve task).2 = .ok handle) :
    ∃ entry, (s.serve task).1.cache.Held handle.fingerprint entry others ∧
      handle = task.handle entry.source := by
  cases h.served task with
  | failed error hfailed hcache =>
      rw [hfailed] at hanswer
      cases hanswer
  | found entry hpresent hfound hcache =>
      obtain rfl := Except.ok.inj (hfound.symm.trans hanswer)
      exact ⟨entry, (Cache.Held.of_touch_self h.consistent.order_nodup hpresent others).of_sameTables
        hcache, rfl⟩
  | built entry habsent hname hbuilt hcache =>
      obtain rfl := Except.ok.inj (hbuilt.symm.trans hanswer)
      exact ⟨entry, (Cache.Held.of_store_self habsent task.name entry others).of_sameTables hcache,
        rfl⟩

namespace Accounted

theorem newWith (config : Config) (symbols : LinkTable) (tasks : List Task)
    (used : List String) :
    Accounted config (symbols ++ defaultLinkTable) tasks used
      (Session.newWith config symbols) where
  traced := Traced.newWith config symbols tasks
  indexed := Cache.Indexed.empty config.cacheBound config.cacheBound_pos used

/-- The name of a function that is not in the cache is free. -/
theorem name_free (h : Accounted config table tasks used s) (hnames : NamedApart used)
    (hused : task.fingerprint ∈ used) (habsent : s.cache.peek? task.fingerprint = none)
    (key : String) (e : Cache.Entry Kernel) (hpeek : s.cache.peek? key = some e) :
    e.name ≠ task.name := by
  intro hname
  obtain ⟨origin, -, hcompiled⟩ := h.traced.origin key e hpeek
  have hkey : origin.fingerprint = key := h.traced.fingerprint_of_compiled hpeek hcompiled
  have hdigits := Task.take_fingerprint_of_name_eq (hcompiled.name.symm.trans hname)
  have hmem : origin.fingerprint ∈ used :=
    hkey ▸ h.indexed.mem_used key (Cache.mem_order_iff.mpr ⟨e, hpeek⟩)
  have hsame := hnames _ hmem _ hused hdigits
  rw [← hsame, hkey, hpeek] at habsent
  cases habsent

theorem serve (h : Accounted config table tasks used s) (hnames : NamedApart used)
    (hmem : task ∈ tasks) (hused : ∀ f ∈ servedBy (s.serve task).2, f ∈ used) :
    Accounted config table tasks used (s.serve task).1 := by
  refine ⟨h.traced.serve hmem, ?_⟩
  cases h.traced.served task with
  | failed error hfailed hcache => exact h.indexed.of_sameTables hcache
  | found entry hpresent hfound hcache =>
      exact (h.indexed.touch task.fingerprint).of_sameTables hcache
  | built entry habsent hname hbuilt hcache =>
      have hfresh : task.fingerprint ∈ used :=
        hused _ (by rw [hbuilt]; exact List.mem_singleton_self _)
      exact (h.indexed.store h.traced.consistent habsent hfresh hname
        (h.name_free hnames hfresh habsent)).of_sameTables hcache

theorem evaluate [Machine] (h : Accounted config table tasks used s) (name : String)
    (x : Quantity) :
    Accounted config table tasks used (s.evaluate name x).1 := by
  refine ⟨h.traced.evaluate name x, ?_⟩
  cases h.traced.evaluated name x with
  | missing hmissing hcache => rw [hcache]; exact h.indexed
  | found fingerprint entry hfind hpresent hname hfound hcache =>
      rw [hcache]
      exact h.indexed.touch fingerprint

theorem resetStats (h : Accounted config table tasks used s) :
    Accounted config table tasks used s.resetStats where
  traced := h.traced.resetStats
  indexed := h.indexed.of_sameTables ⟨rfl, rfl, rfl, rfl⟩

theorem kept [Machine] (hnames : NamedApart used) :
    KeptByVisits config tasks (· ∈ used) (Accounted config table tasks used) where
  config_eq := fun _ h => h.traced.config_eq
  isOpen := fun _ h => h.traced.isOpen
  serve := fun _ _ h hmem hused => h.serve hnames hmem hused
  evaluate := fun _ name x h _ => h.evaluate name x
  resetStats := fun _ h => h.resetStats

end Accounted

/-! ## Handles that were returned -/

/-- A call that returns a handle serves a task. -/
theorem Traced.of_handle? [Machine] (h : Traced config table tasks s) {call : Call}
    (hmem : ∀ task, call.task? config = some task → task ∈ tasks)
    (hhandle : call.handle? s = some handle) :
    ∃ task ∈ tasks, call.run s = (s.serve task).1 ∧ (s.serve task).2 = .ok handle ∧
      call.used s = [handle.fingerprint] := by
  have hserved {request : Except SessionError Task}
      (hrequest : ∀ task, request = .ok task → task ∈ tasks)
      (hanswer : (s.serveRequest request).2.toOption = some handle) :
      ∃ task ∈ tasks, (s.serveRequest request).1 = (s.serve task).1 ∧
        (s.serve task).2 = .ok handle ∧
        servedBy (s.serveRequest request).2 = [handle.fingerprint] := by
    rw [toOption_eq_some] at hanswer
    cases request with
    | error error =>
        rw [serveRequest_error_of_open h.isOpen] at hanswer
        cases hanswer
    | ok task =>
        rw [serveRequest_of_open h.isOpen] at hanswer ⊢
        exact ⟨task, hrequest task rfl, rfl, hanswer, by rw [hanswer]; rfl⟩
  cases call with
  | differentiate text x mode =>
      refine hserved (fun task htask => hmem task ?_) hhandle
      exact toOption_eq_some.mpr (h.config_eq ▸ htask)
  | compileExpression text x =>
      exact hserved (fun task htask => hmem task (toOption_eq_some.mpr htask)) hhandle
  | evaluate name x => cases hhandle
  | evaluateExpression text x point => cases hhandle
  | resetStats => cases hhandle
  | close => cases hhandle

/-- What a request is answered with is a handle of its task. -/
theorem Traced.issued_of_serve (h : Traced config table tasks s) (hmem : task ∈ tasks)
    (hanswer : (s.serve task).2 = .ok handle) (hused : handle.fingerprint ∈ used) :
    Issued tasks used handle := by
  obtain ⟨entry, hheld, rfl⟩ := h.held_of_serve ∅ hanswer
  obtain ⟨origin, horigin, hcompiled⟩ := (h.serve hmem).origin _ entry hheld.present
  exact ⟨hused, ⟨task, hmem, rfl, rfl⟩, origin, horigin,
    (h.serve hmem).fingerprint_of_compiled hheld.present hcompiled, hcompiled.code⟩

/-- Every handle of a run was made for one of its tasks. -/
theorem Accounted.issued_of_mem_handles [Machine] (h : Accounted config table tasks used s)
    (hnames : NamedApart used) {calls : List Call} (hopen : .close ∉ calls)
    (hmem : ∀ task ∈ asked config calls, task ∈ tasks) (hused : ∀ f ∈ usedIn calls s, f ∈ used)
    (hhandle : handle ∈ handles calls s) : Issued tasks used handle := by
  induction calls generalizing s with
  | nil => exact absurd hhandle List.not_mem_nil
  | cons call calls ih =>
      rw [List.mem_cons, not_or] at hopen
      simp only [usedIn, List.mem_append] at hused
      simp only [handles, List.mem_append, Option.mem_toList] at hhandle
      have hfirst : ∀ task, call.task? config = some task → task ∈ tasks := fun task htask =>
        hmem task (mem_asked List.mem_cons_self htask)
      rcases hhandle with hthis | hlater
      · obtain ⟨task, htask, -, hanswer, hcall⟩ := h.traced.of_handle? hfirst hthis
        refine h.traced.issued_of_serve htask hanswer (hused _ (Or.inl ?_))
        rw [hcall]
        exact List.mem_singleton_self _
      · refine ih ((Accounted.kept hnames).call h (Ne.symm hopen.1) hfirst fun f hf =>
          hused f (Or.inl hf)) hopen.2 (fun task htask => hmem task ?_)
          (fun f hf => hused f (Or.inr hf)) hlater
        exact asked_subset (fun _ => List.mem_cons_of_mem call) task htask

/-! ## The invariant of the window -/

/-- The function of a fingerprint stays while the others are used. -/
structure Holding (config : Config) (table : LinkTable) (tasks : List Task)
    (used : List String) (fingerprint : String) (entry : Cache.Entry Kernel)
    (others : Finset String) (s : Session) : Prop where
  accounted : Accounted config table tasks used s
  held : s.cache.Held fingerprint entry others

namespace Holding

variable {fingerprint : String} {entry : Cache.Entry Kernel}

theorem serve (h : Holding config table tasks used fingerprint entry others s)
    (hnames : NamedApart used) (hroom : Cache.RoomFor config.cacheBound others)
    (hmem : task ∈ tasks)
    (hused : ∀ f ∈ servedBy (s.serve task).2, f ∈ used ∧ (f = fingerprint ∨ f ∈ others)) :
    Holding config table tasks used fingerprint entry others (s.serve task).1 := by
  refine ⟨h.accounted.serve hnames hmem fun f hf => (hused f hf).1, ?_⟩
  have hconsistent := h.accounted.traced.consistent
  cases h.accounted.traced.served task with
  | failed error hfailed hcache => exact h.held.of_sameTables hcache
  | found other hpresent hfound hcache =>
      have hkey := (hused task.fingerprint (by rw [hfound]; exact List.mem_singleton_self _)).2
      exact (h.held.touch hconsistent.order_nodup hkey).of_sameTables hcache
  | built other habsent hname hbuilt hcache =>
      have hkey := (hused task.fingerprint (by rw [hbuilt]; exact List.mem_singleton_self _)).2
      have hother : task.fingerprint ∈ others := by
        refine hkey.resolve_left fun heq => ?_
        rw [heq, h.held.present] at habsent
        cases habsent
      have hbound : Cache.RoomFor s.cache.bound others := by
        rw [h.accounted.indexed.bound_eq]
        exact hroom
      exact (h.held.store hconsistent hbound habsent hother task.name other).of_sameTables hcache

theorem evaluate [Machine] (h : Holding config table tasks used fingerprint entry others s)
    {name : String} {x : Quantity}
    (hused : ∀ f ∈ s.evaluated name x, f = fingerprint ∨ f ∈ others) :
    Holding config table tasks used fingerprint entry others (s.evaluate name x).1 := by
  refine ⟨h.accounted.evaluate name x, ?_⟩
  cases h.accounted.traced.evaluated name x with
  | missing hmissing hcache => rw [hcache]; exact h.held
  | found key other hfind hpresent hname hfound hcache =>
      have hkey : key ∈ s.evaluated name x := by
        rw [evaluated_of_find h.accounted.traced.isOpen hfind hpresent]
        exact List.mem_singleton_self key
      rw [hcache]
      exact h.held.touch h.accounted.traced.consistent.order_nodup (hused key hkey)

theorem kept [Machine] (hnames : NamedApart used)
    (hroom : Cache.RoomFor config.cacheBound others) :
    KeptByVisits config tasks (fun f => f ∈ used ∧ (f = fingerprint ∨ f ∈ others))
      (Holding config table tasks used fingerprint entry others) where
  config_eq := fun _ h => h.accounted.traced.config_eq
  isOpen := fun _ h => h.accounted.traced.isOpen
  serve := fun _ _ h hmem hused => h.serve hnames hroom hmem hused
  evaluate := fun _ _ _ h hused => h.evaluate fun f hf => (hused f hf).2
  resetStats := fun _ h => ⟨h.accounted.resetStats, h.held.of_sameTables ⟨rfl, rfl, rfl, rfl⟩⟩

/-- The function that is held is what a task with the name of the handle compiles to. -/
theorem compiled (h : Holding config table tasks used handle.fingerprint entry others s)
    (hread : ∀ task ∈ tasks, task.Read) (hdigest : CollisionFree tasks)
    (hissued : Issued tasks used handle) :
    ∃ origin ∈ tasks, origin.fingerprint = handle.fingerprint ∧ origin.name = handle.name ∧
      origin.Compiled table entry := by
  obtain ⟨origin, horigin, hcompiled⟩ := h.accounted.traced.origin _ entry h.held.present
  have hfingerprint : origin.fingerprint = handle.fingerprint :=
    h.accounted.traced.fingerprint_of_compiled h.held.present hcompiled
  obtain ⟨named, hmem, hnamed, hname⟩ := hissued.named
  have hsame := name_eq_of_collisionFree hread hdigest horigin hmem
    (hfingerprint.trans hnamed.symm)
  exact ⟨origin, horigin, hfingerprint, hsame.trans hname, hcompiled⟩

/-- An evaluation of the handle runs the function that is held. -/
theorem evaluate_eq [Machine]
    (h : Holding config table tasks used handle.fingerprint entry others s)
    (hname : entry.name = handle.name) (x : Quantity) :
    (s.evaluate handle.name x).2 = runOutcome handle.name entry.payload x := by
  have hfind := h.accounted.indexed.namesFind _ entry h.held.present
  rw [hname] at hfind
  rw [evaluate_of_find h.accounted.traced.isOpen hfind h.held.present]

end Holding

end Runs

/-! ## A function that is compiled again -/

/-- In a cache of one function a new one takes the place of the one before. -/
theorem Accounted.replaces {c : Float} (h : Accounted oneFunction table tasks used s)
    (habsent : s.cache.peek? task.fingerprint = none) (htarget : task.target = .ok (.const c))
    {m : Nat} {e : Int} (hc : Binary64.ofFloat c = .finite false m e) :
    let code := functionText task.name (constantChars c)
    (s.serve task).2 = .ok (task.handle code) ∧
      (s.serve task).1.cache.order = [task.fingerprint] ∧
      (s.serve task).1.cache.peek? task.fingerprint =
        some ⟨task.fingerprint, task.name, code, .constant c⟩ := by
  obtain ⟨hanswer, hcache, -⟩ := h.traced.serve_of_constant habsent htarget hc
  refine ⟨hanswer, ?_, ?_⟩
  · exact hcache.order_eq.trans (Cache.order_store_of_one habsent _ _ h.indexed.bound_eq)
  · exact (hcache.peek?_eq _).trans (Cache.peek?_store_self habsent _ _)

theorem absent_of_order_eq {fingerprint key : String} (h : s.cache.order = [key])
    (hne : fingerprint ≠ key) : s.cache.peek? fingerprint = none := by
  rw [Cache.peek?_eq_none_iff, h, List.mem_singleton]
  exact hne

theorem ofFloat_zero : Binary64.ofFloat 0.0 = .finite false 0 (-1074) := by
  decide

/-- The derivative of `1e400`, which is read as infinity, by `inf`. -/
def overflowTask : Task :=
  ⟨.const infinity, "inf", some .forward⟩

/-- The derivative of `inf` by `inf`. -/
def infinityTask : Task :=
  ⟨.var "inf", "inf", some .forward⟩

theorem derivativeTask_overflow :
    oneFunction.derivativeTask "1e400" "inf" none = .ok overflowTask :=
  derivativeTask_of_parse oneFunction (by decide) (by with_unfolding_all rfl)

theorem derivativeTask_infinity :
    oneFunction.derivativeTask "inf" "inf" none = .ok infinityTask :=
  derivativeTask_of_parse oneFunction (by decide) (by with_unfolding_all rfl)

theorem message_overflow : overflowTask.message = infinityTask.message := by
  have hname : isName "inf" = true := by decide
  exact (Task.message_eq_iff (.const (Or.inl rfl)) (.var hname) hname hname).mpr
    ⟨nameInfinity_infinity, rfl, rfl⟩

theorem fingerprint_overflow : overflowTask.fingerprint = infinityTask.fingerprint := by
  rw [Task.fingerprint_eq_digest, Task.fingerprint_eq_digest, message_overflow]

theorem digits_overflow_ne_line :
    overflowTask.fingerprint.toList.take Task.namedDigits ≠
      lineTask.fingerprint.toList.take Task.namedDigits := by
  decide +kernel

theorem target_overflow : overflowTask.target = .ok (.const 0.0) := rfl

theorem target_infinity : infinityTask.target = .ok (.const 1.0) := rfl

/-- A function is compiled, dropped for another one, and compiled again for a task that
shares its fingerprint. -/
def recompilingCalls : List Call :=
  [.differentiate "1e400" "inf" none, .differentiate "x" "x" none,
    .differentiate "inf" "inf" none]

def recompilingTasks : List Task :=
  [overflowTask, lineTask, infinityTask]

theorem message_of_mem_recompilingTasks (h : task ∈ recompilingTasks) :
    task.message = overflowTask.message ∨ task.message = lineTask.message := by
  simp only [recompilingTasks, List.mem_cons, List.not_mem_nil, or_false] at h
  rcases h with rfl | rfl | rfl
  · exact Or.inl rfl
  · exact Or.inr rfl
  · exact Or.inl message_overflow.symm

theorem fingerprint_of_mem_recompilingTasks (h : task ∈ recompilingTasks) :
    task.fingerprint = overflowTask.fingerprint ∨ task.fingerprint = lineTask.fingerprint := by
  simp only [Task.fingerprint_eq_digest]
  exact (message_of_mem_recompilingTasks h).imp (fun heq => by rw [heq]) fun heq => by rw [heq]

theorem namedApart_of_recompilingTasks {fingerprints : List String}
    (h : ∀ f ∈ fingerprints, ∃ task ∈ recompilingTasks, task.fingerprint = f) :
    NamedApart fingerprints := by
  intro f hf g hg hdigits
  obtain ⟨t, ht, rfl⟩ := h f hf
  obtain ⟨u, hu, rfl⟩ := h g hg
  rcases fingerprint_of_mem_recompilingTasks ht with ht | ht <;>
    rcases fingerprint_of_mem_recompilingTasks hu with hu | hu <;> rw [ht, hu] at hdigits ⊢
  · exact absurd hdigits digits_overflow_ne_line
  · exact absurd hdigits.symm digits_overflow_ne_line

theorem fingerprint_overflow_ne_line : overflowTask.fingerprint ≠ lineTask.fingerprint :=
  fun heq => digits_overflow_ne_line (by rw [heq])

theorem collisionFree_recompilingTasks : CollisionFree recompilingTasks := by
  have hne := fingerprint_overflow_ne_line
  intro t ht u hu hfingerprint
  rw [Task.fingerprint_eq_digest, Task.fingerprint_eq_digest] at hne hfingerprint
  rcases message_of_mem_recompilingTasks ht with ht | ht <;>
    rcases message_of_mem_recompilingTasks hu with hu | hu <;> rw [ht, hu] at hfingerprint ⊢
  · exact absurd hfingerprint hne
  · exact absurd hfingerprint.symm hne

/-- The first call returns a handle with the code of zero, and in the end its name stands
for one. -/
theorem run_recompilingCalls :
    let start := newWith oneFunction []
    let s := run recompilingCalls start
    (start.differentiate "1e400" "inf" none).2 =
        .ok (overflowTask.handle (functionText overflowTask.name (constantChars 0.0))) ∧
      s.closed = false ∧ s.cache.fingerprintOf? overflowTask.name = some overflowTask.fingerprint ∧
      ∃ entry, s.cache.peek? overflowTask.fingerprint = some entry ∧
        entry.payload = .constant 1.0 := by
  intro start s
  have hnames : NamedApart (recompilingTasks.map Task.fingerprint) :=
    namedApart_of_recompilingTasks fun f hf => List.mem_map.mp hf
  have hne := fingerprint_overflow_ne_line
  have hmem : ∀ task ∈ recompilingTasks,
      task.fingerprint ∈ recompilingTasks.map Task.fingerprint := fun task =>
    List.mem_map_of_mem
  have hserve {s : Session} (h : Accounted oneFunction defaultLinkTable recompilingTasks
      (recompilingTasks.map Task.fingerprint) s) {task : Task} (htask : task ∈ recompilingTasks) :
      Accounted oneFunction defaultLinkTable recompilingTasks
        (recompilingTasks.map Task.fingerprint) (s.serve task).1 :=
    h.serve hnames htask fun f hf => h.traced.fingerprint_of_mem_servedBy hf ▸ hmem task htask
  have hstart : Accounted oneFunction defaultLinkTable recompilingTasks
      (recompilingTasks.map Task.fingerprint) start := Accounted.newWith oneFunction [] _ _
  have hoverflow : overflowTask ∈ recompilingTasks := by simp [recompilingTasks]
  have hline : lineTask ∈ recompilingTasks := by simp [recompilingTasks]
  have hinfinity : infinityTask ∈ recompilingTasks := by simp [recompilingTasks]
  have hfirst := hserve hstart hoverflow
  have hsecond := hserve hfirst hline
  have hthird := hserve hsecond hinfinity
  -- each function takes the place of the one before
  obtain ⟨hanswer, horder, -⟩ := hstart.replaces rfl target_overflow ofFloat_zero
  have habsent := absent_of_order_eq horder hne.symm
  obtain ⟨-, horder, -⟩ := hfirst.replaces habsent target_line ofFloat_one
  have habsent := absent_of_order_eq horder (fingerprint_overflow ▸ hne)
  obtain ⟨-, -, hpeek⟩ := hsecond.replaces habsent target_infinity ofFloat_one
  have hs : s = (((start.serve overflowTask).1.serve lineTask).1.serve infinityTask).1 := by
    simp only [s, run, recompilingCalls, List.foldl_cons, List.foldl_nil, Call.run]
    rw [hstart.traced.differentiate_eq derivativeTask_overflow,
      hfirst.traced.differentiate_eq derivativeTask_line,
      hsecond.traced.differentiate_eq derivativeTask_infinity]
  have hfind := hthird.indexed.namesFind _ _ hpeek
  have hname : overflowTask.name = infinityTask.name :=
    Task.name_eq_of_fingerprint_eq fingerprint_overflow rfl
  rw [hs, hname, fingerprint_overflow, hstart.traced.differentiate_eq derivativeTask_overflow]
  exact ⟨hanswer, hthird.traced.isOpen, hfind, _, hpeek, rfl⟩

/-! ## The main statement -/

section Use

variable [Stack] [Machine]

/-- The function that an evaluation of a handle runs is the one of its fingerprint. -/
theorem Accounted.held_of_evaluate (h : Accounted config table tasks used s)
    (hnames : NamedApart used) (hissued : Issued tasks used handle) (others : Finset String)
    {x value : Quantity} (hanswer : (s.evaluate handle.name x).2 = .ok value) :
    ∃ entry, (s.evaluate handle.name x).1.cache.Held handle.fingerprint entry others := by
  cases h.traced.evaluated handle.name x with
  | missing hmissing hcache =>
      rw [hmissing] at hanswer
      cases hanswer
  | found key entry hfind hpresent hname hfound hcache =>
      obtain ⟨origin, -, hcompiled⟩ := h.traced.origin key entry hpresent
      obtain ⟨named, -, hfingerprint, hsame⟩ := hissued.named
      have horigin : origin.fingerprint = key := h.traced.fingerprint_of_compiled hpresent hcompiled
      have hdigits := Task.take_fingerprint_of_name_eq
        (hcompiled.name.symm.trans (hname.trans hsame.symm))
      have hmem : key ∈ used :=
        h.indexed.mem_used key (Cache.mem_order_iff.mpr ⟨entry, hpresent⟩)
      rw [horigin, hfingerprint] at hdigits
      have hkey : key = handle.fingerprint := hnames _ hmem _ hissued.mem_used hdigits
      rw [hcache, ← hkey]
      exact ⟨entry, Cache.Held.of_touch_self h.traced.consistent.order_nodup hpresent others⟩

/-- After a call has returned a handle, or has evaluated one that was returned before, its
function was just used.  If it was returned, the function has the code of the handle. -/
theorem Accounted.held_of_use (h : Accounted config table tasks used s)
    (hnames : NamedApart used) (others : Finset String) {call : Call}
    (hmem : ∀ task, call.task? config = some task → task ∈ tasks)
    (hused : ∀ f ∈ call.used s, f ∈ used)
    (huse : call.handle? s = some handle ∨ Issued tasks used handle ∧
      ∃ x value, call = .evaluate handle.name x ∧ (s.evaluate handle.name x).2 = .ok value) :
    Issued tasks used handle ∧
      ∃ entry, (call.run s).cache.Held handle.fingerprint entry others ∧
        (call.handle? s = some handle → entry.source = handle.code) := by
  rcases huse with hreturned | ⟨hissued, x, value, rfl, hanswer⟩
  · obtain ⟨task, htask, hrun, hanswer, hcall⟩ := h.traced.of_handle? hmem hreturned
    have hfingerprint : handle.fingerprint ∈ used :=
      hused _ (by rw [hcall]; exact List.mem_singleton_self _)
    obtain ⟨entry, hheld, heq⟩ := h.traced.held_of_serve others hanswer
    rw [hrun]
    exact ⟨h.traced.issued_of_serve htask hanswer hfingerprint, entry, hheld,
      fun _ => by rw [heq]; rfl⟩
  · obtain ⟨entry, hheld⟩ := h.held_of_evaluate hnames hissued others hanswer
    exact ⟨hissued, entry, hheld, fun hnone => by cases hnone⟩

end Use

/-- A handle that was just returned or evaluated stays usable while fewer other functions
are used than the cache keeps.  Until then the same function is run, which gives its value
unless the machine fails; it is the one that was compiled from the code of the handle, if the
call has returned the handle, or if infinity has one spelling in the requests of its
fingerprint. -/
theorem evaluate_within_window [Stack] [Machine] (config : Config) (symbols : LinkTable)
    (calls later : List Call) (call : Call) (handle : Handle) :
    let start := newWith config symbols
    let before := run calls start
    let after := call.run before
    let s := run later after
    let tasks := asked config (calls ++ call :: later)
    .close ∉ calls ++ call :: later →
    NamedApart (usedIn (calls ++ call :: later) start) →
    CollisionFree tasks →
    (call.handle? before = some handle ∨
      handle ∈ handles calls start ∧ ∃ x value, call = .evaluate handle.name x ∧
        (before.evaluate handle.name x).2 = .ok value) →
    Cache.RoomFor config.cacheBound ((usedIn later after).toFinset.erase handle.fingerprint) →
    ∃ code kernel, compileModule (symbols ++ defaultLinkTable) code handle.name = .ok kernel ∧
      (∀ x, (s.evaluate handle.name x).2 = runOutcome handle.name kernel x) ∧
      (∀ x, (s.evaluate handle.name x).2 = (after.evaluate handle.name x).2) ∧
      (call.handle? before = some handle → code = handle.code) ∧
      (ClearOfInfinity tasks handle.fingerprint → code = handle.code) := by
  intro start before after s tasks hopen hnames hdigest huse hroom
  have hread : ∀ task ∈ tasks, task.Read := fun task => read_of_mem_asked
  have hfirst : ∀ task ∈ asked config calls, task ∈ tasks :=
    asked_subset fun call hcall => List.mem_append_left _ hcall
  have hthis : ∀ task, call.task? config = some task → task ∈ tasks := fun task =>
    mem_asked (List.mem_append_right _ List.mem_cons_self)
  have hlast : ∀ task ∈ asked config later, task ∈ tasks :=
    asked_subset fun call hcall => List.mem_append_right _ (List.mem_cons_of_mem _ hcall)
  rw [usedIn_append, usedIn] at hnames
  set used := usedIn calls start ++ (call.used before ++ usedIn later after)
  have hused : ∀ f ∈ usedIn calls start, f ∈ used := fun f hf => List.mem_append_left _ hf
  have hcallUsed : ∀ f ∈ call.used before, f ∈ used := fun f hf =>
    List.mem_append_right _ (List.mem_append_left _ hf)
  have hlaterUsed : ∀ f ∈ usedIn later after, f ∈ used := fun f hf =>
    List.mem_append_right _ (List.mem_append_right _ hf)
  simp only [List.mem_append, List.mem_cons, not_or] at hopen
  obtain ⟨hopenFirst, hopenCall, hopenLater⟩ := hopen
  have hstart := Accounted.newWith config symbols tasks used
  have hbefore : Accounted config (symbols ++ defaultLinkTable) tasks used before :=
    (Accounted.kept hnames).run hstart hopenFirst hfirst hused
  have hafter : Accounted config (symbols ++ defaultLinkTable) tasks used after :=
    (Accounted.kept hnames).call hbefore (Ne.symm hopenCall) hthis hcallUsed
  set others := (usedIn later after).toFinset.erase handle.fingerprint
  obtain ⟨hissued, entry, hheld, hsource⟩ :=
    hbefore.held_of_use hnames others hthis hcallUsed <| huse.imp_right <| And.imp_left
      (hstart.issued_of_mem_handles hnames hopenFirst hfirst hused)
  have hholding : Holding config (symbols ++ defaultLinkTable) tasks used handle.fingerprint entry
      others after := ⟨hafter, hheld⟩
  have hs : Holding config (symbols ++ defaultLinkTable) tasks used handle.fingerprint entry
      others s := by
    refine (Holding.kept hnames hroom).run hholding hopenLater hlast fun f hf =>
      ⟨hlaterUsed f hf, ?_⟩
    by_cases heq : f = handle.fingerprint
    · exact Or.inl heq
    · exact Or.inr (Finset.mem_erase.mpr ⟨heq, List.mem_toFinset.mpr hf⟩)
  obtain ⟨origin, horigin, hfingerprint, hname, hcompiled⟩ := hs.compiled hread hdigest hissued
  have hentry : entry.name = handle.name := hcompiled.name.trans hname
  refine ⟨entry.source, entry.payload, hname ▸ hcompiled.kernel, hs.evaluate_eq hentry, fun x => ?_,
    hsource, fun hclear => ?_⟩
  · rw [hs.evaluate_eq hentry, hholding.evaluate_eq hentry]
  · obtain ⟨coded, hmem, hcoded, hcode⟩ := hissued.coded
    have hsame : origin = coded := eq_of_collisionFree hread hdigest horigin hmem
      (hfingerprint.trans hcoded.symm) (hfingerprint ▸ hclear)
    rw [← hsame, hcompiled.code] at hcode
    exact Except.ok.inj hcode

def twoFunctions : Config :=
  ⟨some 2, .forward, Policy.default, Cache.pos_of_mem_some Nat.two_pos⟩

/-- A handle is used after another function was compiled. -/
theorem evaluate_within_window_line :
    let start := newWith twoFunctions []
    let call : Call := .differentiate "x" "x" none
    let handle := lineTask.handle lineCode
    let later : List Call := [.differentiate "inf" "inf" none, .resetStats]
    let after := call.run start
    let s := run later after
    .close ∉ [] ++ call :: later ∧
      NamedApart (usedIn ([] ++ call :: later) start) ∧
      CollisionFree (asked twoFunctions ([] ++ call :: later)) ∧
      call.handle? start = some handle ∧
      Cache.RoomFor twoFunctions.cacheBound
        ((usedIn later after).toFinset.erase handle.fingerprint) ∧
      ∃ kernel, compileModule defaultLinkTable handle.code handle.name = .ok kernel ∧
        ∀ x, (s.evaluate handle.name x).2 =
          .ok (Cache.resultOf x.error (kernel.run x.toFloat)) := by
  intro start call handle later after s
  have hline : twoFunctions.derivativeTask "x" "x" none = .ok lineTask := derivativeTask_line
  have hinfinity : twoFunctions.derivativeTask "inf" "inf" none = .ok infinityTask :=
    derivativeTask_infinity
  have hopen : Call.close ∉ [] ++ call :: later := by simp [call, later]
  have hasked : asked twoFunctions ([] ++ call :: later) = [lineTask, infinityTask] := by
    simp [asked, Call.task?, call, later, hline, hinfinity, Except.toOption]
  have htasks : ∀ task ∈ asked twoFunctions ([] ++ call :: later), task ∈ recompilingTasks := by
    rw [hasked]
    simp [recompilingTasks]
  have hstart := Traced.newWith twoFunctions [] recompilingTasks
  have hused : ∀ f ∈ usedIn ([] ++ call :: later) start, ∃ task ∈ recompilingTasks,
      task.fingerprint = f := fun f hf =>
    hstart.task_of_mem_usedIn hopen htasks hf
  have hnames := namedApart_of_recompilingTasks hused
  have hdigest : CollisionFree (asked twoFunctions ([] ++ call :: later)) := fun t ht u hu =>
    collisionFree_recompilingTasks t (htasks t ht) u (htasks u hu)
  have hhandle : call.handle? start = some handle := by
    rw [Call.handle?, toOption_eq_some, hstart.differentiate_eq hline]
    exact (hstart.serve_of_constant rfl target_line ofFloat_one).1
  have hroom : Cache.RoomFor twoFunctions.cacheBound
      ((usedIn later after).toFinset.erase handle.fingerprint) := by
    intro n hn
    obtain rfl := Option.some.inj hn
    have hsubset : (usedIn later after).toFinset.erase handle.fingerprint ⊆
        {overflowTask.fingerprint} := by
      intro f hf
      rw [Finset.mem_erase, List.mem_toFinset] at hf
      obtain ⟨task, htask, rfl⟩ := hused f (List.mem_append_right _ hf.2)
      exact Finset.mem_singleton.mpr
        ((fingerprint_of_mem_recompilingTasks htask).resolve_right hf.1)
    have hcard := Finset.card_le_card hsubset
    rw [Finset.card_singleton] at hcard
    omega
  obtain ⟨code, kernel, hkernel, hevaluate, -, hcode, -⟩ :=
    evaluate_within_window twoFunctions [] [] later call handle hopen hnames hdigest
      (Or.inl hhandle) hroom
  rw [hcode hhandle] at hkernel
  exact ⟨hopen, hnames, hdigest, hhandle, hroom, kernel, hkernel, hevaluate⟩

/-- A handle that was evaluated need not run the function of its code, if its function was
dropped and compiled again for a request that shares its fingerprint. -/
theorem not_evaluate_within_window_recompiled :
    ¬ ∀ (config : Config) (symbols : LinkTable) (calls later : List Call) (call : Call)
      (handle : Handle),
      let start := newWith config symbols
      let before := run calls start
      let after := call.run before
      .close ∉ calls ++ call :: later →
      NamedApart (usedIn (calls ++ call :: later) start) →
      CollisionFree (asked config (calls ++ call :: later)) →
      (call.handle? before = some handle ∨
        handle ∈ handles calls start ∧ ∃ x value, call = .evaluate handle.name x ∧
          (before.evaluate handle.name x).2 = .ok value) →
      Cache.RoomFor config.cacheBound
        ((usedIn later after).toFinset.erase handle.fingerprint) →
      ∃ kernel, compileModule (symbols ++ defaultLinkTable) handle.code handle.name = .ok kernel ∧
        ∀ x, ((run later after).evaluate handle.name x).2 =
          .ok (Cache.resultOf x.error (kernel.run x.toFloat)) := by
  intro h
  obtain ⟨hanswer, hisOpen, hfind, entry, hpeek, hpayload⟩ := run_recompilingCalls
  set before := run recompilingCalls (newWith oneFunction [])
  have hrun (x : Quantity) := evaluate_of_find hisOpen hfind hpeek x
  have hagain (x : Quantity) : ((before.evaluate overflowTask.name x).1.evaluate
      overflowTask.name x).2 = .ok (Cache.resultOf x.error 1.0) := by
    rw [hrun x, evaluate_of_find (s := { before with
      cache := before.cache.touch overflowTask.fingerprint }) hisOpen hfind
      ((Cache.peek?_touch _ _ _).trans hpeek), hpayload]
    rfl
  let point : Quantity := .fast 2.0 0.0
  let code := functionText overflowTask.name (constantChars 0.0)
  let calls := recompilingCalls ++ [.evaluate overflowTask.name point]
  have hopen : Call.close ∉ calls := by simp [calls, recompilingCalls]
  have hasked : asked oneFunction calls = recompilingTasks := by
    simp [asked, Call.task?, calls, recompilingCalls, derivativeTask_overflow,
      derivativeTask_line, derivativeTask_infinity, Except.toOption, recompilingTasks]
  have hused : ∀ f ∈ usedIn calls (newWith oneFunction []), ∃ task ∈ recompilingTasks,
      task.fingerprint = f := fun f hf =>
    (Traced.newWith oneFunction [] recompilingTasks).task_of_mem_usedIn hopen
      (fun task htask => hasked ▸ htask) hf
  have hdigest : CollisionFree (asked oneFunction calls) := hasked ▸ collisionFree_recompilingTasks
  have hhandle : overflowTask.handle code ∈ handles recompilingCalls (newWith oneFunction []) := by
    rw [recompilingCalls, handles, List.mem_append, Call.handle?, hanswer]
    exact Or.inl (List.mem_singleton_self _)
  have hroom : Cache.RoomFor oneFunction.cacheBound
      ((usedIn [] (before.evaluate overflowTask.name point).1).toFinset.erase
        (overflowTask.handle code).fingerprint) := by
    intro n hn
    obtain rfl := Option.some.inj hn
    exact Nat.one_pos
  obtain ⟨kernel, hkernel, hevaluate⟩ := h oneFunction [] recompilingCalls []
    (.evaluate overflowTask.name point) (overflowTask.handle code) hopen
    (namedApart_of_recompilingTasks hused) hdigest
    (Or.inr ⟨hhandle, point, _, rfl, congrArg Prod.snd (hrun point)⟩) hroom
  -- the code of the handle is that of zero
  have hzero : compileModule ([] ++ defaultLinkTable) code overflowTask.name =
      .ok (.constant 0.0) :=
    compileModule_constant (isIdentifier_of_isName overflowTask.isName_name)
      overflowTask.isFreeName_name ofFloat_zero (by decide) (by decide)
  obtain rfl : kernel = .constant 0.0 := Except.ok.inj (hkernel.symm.trans hzero)
  have hvalue := (hagain point).symm.trans (hevaluate point)
  have heq : (1.0 : Float) = 0.0 := (Quantity.fast.inj (Except.ok.inj hvalue)).1
  exact absurd heq (by decide)

end Fluxion.Session
