import Fluxion.Proofs.Cache.Consistent
import Mathlib.Data.List.Count

/-!
# What the statistics of a cache add up to

The five counters of a cache are written in six places.  What they should say can be told
without them: a backend that keeps how its builds end knows what was built and what
failed, the callers know what they found, and the entries can be counted.

The books are balanced when the counters agree with all of that.  They are after creation
and after the statistics were started anew, and no visit upsets them: whether a function is
found, built or not to be had, and whatever leaves the cache on the way.
-/

namespace Fluxion.Cache

variable {φ ε β : Type}

inductive Ending where
  | built
  /-- The code was in error. -/
  | failed
  /-- Anything else went wrong. -/
  | broken
deriving DecidableEq, Repr

def Ending.of : Except (BuildError ε) (Entry φ) → Ending
  | .ok _ => .built
  | .error (.compile _) => .failed
  | .error (.other _) => .broken

/-- A backend that also keeps how its builds end, the last one first. -/
def Backend.recorded (backend : Backend β ε φ) : Backend (List Ending × β) ε φ :=
  backend.observed fun result endings => Ending.of result :: endings

/-- A build ends in one of three ways. -/
theorem length_eq_endings (endings : List Ending) :
    endings.length = endings.count .built + endings.count .failed + endings.count .broken := by
  induction endings with
  | nil => rfl
  | cons ending endings ih =>
      cases ending <;> simp only [List.length_cons, List.count_cons, ih] <;> simp <;> omega

/-! ## What a visit adds -/

/-- What each caller of a visit finds. -/
def Step.tickets (cache : Cache φ) : Step → List (Ticket φ)
  | .request fingerprint _ _ => (cache.enterAll fingerprint 1).2
  | .together count fingerprint _ _ => (cache.enterAll fingerprint count).2
  | _ => []

/-- How many callers of a visit do not start a build. -/
def Step.spared (cache : Cache φ) (step : Step) : Nat :=
  (step.tickets cache).countP fun ticket => !ticket.builds

/-- Whether a visit looks for an entry by its fingerprint and finds it. -/
def Step.found (cache : Cache φ) : Step → Nat
  | .get fingerprint => if cache.contains fingerprint then 1 else 0
  | _ => 0

/-- How many entries a visit drops other than to keep the bound. -/
def Step.dropped (cache : Cache φ) : Step → Nat
  | .clear => cache.size
  | _ => 0

/-- What the visits of a run add up to, each one counted in the cache that it comes to. -/
def total (count : Cache φ → Step → Nat) (backend : Backend β ε φ) :
    List Step → Cache φ × β → Nat
  | [], _ => 0
  | step :: steps, state =>
      count state.1 step + total count backend steps (step.run backend state)

section Callers

variable {cache : Cache φ} {fingerprint : String} {entry : Entry φ}

theorem spared_of_present (hpresent : cache.peek? fingerprint = some entry) (count : Nat) :
    (cache.enterAll fingerprint (count + 1)).2.countP (fun ticket => !ticket.builds) =
      count + 1 := by
  rw [enterAll_of_present hpresent, List.countP_replicate]
  rfl

theorem spared_of_absent (hidle : cache.inFlight = [])
    (habsent : cache.peek? fingerprint = none) (count : Nat) :
    (cache.enterAll fingerprint (count + 1)).2.countP (fun ticket => !ticket.builds) = count := by
  have hfree : fingerprint ∉ cache.inFlight := by simp [hidle]
  rw [enterAll_of_absent habsent hfree, List.countP_cons_of_neg Bool.false_ne_true,
    List.countP_replicate]
  rfl

end Callers

/-! ## Balanced books -/

/-- The statistics of a cache agree with how the builds ended, with the number of callers
that got what was there, and with the number of entries that came and went. -/
structure Balanced (cache : Cache φ) (endings : List Ending) (served initial dropped : Nat) :
    Prop where
  idle : cache.inFlight = []
  misses : cache.stats.misses = endings.length
  compiles : cache.stats.compiles = endings.count .built
  failures : cache.stats.failures = endings.count .failed
  hits : cache.stats.hits = served
  size : cache.size + cache.stats.evictions + dropped = initial + cache.stats.compiles

namespace Balanced

variable {cache : Cache φ} {endings : List Ending} {served initial dropped : Nat}

/-- Nothing counted yet, nothing done. -/
theorem of_zero (hidle : cache.inFlight = []) (hstats : cache.stats = Stats.zero) :
    Balanced cache [] 0 cache.size 0 where
  idle := hidle
  misses := by rw [hstats]; rfl
  compiles := by rw [hstats]; rfl
  failures := by rw [hstats]; rfl
  hits := by rw [hstats]; rfl
  size := by rw [hstats]; rfl

variable (h : Balanced cache endings served initial dropped) (fingerprint name : String)

include h

theorem touch : Balanced (cache.touch fingerprint) endings served initial dropped where
  idle := h.idle
  misses := h.misses
  compiles := h.compiles
  failures := h.failures
  hits := h.hits
  size := by rw [size_touch]; exact h.size

theorem countHits (count : Nat) :
    Balanced (cache.countHits count) endings (served + count) initial dropped where
  idle := h.idle
  misses := h.misses
  compiles := h.compiles
  failures := h.failures
  hits := congrArg (· + count) h.hits
  size := h.size

theorem clear : Balanced cache.clear endings served initial (dropped + cache.size) where
  idle := h.idle
  misses := h.misses
  compiles := h.compiles
  failures := h.failures
  hits := h.hits
  size := by
    have hsize := h.size
    have hclear : cache.clear.size = 0 := rfl
    have hstats : cache.clear.stats = cache.stats := rfl
    rw [hclear, hstats]
    omega

variable {fingerprint}

theorem store (habsent : cache.peek? fingerprint = none) (entry : Entry φ) :
    Balanced (cache.countMiss.store fingerprint name entry) (.built :: endings) served initial
      dropped where
  idle := h.idle
  misses := congrArg (· + 1) h.misses
  compiles := (congrArg (· + 1) h.compiles).trans List.count_cons_self.symm
  failures := h.failures
  hits := h.hits
  size := by
    have hpeek : cache.countMiss.peek? fingerprint = none := habsent
    have hcame : (cache.countMiss.store fingerprint name entry).size + cache.leaving =
        cache.size + 1 :=
      size_store_add_leaving hpeek name entry
    have hsize := h.size
    rw [stats_store hpeek]
    change (cache.countMiss.store fingerprint name entry).size +
      (cache.stats.evictions + cache.leaving) + dropped = initial + (cache.stats.compiles + 1)
    omega

/-- A build is one miss, and it is counted by its ending. -/
theorem settle (habsent : cache.peek? fingerprint = none)
    (result : Except (BuildError ε) (Entry φ)) :
    Balanced (cache.countMiss.settle fingerprint name result) (Ending.of result :: endings)
      served initial dropped := by
  have hland : cache.countMiss.land fingerprint = cache.countMiss := by
    simp [land, countMiss, h.idle]
  cases result with
  | ok entry =>
      rw [Cache.settle, hland]
      exact h.store name habsent entry
  | error error =>
      cases error with
      | compile _ =>
          rw [Cache.settle, hland]
          exact ⟨h.idle, congrArg (· + 1) h.misses, h.compiles,
            (congrArg (· + 1) h.failures).trans List.count_cons_self.symm, h.hits, h.size⟩
      | other _ =>
          rw [Cache.settle, hland]
          exact ⟨h.idle, congrArg (· + 1) h.misses, h.compiles, h.failures, h.hits, h.size⟩

end Balanced

/-! ## Visits and runs -/

section Visits

variable (backend : Backend β ε φ) {state : Cache φ × List Ending × β}
  {served initial dropped : Nat}

/-- All callers together keep the balance: one of them may build, the others are served. -/
theorem Balanced.requestTogether (h : Balanced state.1 state.2.1 served initial dropped)
    (count : Nat) (fingerprint source name : String) :
    let (after, builder, _) := state.1.requestTogether count fingerprint name
      (backend.recorded source name fingerprint) state.2
    Balanced after builder.1
      (served + (state.1.enterAll fingerprint count).2.countP fun ticket => !ticket.builds)
      initial dropped := by
  cases count with
  | zero => exact h
  | succ count =>
      cases hpeek : state.1.peek? fingerprint with
      | some entry =>
          rw [requestTogether_of_present hpeek, spared_of_present hpeek]
          exact (h.touch fingerprint).countHits (count + 1)
      | none =>
          rw [requestTogether_of_absent h.idle hpeek, spared_of_absent h.idle hpeek]
          exact (h.countHits count).settle name hpeek _

theorem Balanced.request (h : Balanced state.1 state.2.1 served initial dropped)
    (fingerprint source name : String) :
    let (after, builder, _) := state.1.request fingerprint name
      (backend.recorded source name fingerprint) state.2
    Balanced after builder.1
      (served + (state.1.enterAll fingerprint 1).2.countP fun ticket => !ticket.builds)
      initial dropped := by
  cases hpeek : state.1.peek? fingerprint with
  | some entry =>
      rw [request_of_present hpeek, spared_of_present hpeek 0]
      exact (h.touch fingerprint).countHits 1
  | none =>
      rw [request_of_absent h.idle hpeek, spared_of_absent h.idle hpeek 0]
      exact h.settle name hpeek _

theorem Balanced.get {cache : Cache φ} {endings : List Ending}
    (h : Balanced cache endings served initial dropped) (fingerprint : String) :
    Balanced (cache.get fingerprint).1 endings
      (served + if cache.contains fingerprint then 1 else 0) initial dropped := by
  unfold Cache.get contains
  cases cache.peek? fingerprint with
  | some entry => exact (h.touch fingerprint).countHits 1
  | none => exact h

theorem Balanced.lookup {cache : Cache φ} {endings : List Ending}
    (h : Balanced cache endings served initial dropped) (name : String) :
    Balanced (cache.lookup name).1 endings served initial dropped := by
  unfold Cache.lookup
  split
  · exact h
  · rename_i fingerprint _
    split
    · exact h
    · exact h.touch fingerprint

/-- No visit upsets the books, but one that starts the statistics anew. -/
theorem Balanced.step (h : Balanced state.1 state.2.1 served initial dropped) {step : Step}
    (hkept : step ≠ .stats true) :
    let after := step.run backend.recorded state
    Balanced after.1 after.2.1 (served + (step.spared state.1 + step.found state.1)) initial
      (dropped + step.dropped state.1) := by
  cases step with
  | request fingerprint source name => exact h.request backend fingerprint source name
  | together count fingerprint source name =>
      exact h.requestTogether backend count fingerprint source name
  | get fingerprint =>
      have hspared : Step.spared state.1 (.get fingerprint) = 0 := rfl
      rw [hspared, Nat.zero_add]
      exact h.get fingerprint
  | lookup name => exact h.lookup name
  | contains fingerprint => exact h
  | clear => exact h.clear
  | stats reset =>
      cases reset with
      | true => exact absurd rfl hkept
      | false => exact h

theorem Balanced.run (h : Balanced state.1 state.2.1 served initial dropped) {steps : List Step}
    (hkept : .stats true ∉ steps) :
    let after := Cache.run backend.recorded steps state
    Balanced after.1 after.2.1
      (served + (total Step.spared backend.recorded steps state +
        total Step.found backend.recorded steps state))
      initial (dropped + total Step.dropped backend.recorded steps state) := by
  induction steps generalizing state served dropped with
  | nil => exact h
  | cons step steps ih =>
      have hstep : step ≠ .stats true := fun heq => hkept (heq ▸ List.mem_cons_self)
      have hrest := ih (h.step backend hstep) fun hmem => hkept (List.mem_cons_of_mem _ hmem)
      have hserved (a b c d : Nat) : served + (a + b) + (c + d) = served + (a + c + (b + d)) := by
        omega
      rw [hserved, Nat.add_assoc dropped] at hrest
      exact hrest

/-- Keeping how the builds end does not change what is counted. -/
theorem total_recorded (count : Cache φ → Step → Nat) (steps : List Step) :
    total count backend.recorded steps state = total count backend steps (unobserved state) := by
  induction steps generalizing state with
  | nil => rfl
  | cons step steps ih =>
      have hstep := step_observed (fun result endings => Ending.of result :: endings) backend
        state step
      rw [total, total, ih, ← hstep]
      rfl

end Visits

/-- The statistics are conserved.  Take a cache after creation, or after its statistics
were started anew whatever happened before, and any visits that do not start them anew, with
builds that end in any way.  Then

* every call of the backend was a miss, and it was counted as compiled or as failed, or it
  ended otherwise;
* every hit was an entry found by its fingerprint, or a caller that started no build;
* the cache has what it had and what was compiled, but for the entries that were evicted and
  those that were dropped by clearing. -/
theorem stats_run (backend : Backend β ε φ) (bound : Option Nat)
    (bound_pos : ∀ n ∈ bound, 0 < n) (builder : β) (before steps : List Step)
    (hfresh : before = [] ∨ before.getLast? = some (.stats true))
    (hkept : .stats true ∉ steps) :
    let start := run backend before (empty bound bound_pos, builder)
    let state := run backend steps start
    let recorded := run backend.recorded steps (start.1, [], start.2)
    let endings := recorded.2.1
    let stats := state.1.stats
    unobserved recorded = state ∧
      endings.length = stats.misses ∧
      stats.misses = stats.compiles + stats.failures + endings.count .broken ∧
      stats.compiles = endings.count .built ∧ stats.failures = endings.count .failed ∧
      stats.hits = total Step.found backend steps start + total Step.spared backend steps start ∧
      state.1.size + stats.evictions + total Step.dropped backend steps start =
        start.1.size + stats.compiles := by
  intro start state recorded endings stats
  have hidle : start.1.inFlight = [] := idle_run rfl before
  have hzero : start.1.stats = Stats.zero := by
    rcases hfresh with rfl | hlast
    · rfl
    · obtain ⟨earlier, rfl⟩ := List.getLast?_eq_some_iff.mp hlast
      simp only [start, run, List.foldl_append]
      rfl
  have hsame : unobserved recorded = state := run_observed _ backend steps _
  have hcache : recorded.1 = state.1 := congrArg Prod.fst hsame
  have hbooks : Balanced recorded.1 endings
      (0 + (total Step.spared backend steps start + total Step.found backend steps start))
      start.1.size (0 + total Step.dropped backend steps start) := by
    have hstart : Balanced start.1 [] 0 start.1.size 0 := .of_zero hidle hzero
    have hrun := @Balanced.run _ _ _ backend (start.1, [], start.2) _ _ _ hstart _ hkept
    simp only [total_recorded] at hrun
    exact hrun
  rw [hcache, Nat.zero_add, Nat.zero_add] at hbooks
  have hendings := length_eq_endings endings
  refine ⟨hsame, hbooks.misses.symm, ?_, hbooks.compiles, hbooks.failures,
    hbooks.hits.trans (Nat.add_comm _ _), hbooks.size⟩
  rw [hbooks.misses, hbooks.compiles, hbooks.failures]
  exact hendings

/-- A backend that compiles `good`, finds an error in `bad`, and breaks on anything else. -/
def pickyBackend : Backend Unit String Unit := fun source name fingerprint _ =>
  ((),
    if source = "good" then .ok ⟨fingerprint, name, source, ()⟩
    else if source = "bad" then .error (.compile ⟨name, .malformed⟩)
    else .error (.other "broken"))

/-- Two entries are allowed.  Of the five builds one is shared by three callers, one fails
and one breaks; what was compiled is evicted, found and cleared. -/
theorem stats_run_picky :
    let before := [Step.request "z" "good" "h", .stats true]
    let steps := [Step.request "a" "good" "f", .together 3 "b" "good" "g",
      .request "c" "bad" "h", .together 2 "d" "odd" "h", .get "a", .get "q", .lookup "g",
      .contains "a", .clear, .stats false, .request "a" "good" "f"]
    let start := run pickyBackend before (empty (some 2) (pos_of_mem_some Nat.two_pos), ())
    let state := run pickyBackend steps start
    let recorded := run pickyBackend.recorded steps (start.1, [], start.2)
    let stats := state.1.stats
    (before = [] ∨ before.getLast? = some (.stats true)) ∧ .stats true ∉ steps ∧
      unobserved recorded = state ∧ stats = ⟨4, 5, 3, 1, 1⟩ ∧
      recorded.2.1 = [.built, .broken, .failed, .built, .built] ∧
      stats.hits = total Step.found pickyBackend steps start +
        total Step.spared pickyBackend steps start ∧
      state.1.size + stats.evictions + total Step.dropped pickyBackend steps start =
        start.1.size + stats.compiles := by
  intro before steps
  have hfresh : before = [] ∨ before.getLast? = some (.stats true) := Or.inr rfl
  have hkept : .stats true ∉ steps := by decide
  obtain ⟨hsame, -, -, -, -, hhits, hsize⟩ := stats_run pickyBackend (some 2)
    (pos_of_mem_some Nat.two_pos) () before steps hfresh hkept
  exact ⟨hfresh, hkept, hsame, by decide, by decide, hhits, hsize⟩

end Fluxion.Cache
