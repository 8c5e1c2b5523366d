import Fluxion.Proofs.Cache.Request

/-!
# Runs of a cache

A backend compiles for the cache and may change a state of its own while it does so.
A run is any sequence of visits to the cache, with any fingerprints and names, any
number of callers at once, and builds that fail in any way.

All that one visit can do to the tables is said once, by `Change`: a function moves to
the end, a new one is stored, everything is dropped, or nothing happens.  What a visit
counts is left out.
-/

namespace Fluxion.Cache

variable {φ ε β : Type}

/-- What compiles for a cache: source, name and fingerprint make a build. -/
abbrev Backend (β ε φ : Type) := (source name fingerprint : String) → Build β ε φ

/-- What the backend returns carries the fingerprint and the name that it was given. -/
def Backend.Faithful (backend : Backend β ε φ) : Prop :=
  ∀ source name fingerprint builder entry,
    (backend source name fingerprint builder).2 = .ok entry →
      entry.fingerprint = fingerprint ∧ entry.name = name

/-- A backend that also keeps what is seen of how its builds end. -/
def Backend.observed {γ : Type} (see : Except (BuildError ε) (Entry φ) → γ → γ)
    (backend : Backend β ε φ) : Backend (γ × β) ε φ :=
  fun source name fingerprint state =>
    let (builder, result) := backend source name fingerprint state.2
    ((see result state.1, builder), result)

def Backend.counted (backend : Backend β ε φ) : Backend (Nat × β) ε φ :=
  fun source name fingerprint state =>
    let (builder, result) := backend source name fingerprint state.2
    ((state.1 + 1, builder), result)

/-- A visit to a cache. -/
inductive Step where
  | request (fingerprint source name : String)
  /-- Several callers ask before any build ends. -/
  | together (count : Nat) (fingerprint source name : String)
  | get (fingerprint : String)
  | lookup (name : String)
  | contains (fingerprint : String)
  | clear
  /-- The statistics are read, and may be started anew. -/
  | stats (reset : Bool)
deriving DecidableEq, Repr

def Step.run (backend : Backend β ε φ) (state : Cache φ × β) : Step → Cache φ × β
  | .request fingerprint source name =>
      let (cache, builder, _) :=
        state.1.request fingerprint name (backend source name fingerprint) state.2
      (cache, builder)
  | .together count fingerprint source name =>
      let (cache, builder, _) :=
        state.1.requestTogether count fingerprint name (backend source name fingerprint) state.2
      (cache, builder)
  | .get fingerprint => ((state.1.get fingerprint).1, state.2)
  | .lookup name => ((state.1.lookup name).1, state.2)
  | .contains _ => state
  | .clear => (state.1.clear, state.2)
  | .stats reset => (if reset then state.1.resetStats else state.1, state.2)

def run (backend : Backend β ε φ) (steps : List Step) (state : Cache φ × β) : Cache φ × β :=
  steps.foldl (Step.run backend) state

/-! ## What one visit can do -/

/-- Two caches differ in their statistics at most. -/
structure SameTables (cache other : Cache φ) : Prop where
  bound : cache.bound = other.bound
  entries : cache.entries = other.entries
  names : cache.names = other.names
  inFlight : cache.inFlight = other.inFlight

theorem SameTables.order_eq {cache other : Cache φ} (h : SameTables cache other) :
    cache.order = other.order := by
  rw [order, order, h.entries]

theorem SameTables.peek?_eq {cache other : Cache φ} (h : SameTables cache other)
    (fingerprint : String) : cache.peek? fingerprint = other.peek? fingerprint := by
  rw [peek?, peek?, h.entries]

/-- A change of the tables of a cache by one visit. -/
inductive Change (before after : Cache φ) : Prop where
  | none (h : SameTables after before)
  | touched (fingerprint : String) (h : SameTables after (before.touch fingerprint))
  | stored (fingerprint name : String) (entry : Entry φ)
      (habsent : before.peek? fingerprint = Option.none)
      (hfingerprint : entry.fingerprint = fingerprint) (hname : entry.name = name)
      (h : SameTables after (before.store fingerprint name entry))
  | cleared (h : SameTables after before.clear)

theorem Change.bound_eq {before after : Cache φ} (h : Change before after) :
    after.bound = before.bound := by
  cases h with
  | none h => exact h.bound
  | touched fingerprint h => exact h.bound
  | stored fingerprint name entry _ _ _ h => exact h.bound
  | cleared h => exact h.bound

theorem Change.inFlight_eq {before after : Cache φ} (h : Change before after) :
    after.inFlight = before.inFlight := by
  cases h with
  | none h => exact h.inFlight
  | touched fingerprint h => exact h.inFlight
  | stored fingerprint name entry _ _ _ h => exact h.inFlight
  | cleared h => exact h.inFlight

section Visit

variable {cache : Cache φ} {fingerprint name : String} {build : Build β ε φ} {builder : β}

/-- A build that succeeds is stored. -/
theorem sameTables_settle_ok (hidle : cache.inFlight = []) (fingerprint name : String)
    (entry : Entry φ) (count : Nat) :
    SameTables ((cache.countMiss.countHits count).settle fingerprint name
      (.ok entry : Except (BuildError ε) (Entry φ))) (cache.store fingerprint name entry) where
  bound := rfl
  entries := rfl
  names := rfl
  inFlight := by simp [settle, land, store, evict, countMiss, countHits, hidle]

/-- A build that fails leaves the tables alone. -/
theorem sameTables_settle_error (hidle : cache.inFlight = []) (fingerprint name : String)
    (error : BuildError ε) (count : Nat) :
    SameTables ((cache.countMiss.countHits count).settle fingerprint name (.error error)) cache := by
  have hland : ((cache.countMiss.countHits count).land fingerprint).inFlight =
      cache.inFlight := by
    simp [land, countMiss, countHits, hidle]
  cases error with
  | compile _ => exact ⟨rfl, rfl, rfl, hland⟩
  | other _ => exact ⟨rfl, rfl, rfl, hland⟩

theorem change_settle (hidle : cache.inFlight = []) (habsent : cache.peek? fingerprint = none)
    {result : Except (BuildError ε) (Entry φ)}
    (hresult : ∀ e, result = .ok e → e.fingerprint = fingerprint ∧ e.name = name)
    (count : Nat) :
    Change cache ((cache.countMiss.countHits count).settle fingerprint name result) := by
  cases result with
  | ok entry =>
      obtain ⟨hfingerprint, hname⟩ := hresult entry rfl
      exact .stored fingerprint name entry habsent hfingerprint hname
        (sameTables_settle_ok hidle fingerprint name entry count)
  | error error => exact .none (sameTables_settle_error hidle fingerprint name error count)

theorem change_get (cache : Cache φ) (fingerprint : String) :
    Change cache (cache.get fingerprint).1 := by
  unfold get
  split
  · exact .touched fingerprint ⟨rfl, rfl, rfl, rfl⟩
  · exact .none ⟨rfl, rfl, rfl, rfl⟩

theorem change_lookup (cache : Cache φ) (name : String) : Change cache (cache.lookup name).1 := by
  unfold lookup
  split
  · exact .none ⟨rfl, rfl, rfl, rfl⟩
  · rename_i fingerprint _
    split
    · exact .none ⟨rfl, rfl, rfl, rfl⟩
    · exact .touched fingerprint ⟨rfl, rfl, rfl, rfl⟩

variable (hidle : cache.inFlight = [])
  (hbuild : ∀ e, (build builder).2 = .ok e → e.fingerprint = fingerprint ∧ e.name = name)

include hidle hbuild

theorem change_request : Change cache (cache.request fingerprint name build builder).1 := by
  cases hpeek : cache.peek? fingerprint with
  | some e =>
      rw [request_of_present hpeek]
      exact .touched fingerprint ⟨rfl, rfl, rfl, rfl⟩
  | none =>
      rw [request_of_absent hidle hpeek]
      exact change_settle hidle hpeek hbuild 0

theorem change_requestTogether (count : Nat) :
    Change cache (cache.requestTogether count fingerprint name build builder).1 := by
  cases count with
  | zero => exact .none ⟨rfl, rfl, rfl, rfl⟩
  | succ count =>
      cases hpeek : cache.peek? fingerprint with
      | some e =>
          rw [requestTogether_of_present hpeek]
          exact .touched fingerprint ⟨rfl, rfl, rfl, rfl⟩
      | none =>
          rw [requestTogether_of_absent hidle hpeek]
          exact change_settle hidle hpeek hbuild count

end Visit

/-- If nobody is building, each kind of visit is one of the changes. -/
theorem change_step {backend : Backend β ε φ} (hbackend : backend.Faithful)
    {state : Cache φ × β} (hidle : state.1.inFlight = []) (step : Step) :
    Change state.1 (step.run backend state).1 := by
  cases step with
  | request fingerprint source name =>
      exact change_request hidle (hbackend source name fingerprint state.2)
  | together count fingerprint source name =>
      exact change_requestTogether hidle (hbackend source name fingerprint state.2) count
  | get fingerprint => exact change_get state.1 fingerprint
  | lookup name => exact change_lookup state.1 name
  | contains fingerprint => exact .none ⟨rfl, rfl, rfl, rfl⟩
  | clear => exact .cleared ⟨rfl, rfl, rfl, rfl⟩
  | stats reset =>
      cases reset with
      | true => exact .none ⟨rfl, rfl, rfl, rfl⟩
      | false => exact .none ⟨rfl, rfl, rfl, rfl⟩

/-! ## Between visits nothing is being built

This holds for any backend, also for one that returns functions under other names. -/

section Idle

variable {cache : Cache φ} {fingerprint name : String} {build : Build β ε φ} {builder : β}
  (hidle : cache.inFlight = [])

include hidle

theorem idle_settle (count : Nat) (result : Except (BuildError ε) (Entry φ)) :
    ((cache.countMiss.countHits count).settle fingerprint name result).inFlight = [] := by
  cases result with
  | ok entry =>
      exact (sameTables_settle_ok hidle fingerprint name entry count).inFlight.trans hidle
  | error error =>
      exact (sameTables_settle_error hidle fingerprint name error count).inFlight.trans hidle

theorem idle_request : (cache.request fingerprint name build builder).1.inFlight = [] := by
  cases hpeek : cache.peek? fingerprint with
  | some e =>
      rw [request_of_present hpeek]
      exact hidle
  | none =>
      rw [request_of_absent hidle hpeek]
      exact idle_settle hidle 0 _

theorem idle_requestTogether (count : Nat) :
    (cache.requestTogether count fingerprint name build builder).1.inFlight = [] := by
  cases count with
  | zero => exact hidle
  | succ count =>
      cases hpeek : cache.peek? fingerprint with
      | some e =>
          rw [requestTogether_of_present hpeek]
          exact hidle
      | none =>
          rw [requestTogether_of_absent hidle hpeek]
          exact idle_settle hidle count _

end Idle

theorem idle_step {backend : Backend β ε φ} {state : Cache φ × β}
    (hidle : state.1.inFlight = []) (step : Step) : (step.run backend state).1.inFlight = [] := by
  cases step with
  | request fingerprint source name => exact idle_request hidle
  | together count fingerprint source name => exact idle_requestTogether hidle count
  | get fingerprint => exact (change_get state.1 fingerprint).inFlight_eq.trans hidle
  | lookup name => exact (change_lookup state.1 name).inFlight_eq.trans hidle
  | contains fingerprint => exact hidle
  | clear => exact hidle
  | stats reset => cases reset <;> exact hidle

/-- A run leaves no build behind that has not ended. -/
theorem idle_run {backend : Backend β ε φ} {state : Cache φ × β}
    (hidle : state.1.inFlight = []) (steps : List Step) :
    (run backend steps state).1.inFlight = [] := by
  induction steps generalizing state with
  | nil => exact hidle
  | cons step steps ih => exact ih (idle_step hidle step)

/-! ## Calls of the backend -/

def unobserved {γ : Type} (state : Cache φ × γ × β) : Cache φ × β :=
  (state.1, state.2.2)

section Observed

variable {γ : Type} (see : Except (BuildError ε) (Entry φ) → γ → γ) (backend : Backend β ε φ)

theorem step_observed (state : Cache φ × γ × β) (step : Step) :
    unobserved (step.run (backend.observed see) state) = step.run backend (unobserved state) := by
  obtain ⟨cache, seen, builder⟩ := state
  cases step with
  | request fingerprint source name =>
      simp only [Step.run, request, unobserved]
      rcases Bool.eq_false_or_eq_true (cache.enter fingerprint).2.builds with hbuilds | hbuilds
      · simp only [hbuilds]
        rfl
      · simp only [hbuilds]
        rfl
  | together count fingerprint source name =>
      simp only [Step.run, requestTogether, unobserved]
      rcases Bool.eq_false_or_eq_true
          ((cache.enterAll fingerprint count).2.any Ticket.builds) with hbuilds | hbuilds
      · simp only [hbuilds]
        rfl
      · simp only [hbuilds]
        rfl
  | get fingerprint => rfl
  | lookup name => rfl
  | contains fingerprint => rfl
  | clear => rfl
  | stats reset => rfl

/-- Looking at the calls of a backend changes nothing. -/
theorem run_observed (steps : List Step) (state : Cache φ × γ × β) :
    unobserved (run (backend.observed see) steps state) = run backend steps (unobserved state) := by
  induction steps generalizing state with
  | nil => rfl
  | cons step steps ih =>
      exact (ih _).trans (congrArg (run backend steps) (step_observed see backend state step))

end Observed

/-- A request calls the backend once, unless its function is there. -/
theorem calls_request (backend : Backend β ε φ) {state : Cache φ × Nat × β}
    (hidle : state.1.inFlight = []) (fingerprint source name : String) :
    (state.1.request fingerprint name (backend.counted source name fingerprint) state.2).2.1.1 =
      if fingerprint ∈ state.1.order then state.2.1 else state.2.1 + 1 := by
  cases hpeek : state.1.peek? fingerprint with
  | some e => rw [request_of_present hpeek, if_pos (mem_order_iff.mpr ⟨e, hpeek⟩)]
  | none =>
      rw [request_of_absent hidle hpeek, if_neg (peek?_eq_none_iff.mp hpeek)]
      rfl

end Fluxion.Cache
