import Fluxion.Proofs.Cache.Consistent

/-!
# One build for several callers

Several callers may ask for one fingerprint before any build ends.  This module compares
them with callers that ask one after another.

* At most one of them builds: the first one, if the function is not there.  The others
  find it or wait.
* If the function is there or its build succeeds, the order does not show: the cache, the
  statistics and the answers are those of callers in turn.
* If the build fails, callers in turn would each have built again.  Callers at once share
  the one failure, and what is kept does not change, so a later request builds again.
-/

namespace Fluxion.Cache

variable {φ ε β : Type}

def requestInTurn (cache : Cache φ) (fingerprint name : String) (build : Build β ε φ)
    (builder : β) : Nat → Cache φ × β × List (Except (RequestError ε) (Entry φ))
  | 0 => (cache, builder, [])
  | count + 1 =>
      let (cache, builder, answer) := cache.request fingerprint name build builder
      let (cache, builder, answers) := cache.requestInTurn fingerprint name build builder count
      (cache, builder, answer :: answers)

/-- How many of several callers build. -/
def builders (cache : Cache φ) (fingerprint : String) (count : Nat) : Nat :=
  (cache.enterAll fingerprint count).2.countP Ticket.builds

/-- The fingerprint that a visit asks for, other than to look at it. -/
def Step.requested? : Step → Option String
  | .request fingerprint _ _ => some fingerprint
  | .together _ fingerprint _ _ => some fingerprint
  | _ => none

section Callers

variable {cache : Cache φ} {fingerprint name : String} {entry : Entry φ}
  {build : Build β ε φ} {builder : β}

theorem builders_of_present (hpresent : cache.peek? fingerprint = some entry) (count : Nat) :
    cache.builders fingerprint count = 0 := by
  cases count with
  | zero => rfl
  | succ count => simp [builders, enterAll_of_present hpresent, Ticket.builds]

theorem builders_of_absent (hidle : cache.inFlight = [])
    (habsent : cache.peek? fingerprint = none) (count : Nat) :
    cache.builders fingerprint (count + 1) = 1 := by
  have hfree : fingerprint ∉ cache.inFlight := by simp [hidle]
  have hwaiters : (List.replicate count (.waiter : Ticket φ)).countP Ticket.builds = 0 := by
    simp [Ticket.builds]
  rw [builders, enterAll_of_absent habsent hfree, List.countP_cons_of_pos rfl, hwaiters]

/-! ## The function is there -/

theorem requestInTurn_of_present (hpresent : cache.peek? fingerprint = some entry)
    (count : Nat) :
    cache.requestInTurn fingerprint name build builder (count + 1) =
      ((cache.touch fingerprint).countHits (count + 1), builder,
        List.replicate (count + 1) (.ok entry)) := by
  induction count generalizing cache with
  | zero =>
      rw [requestInTurn, request_of_present hpresent]
      rfl
  | succ count ih =>
      have hnext : (cache.touch fingerprint).countHit.peek? fingerprint = some entry :=
        (peek?_touch cache fingerprint fingerprint).trans hpresent
      have htouch : (cache.touch fingerprint).countHit.touch fingerprint =
          (cache.touch fingerprint).countHit :=
        congrArg countHit (touch_touch cache fingerprint)
      rw [requestInTurn, request_of_present hpresent]
      simp only [ih hnext, htouch, countHits_countHit]
      rfl

/-! ## The build succeeds -/

/-- What was just stored is the most recently used already. -/
theorem touch_store (habsent : cache.peek? fingerprint = none) (name : String)
    (entry : Entry φ) :
    (cache.store fingerprint name entry).touch fingerprint =
      cache.store fingerprint name entry := by
  have hkept (pair : String × Entry φ) (hpair : pair ∈ cache.entries.drop cache.leaving) :
      pair.1 ≠ fingerprint := by
    rintro rfl
    exact peek?_eq_none_iff.mp habsent (List.mem_map_of_mem (List.mem_of_mem_drop hpair))
  have hothers : (cache.entries.drop cache.leaving).filter (·.1 != fingerprint) =
      cache.entries.drop cache.leaving := by
    rw [List.filter_eq_self]
    exact fun pair hpair => by simpa using hkept pair hpair
  have hown : (cache.entries.drop cache.leaving).filter (·.1 == fingerprint) = [] := by
    rw [List.filter_eq_nil_iff]
    exact fun pair hpair => by simpa using hkept pair hpair
  have hmove : moveToEnd (cache.store fingerprint name entry).entries fingerprint =
      (cache.store fingerprint name entry).entries := by
    rw [entries_store habsent, moveToEnd, List.filter_append, List.filter_append, hothers, hown]
    simp
  rw [touch, hmove]

/-- The first of several callers in turn builds, and the others find what it built. -/
theorem requestInTurn_of_built (hidle : cache.inFlight = [])
    (habsent : cache.peek? fingerprint = none) (hbuilt : (build builder).2 = .ok entry)
    (count : Nat) :
    cache.requestInTurn fingerprint name build builder (count + 1) =
      ((cache.countMiss.countHits count).settle fingerprint name (build builder).2,
        (build builder).1, List.replicate (count + 1) (.ok entry)) := by
  have hland : ((cache.countMiss.land fingerprint).peek? fingerprint) = none := habsent
  have hpresent : ((cache.countMiss.land fingerprint).store fingerprint name entry).peek?
      fingerprint = some entry :=
    peek?_store_self hland name entry
  rw [requestInTurn, request_of_absent hidle habsent, hbuilt]
  cases count with
  | zero => rfl
  | succ count =>
      simp only [settle, requestInTurn_of_present hpresent, touch_store hland]
      rfl

/-- Callers at once are answered as callers in turn are, if no build fails. -/
theorem requestTogether_eq_inTurn (hidle : cache.inFlight = [])
    (h : cache.contains fingerprint = true ∨ (build builder).2.isOk = true) (count : Nat) :
    cache.requestTogether (count + 1) fingerprint name build builder =
      cache.requestInTurn fingerprint name build builder (count + 1) := by
  cases hpeek : cache.peek? fingerprint with
  | some entry => rw [requestTogether_of_present hpeek, requestInTurn_of_present hpeek]
  | none =>
      cases hbuilt : (build builder).2 with
      | ok entry =>
          rw [requestTogether_of_absent hidle hpeek, requestInTurn_of_built hidle hpeek hbuilt,
            hbuilt]
          rfl
      | error error => simp [contains, hpeek, hbuilt, Except.isOk, Except.toBool] at h

/-! ## The build fails -/

theorem mem_order_settle (hidle : cache.inFlight = []) (habsent : cache.peek? fingerprint = none)
    (count : Nat) {result : Except (BuildError ε) (Entry φ)} {key : String}
    (hmem : key ∈ ((cache.countMiss.countHits count).settle fingerprint name result).order) :
    key ∈ cache.order ∨ key = fingerprint := by
  cases result with
  | ok entry =>
      rw [(sameTables_settle_ok hidle fingerprint name entry count).order_eq, order_store habsent,
        List.mem_append, List.mem_singleton] at hmem
      exact hmem.imp_left List.mem_of_mem_drop
  | error error =>
      rw [(sameTables_settle_error hidle fingerprint name error count).order_eq] at hmem
      exact Or.inl hmem

theorem mem_order_request (hidle : cache.inFlight = []) {key : String}
    (hmem : key ∈ (cache.request fingerprint name build builder).1.order) :
    key ∈ cache.order ∨ key = fingerprint := by
  cases hpeek : cache.peek? fingerprint with
  | some e =>
      rw [request_of_present hpeek] at hmem
      exact Or.inl ((order_touch_perm cache fingerprint).mem_iff.mp hmem)
  | none =>
      rw [request_of_absent hidle hpeek] at hmem
      exact mem_order_settle hidle hpeek 0 hmem

theorem mem_order_requestTogether (hidle : cache.inFlight = []) {count : Nat} {key : String}
    (hmem : key ∈ (cache.requestTogether count fingerprint name build builder).1.order) :
    key ∈ cache.order ∨ key = fingerprint := by
  cases count with
  | zero => exact Or.inl hmem
  | succ count =>
      cases hpeek : cache.peek? fingerprint with
      | some e =>
          rw [requestTogether_of_present hpeek] at hmem
          exact Or.inl ((order_touch_perm cache fingerprint).mem_iff.mp hmem)
      | none =>
          rw [requestTogether_of_absent hidle hpeek] at hmem
          exact mem_order_settle hidle hpeek count hmem

end Callers

section Later

variable {backend : Backend β ε φ} {state : Cache φ × β} {key : String}

theorem order_get_perm (cache : Cache φ) (fingerprint : String) :
    (cache.get fingerprint).1.order.Perm cache.order := by
  unfold get
  split
  · exact order_touch_perm cache fingerprint
  · exact List.Perm.refl _

theorem order_lookup_perm (cache : Cache φ) (name : String) :
    (cache.lookup name).1.order.Perm cache.order := by
  unfold lookup
  split
  · exact List.Perm.refl _
  · rename_i fingerprint _
    split
    · exact List.Perm.refl _
    · exact order_touch_perm cache fingerprint

/-- A visit adds no function but the one that it asks for. -/
theorem mem_order_step (hidle : state.1.inFlight = []) {step : Step}
    (hmem : key ∈ (step.run backend state).1.order) :
    key ∈ state.1.order ∨ step.requested? = some key := by
  cases step with
  | request fingerprint source name =>
      exact (mem_order_request hidle hmem).imp_right fun heq => by rw [heq]; rfl
  | together count fingerprint source name =>
      exact (mem_order_requestTogether hidle hmem).imp_right fun heq => by rw [heq]; rfl
  | get fingerprint => exact Or.inl ((order_get_perm state.1 fingerprint).mem_iff.mp hmem)
  | lookup name => exact Or.inl ((order_lookup_perm state.1 name).mem_iff.mp hmem)
  | contains fingerprint => exact Or.inl hmem
  | clear => exact absurd hmem List.not_mem_nil
  | stats reset => cases reset <;> exact Or.inl hmem

/-- What is not there stays away until it is asked for. -/
theorem not_mem_order_run (hidle : state.1.inFlight = []) (habsent : key ∉ state.1.order)
    {steps : List Step} (hother : ∀ step ∈ steps, step.requested? ≠ some key) :
    key ∉ (run backend steps state).1.order := by
  induction steps generalizing state with
  | nil => exact habsent
  | cons step steps ih =>
      refine ih (idle_step hidle step) ?_ fun later hlater =>
        hother later (List.mem_cons_of_mem _ hlater)
      intro hmem
      rcases mem_order_step hidle hmem with hold | hasked
      · exact habsent hold
      · exact hother step List.mem_cons_self hasked

end Later

/-- Of callers that ask together at most one builds. -/
theorem builders_le_one (cache : Cache φ) (hidle : cache.inFlight = []) (fingerprint : String)
    (count : Nat) : cache.builders fingerprint (count + 1) ≤ 1 := by
  cases hpeek : cache.peek? fingerprint with
  | some entry =>
      rw [builders_of_present hpeek]
      exact Nat.zero_le 1
  | none => exact Nat.le_of_eq (builders_of_absent hidle hpeek count)

/-- So many callers cost at most one compilation. -/
theorem calls_requestTogether_le (backend : Backend β ε φ) {state : Cache φ × Nat × β}
    (hidle : state.1.inFlight = []) (fingerprint source name : String) (count : Nat) :
    (state.1.requestTogether (count + 1) fingerprint name
      (backend.counted source name fingerprint) state.2).2.1.1 ≤ state.2.1 + 1 := by
  cases hpeek : state.1.peek? fingerprint with
  | some entry =>
      rw [requestTogether_of_present hpeek]
      exact Nat.le_succ _
  | none =>
      rw [requestTogether_of_absent hidle hpeek]
      exact Nat.le_refl _

/-- After every run, several callers that ask for one fingerprint before a build ends
share at most one build.

If the function is there or its build succeeds, the cache with its statistics, the backend
and the answers are what they are after callers in turn.  If the build fails, one caller has
built, all callers get its error, and the entries, their order and the names are what they
were; whatever is done next, the next request for the fingerprint builds again. -/
theorem single_flight_run (backend : Backend β ε φ) (bound : Option Nat)
    (bound_pos : ∀ n ∈ bound, 0 < n) (builder : β) (steps : List Step)
    (fingerprint source name : String) (count : Nat) (hcount : 0 < count) :
    let state := run backend.counted steps (empty bound bound_pos, 0, builder)
    let build := backend.counted source name fingerprint
    let together := state.1.requestTogether count fingerprint name build state.2
    (state.1.contains fingerprint = true ∨ (build state.2).2.isOk = true →
      together = state.1.requestInTurn fingerprint name build state.2 count ∧
        state.1.builders fingerprint count ≤ 1 ∧ together.2.1.1 ≤ state.2.1 + 1) ∧
    ∀ error, state.1.contains fingerprint = false → (build state.2).2 = .error error →
      state.1.builders fingerprint count = 1 ∧ together.2.1.1 = state.2.1 + 1 ∧
        together.2.2 = List.replicate count (.error (.build error)) ∧
        together.1.entries = state.1.entries ∧ together.1.names = state.1.names ∧
        ∀ later : List Step, (∀ step ∈ later, step.requested? ≠ some fingerprint) →
          let next := run backend.counted later (together.1, together.2.1)
          ∀ source name,
            (next.1.request fingerprint name (backend.counted source name fingerprint)
              next.2).2.1.1 = next.2.1 + 1 := by
  obtain ⟨count, rfl⟩ := Nat.exists_eq_add_of_lt hcount
  rw [Nat.zero_add]
  intro state build together
  have hidle : state.1.inFlight = [] := idle_run rfl steps
  constructor
  · intro h
    exact ⟨requestTogether_eq_inTurn hidle h count, builders_le_one state.1 hidle _ count,
      calls_requestTogether_le backend hidle fingerprint source name count⟩
  · intro error habsent herror
    have hpeek : state.1.peek? fingerprint = none := by simpa [contains] using habsent
    have htogether : together = _ := requestTogether_of_absent hidle hpeek count
    have hsame := sameTables_settle_error hidle fingerprint name error count
    rw [htogether, herror]
    refine ⟨builders_of_absent hidle hpeek count, rfl, rfl, hsame.entries, hsame.names, ?_⟩
    intro later hother next source name
    have hnext : fingerprint ∉ next.1.order := by
      refine not_mem_order_run (idle_settle hidle count _) ?_ hother
      rw [hsame.order_eq]
      exact peek?_eq_none_iff.mp hpeek
    rw [calls_request backend (idle_run (idle_settle hidle count _) later), if_neg hnext]

/-- Three callers ask for a function that drops another one, and three for a function that
cannot be built; that one is asked for again later. -/
theorem single_flight_run_three :
    let state := run countingBackend.counted [.request "a" "good" "f"]
      (empty (some 1) (pos_of_mem_some Nat.one_pos), 0, 0)
    let good := countingBackend.counted "good" "g" "b"
    let bad := countingBackend.counted "bad" "g" "b"
    let failed := state.1.requestTogether 3 "b" "g" bad state.2
    let next := run countingBackend.counted [.lookup "f", .clear] (failed.1, failed.2.1)
    0 < 3 ∧ (good state.2).2.isOk = true ∧
      state.1.requestTogether 3 "b" "g" good state.2 =
        state.1.requestInTurn "b" "g" good state.2 3 ∧
      state.1.contains "b" = false ∧ (bad state.2).2 = .error (.other "refused") ∧
      failed.2.1.1 = state.2.1 + 1 ∧ failed.1.entries = state.1.entries ∧
      state.1.order = ["a"] ∧ (next.1.request "b" "g" good next.2).2.1.1 = next.2.1 + 1 := by
  intro state good bad failed next
  have hgood := single_flight_run countingBackend (some 1) (pos_of_mem_some Nat.one_pos) 0
    [.request "a" "good" "f"] "b" "good" "g" 3 (by decide)
  have hbad := single_flight_run countingBackend (some 1) (pos_of_mem_some Nat.one_pos) 0
    [.request "a" "good" "f"] "b" "bad" "g" 3 (by decide)
  obtain ⟨-, hcalls, -, hentries, -, hlater⟩ := hbad.2 (.other "refused") rfl rfl
  have hother : ∀ step ∈ [Step.lookup "f", .clear], step.requested? ≠ some "b" := by decide
  exact ⟨by decide, rfl, (hgood.1 (Or.inr rfl)).1, rfl, rfl, hcalls, hentries, by decide,
    hlater _ hother "good" "g"⟩

end Fluxion.Cache
