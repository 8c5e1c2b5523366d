import Fluxion.Proofs.Cache.Run

/-!
# Consistent caches

A cache is consistent when its three tables fit together: the entries are within the
bound and lie under their own fingerprints, every name stands for an entry of that
name, and nothing is being built.  Storing a function is the only change that touches
more than one table; the bound, the names and the new entry are checked there.
-/

namespace Fluxion.Cache

variable {φ ε β : Type} {cache : Cache φ} {fingerprint name : String} {entry : Entry φ}

/-- The tables of a cache fit together. -/
structure Consistent (cache : Cache φ) : Prop where
  size_le : ∀ bound ∈ cache.bound, cache.size ≤ bound
  order_nodup : cache.order.Nodup
  own_fingerprint : ∀ fingerprint e, (fingerprint, e) ∈ cache.entries →
    e.fingerprint = fingerprint
  named : ∀ name fingerprint, (name, fingerprint) ∈ cache.names →
    ∃ e, cache.peek? fingerprint = some e ∧ e.name = name
  names_nodup : (cache.names.map (·.1)).Nodup
  idle : cache.inFlight = []

namespace Consistent

theorem fingerprint_of_peek? (h : cache.Consistent)
    (hpeek : cache.peek? fingerprint = some entry) : entry.fingerprint = fingerprint :=
  h.own_fingerprint fingerprint entry (mem_of_lookup hpeek)

/-- What is found by name is the entry that has this name. -/
theorem lookup_eq (h : cache.Consistent) (name : String) :
    (cache.lookup name).2 =
      .ok ((cache.fingerprintOf? name).bind fun fingerprint => cache.peek? fingerprint) := by
  unfold lookup
  cases hname : cache.fingerprintOf? name with
  | none => rfl
  | some fingerprint =>
      obtain ⟨e, hpeek, -⟩ := h.named name fingerprint (mem_of_lookup hname)
      simp only [hpeek, Option.bind_some]

/-- What is found by name has this name and is in the cache. -/
theorem of_lookup_eq_some (h : cache.Consistent)
    (hlookup : (cache.lookup name).2 = .ok (some entry)) :
    entry.name = name ∧ cache.peek? entry.fingerprint = some entry := by
  rw [h.lookup_eq, Except.ok.injEq, Option.bind_eq_some_iff] at hlookup
  obtain ⟨fingerprint, hname, hpeek⟩ := hlookup
  obtain ⟨e, he, hen⟩ := h.named name fingerprint (mem_of_lookup hname)
  obtain rfl : e = entry := Option.some.inj (he.symm.trans hpeek)
  exact ⟨hen, by rw [h.fingerprint_of_peek? hpeek, hpeek]⟩

theorem empty (bound : Option Nat) (bound_pos : ∀ n ∈ bound, 0 < n) :
    (Cache.empty bound bound_pos : Cache φ).Consistent where
  size_le := fun _ _ => Nat.zero_le _
  order_nodup := List.nodup_nil
  own_fingerprint := by simp [Cache.empty]
  named := by simp [Cache.empty]
  names_nodup := List.nodup_nil
  idle := rfl

theorem of_sameTables {other : Cache φ} (h : cache.Consistent)
    (hsame : SameTables other cache) : other.Consistent where
  size_le := by rw [hsame.bound, size, hsame.entries]; exact h.size_le
  order_nodup := by rw [order, hsame.entries]; exact h.order_nodup
  own_fingerprint := by rw [hsame.entries]; exact h.own_fingerprint
  named := by rw [hsame.names]; unfold peek?; rw [hsame.entries]; exact h.named
  names_nodup := by rw [hsame.names]; exact h.names_nodup
  idle := hsame.inFlight.trans h.idle

theorem touch (h : cache.Consistent) (fingerprint : String) :
    (cache.touch fingerprint).Consistent where
  size_le := by rw [size_touch]; exact h.size_le
  order_nodup := (order_touch_perm cache fingerprint).nodup_iff.mpr h.order_nodup
  own_fingerprint := fun key e he =>
    h.own_fingerprint key e ((moveToEnd_perm cache.entries fingerprint).mem_iff.mp he)
  named := by
    intro other key hmem
    rw [peek?_touch]
    exact h.named other key hmem
  names_nodup := h.names_nodup
  idle := h.idle

theorem clear (h : cache.Consistent) : cache.clear.Consistent where
  size_le := fun _ _ => Nat.zero_le _
  order_nodup := List.nodup_nil
  own_fingerprint := by simp [Cache.clear]
  named := by simp [Cache.clear]
  names_nodup := List.nodup_nil
  idle := h.idle

/-! ## Storing a function -/

theorem ne_of_mem_take_of_mem_drop (h : cache.Consistent) {count : Nat}
    {left right : String × Entry φ} (hleft : left ∈ cache.entries.take count)
    (hright : right ∈ cache.entries.drop count) : left.1 ≠ right.1 := by
  have hsplit : ((cache.entries.take count ++ cache.entries.drop count).map (·.1)).Nodup := by
    rw [List.take_append_drop]
    exact h.order_nodup
  rw [List.map_append, List.nodup_append] at hsplit
  exact hsplit.2.2 _ (List.mem_map_of_mem hleft) _ (List.mem_map_of_mem hright)

/-- A function that is stored drops the least recently used ones along with their names, so what
is left still fits together. -/
theorem store (h : cache.Consistent) (habsent : cache.peek? fingerprint = none)
    (hfingerprint : entry.fingerprint = fingerprint) (hname : entry.name = name) :
    (cache.store fingerprint name entry).Consistent where
  size_le := fun _ hbound => size_store_le habsent name entry hbound
  order_nodup := by
    rw [order_store habsent, List.nodup_append]
    refine ⟨h.order_nodup.sublist (List.drop_sublist _ _), by simp, ?_⟩
    intro key hkey other hother
    rw [List.mem_singleton] at hother
    subst hother
    rintro rfl
    exact peek?_eq_none_iff.mp habsent (List.mem_of_mem_drop hkey)
  own_fingerprint := by
    intro key e he
    rw [entries_store habsent, List.mem_append, List.mem_singleton, Prod.mk.injEq] at he
    rcases he with hold | ⟨rfl, rfl⟩
    · exact h.own_fingerprint key e (List.mem_of_mem_drop hold)
    · exact hfingerprint
  named := by
    intro other key hmem
    rw [names_store habsent, forget, List.mem_filter, bindName, List.mem_cons] at hmem
    obtain ⟨hbound | hold, hkept⟩ := hmem
    · obtain ⟨rfl, rfl⟩ := Prod.mk.inj hbound
      exact ⟨entry, peek?_store_self habsent _ entry, hname⟩
    -- the entry that an old name stands for would have taken the name with it
    · obtain ⟨e, he, hen⟩ := h.named other key (List.mem_filter.mp hold).1
      have hstays : (key, e) ∉ cache.entries.take cache.leaving := by
        intro hleaves
        have hdropped : (cache.entries.take cache.leaving).any (·.2.name == other) = true :=
          List.any_eq_true.mpr ⟨(key, e), hleaves, beq_iff_eq.mpr hen⟩
        rw [Bool.not_eq_true'] at hkept
        exact absurd hdropped (Bool.eq_false_iff.mp hkept)
      have hdrop := lookup_drop_of_not_mem_take he hstays
      exact ⟨e, by rw [peek?_store habsent, hdrop, Option.some_or], hen⟩
  names_nodup := by
    rw [names_store habsent, forget, bindName]
    refine List.Nodup.sublist (List.filter_sublist.map _) ?_
    rw [List.map_cons, List.nodup_cons]
    refine ⟨?_, h.names_nodup.sublist (List.filter_sublist.map _)⟩
    simp
  idle := h.idle

/-- What is found after a build was found before, or it is what the build gave. -/
theorem peek?_settle (h : cache.Consistent) (habsent : cache.peek? fingerprint = none)
    {result : Except (BuildError ε) (Entry φ)} {key : String} {e : Entry φ}
    (hpeek : (cache.settle fingerprint name result).peek? key = some e) :
    cache.peek? key = some e ∨ key = fingerprint ∧ result = .ok e := by
  cases result with
  | error error => cases error <;> exact Or.inl hpeek
  | ok entry =>
      have hland : (cache.land fingerprint).peek? fingerprint = none := habsent
      rw [settle, peek?_store hland, Option.or_eq_some_iff] at hpeek
      rcases hpeek with hold | ⟨-, hnew⟩
      · exact Or.inl (lookup_of_mem h.order_nodup (List.mem_of_mem_drop (mem_of_lookup hold)))
      · obtain ⟨rfl, rfl⟩ : key = fingerprint ∧ entry = e := by simpa using hnew
        exact Or.inr ⟨rfl, rfl⟩

/-- Whatever a visit does to the tables, they fit together afterwards. -/
theorem change {other : Cache φ} (h : cache.Consistent) (hchange : Change cache other) :
    other.Consistent := by
  cases hchange with
  | none hsame => exact h.of_sameTables hsame
  | touched fingerprint hsame => exact (h.touch fingerprint).of_sameTables hsame
  | stored fingerprint name entry habsent hfingerprint hname hsame =>
      exact (h.store habsent hfingerprint hname).of_sameTables hsame
  | cleared hsame => exact h.clear.of_sameTables hsame

end Consistent

/-! ## Answers -/

/-- What the answer to a request says of the cache: a function that was returned is
in it, and a build that failed has changed no entry, no place in the order and no
name.  Nobody waits for a build that does not end. -/
def Answered (before after : Cache φ) (fingerprint : String) :
    Except (RequestError ε) (Entry φ) → Prop
  | .ok entry => after.peek? fingerprint = some entry
  | .error (.build _) => after.entries = before.entries ∧ after.names = before.names
  | .error .unfinished => False

theorem answered_of_present (hpresent : cache.peek? fingerprint = some entry) (count : Nat) :
    Answered (ε := ε) cache ((cache.touch fingerprint).countHits count) fingerprint
      (.ok entry) :=
  (peek?_touch cache fingerprint fingerprint).trans hpresent

theorem answered_settle (habsent : cache.peek? fingerprint = none) (count : Nat)
    (result : Except (BuildError ε) (Entry φ)) :
    Answered cache ((cache.countMiss.countHits count).settle fingerprint name result)
      fingerprint (answerOf result) := by
  cases result with
  | ok entry =>
      have hland : ((cache.countMiss.countHits count).land fingerprint).peek? fingerprint = none :=
        habsent
      exact peek?_store_self hland name entry
  | error error =>
      cases error with
      | compile _ => exact ⟨rfl, rfl⟩
      | other _ => exact ⟨rfl, rfl⟩

namespace Consistent

section Answers

variable {build : Build β ε φ} {builder : β}

/-- A request returns a function that is in the cache, or leaves the tables as they were. -/
theorem answered_request (h : cache.Consistent) :
    let (after, _, answer) := cache.request fingerprint name build builder
    Answered cache after fingerprint answer := by
  cases hpeek : cache.peek? fingerprint with
  | some e =>
      rw [request_of_present hpeek]
      exact answered_of_present hpeek 1
  | none =>
      rw [request_of_absent h.idle hpeek]
      exact answered_settle hpeek 0 (build builder).2

/-- Every caller gets an answer, and the cache bears it out. -/
theorem answered_requestTogether (h : cache.Consistent) (count : Nat) :
    let (after, _, answers) := cache.requestTogether count fingerprint name build builder
    answers.length = count ∧ ∀ answer ∈ answers, Answered cache after fingerprint answer := by
  cases count with
  | zero => exact ⟨rfl, fun answer hanswer => absurd hanswer List.not_mem_nil⟩
  | succ count =>
      cases hpeek : cache.peek? fingerprint with
      | some e =>
          rw [requestTogether_of_present hpeek]
          refine ⟨List.length_replicate, fun answer hanswer => ?_⟩
          rw [List.eq_of_mem_replicate hanswer]
          exact answered_of_present hpeek (count + 1)
      | none =>
          rw [requestTogether_of_absent h.idle hpeek]
          refine ⟨List.length_replicate, fun answer hanswer => ?_⟩
          rw [List.eq_of_mem_replicate hanswer]
          exact answered_settle hpeek count (build builder).2

end Answers

/-! ## Whole runs -/

variable {backend : Backend β ε φ} {state : Cache φ × β}

theorem step (hbackend : backend.Faithful) (h : state.1.Consistent) (step : Step) :
    (step.run backend state).1.Consistent :=
  h.change (change_step hbackend h.idle step)

theorem run (hbackend : backend.Faithful) (h : state.1.Consistent) (steps : List Step) :
    (Cache.run backend steps state).1.Consistent := by
  induction steps generalizing state with
  | nil => exact h
  | cons step steps ih => exact ih (h.step hbackend step)

/-- No visit moves the bound. -/
theorem bound_run (hbackend : backend.Faithful) (h : state.1.Consistent) (steps : List Step) :
    (Cache.run backend steps state).1.bound = state.1.bound := by
  induction steps generalizing state with
  | nil => rfl
  | cons step steps ih =>
      exact (ih (h.step hbackend step)).trans (change_step hbackend h.idle step).bound_eq

end Consistent

/-- After every run of a cache that was empty its tables fit together, and they do
after whatever is asked next: a name is found to stand for an entry of that name that
is there, or for nothing; every caller of a request gets an answer that the cache bears
out. -/
theorem consistent_run {backend : Backend β ε φ} (hbackend : backend.Faithful)
    (bound : Option Nat) (bound_pos : ∀ n ∈ bound, 0 < n) (builder : β) (steps : List Step) :
    let state := run backend steps (empty bound bound_pos, builder)
    state.1.Consistent ∧ state.1.bound = bound ∧
      (∀ name, ∃ found, (state.1.lookup name).2 = .ok found ∧
        ∀ e ∈ found, e.name = name ∧ state.1.peek? e.fingerprint = some e) ∧
      (∀ fingerprint source name,
        let (after, _, answer) :=
          state.1.request fingerprint name (backend source name fingerprint) state.2
        Answered state.1 after fingerprint answer) ∧
      ∀ count fingerprint source name,
        let (after, _, answers) :=
          state.1.requestTogether count fingerprint name (backend source name fingerprint) state.2
        answers.length = count ∧
          ∀ answer ∈ answers, Answered state.1 after fingerprint answer := by
  intro state
  have h : state.1.Consistent := (Consistent.empty bound bound_pos).run hbackend steps
  refine ⟨h, (Consistent.empty bound bound_pos).bound_run hbackend steps, ?_, ?_, ?_⟩
  · intro name
    refine ⟨_, h.lookup_eq name, fun e he => ?_⟩
    have hlookup := h.lookup_eq name
    rw [Option.mem_def.mp he] at hlookup
    exact h.of_lookup_eq_some hlookup
  · intro fingerprint source name
    exact h.answered_request
  · intro count fingerprint source name
    exact h.answered_requestTogether count

theorem pos_of_mem_some {bound : Nat} (h : 0 < bound) : ∀ n ∈ some bound, 0 < n := by
  intro n hn
  rwa [← Option.some.inj hn]

/-- A backend that counts its calls and refuses the source `bad`. -/
def countingBackend : Backend Nat String Unit := fun source name fingerprint calls =>
  (calls + 1,
    if source = "bad" then .error (.other "refused") else .ok ⟨fingerprint, name, source, ()⟩)

theorem countingBackend_faithful : countingBackend.Faithful := by
  intro source name fingerprint calls entry h
  unfold countingBackend at h
  split at h
  · cases h
  · obtain rfl := Except.ok.inj h
    exact ⟨rfl, rfl⟩

/-- One name is used for two fingerprints, and a build fails; two callers ask at once. -/
theorem consistent_run_reusedName :
    countingBackend.Faithful ∧
      let state := run countingBackend
        [.request "a" "good" "f", .together 2 "b" "good" "f", .request "c" "bad" "g", .get "b"]
        (empty (some 1) (pos_of_mem_some Nat.one_pos), 0)
      state.1.Consistent ∧ state.1.order = ["b"] ∧ state.2 = 3 ∧
        let (after, _, answer) :=
          state.1.request "d" "h" (countingBackend "good" "h" "d") state.2
        Answered state.1 after "d" answer := by
  have h := consistent_run countingBackend_faithful (some 1) (pos_of_mem_some Nat.one_pos) 0
    [.request "a" "good" "f", .together 2 "b" "good" "f", .request "c" "bad" "g", .get "b"]
  exact ⟨countingBackend_faithful, h.1, by decide, by decide, h.2.2.2.1 "d" "good" "h"⟩

end Fluxion.Cache
