import Fluxion.Proofs.Cache.Consistent

/-!
# What a name stands for

A cache holds one fingerprint for each name, but several of its functions may carry
one name.  Which of them is found by name is told by the history of the cache: a
function is compiled, and later it is dropped.

* The function that a name stands for is the one that was compiled under it last,
  unless one of that name was dropped since: then the name stands for nothing, even if
  functions of that name are left.
* So what is found is always the newest function of that name that is left.
* Where no two fingerprints share the name, it is found as long as it is in the cache.
-/

namespace Fluxion.Cache

variable {φ ε β : Type}

inductive Event (φ : Type) where
  | compiled (entry : Entry φ)
  | dropped (entry : Entry φ)

def Event.entry : Event φ → Entry φ
  | .compiled e => e
  | .dropped e => e

def drops (entries : List (String × Entry φ)) : List (Event φ) :=
  entries.map fun pair => .dropped pair.2

/-- What happened between two states of a cache, newest first.  Functions that are new
were compiled, functions that are missing were dropped, and compiling comes first. -/
def changes (before after : Cache φ) : List (Event φ) :=
  drops (before.entries.filter fun pair => !after.contains pair.1) ++
    (after.entries.filter fun pair => !before.contains pair.1).map fun pair => .compiled pair.2

/-- What happens in a run, newest first. -/
def history (backend : Backend β ε φ) : List Step → Cache φ × β → List (Event φ)
  | [], _ => []
  | step :: steps, state =>
      history backend steps (step.run backend state) ++
        changes state.1 (step.run backend state).1

/-- The function that was compiled last under a name, if none of that name was dropped
since. -/
def lastNamed (log : List (Event φ)) (name : String) : Option (Entry φ) :=
  match log.find? fun event => event.entry.name == name with
  | some (.compiled e) => some e
  | _ => none

/-- The function that is in the cache for the fingerprint of a compile, if it has the
name. -/
def Event.live? (cache : Cache φ) (name : String) : Event φ → Option (Entry φ)
  | .compiled e => (cache.peek? e.fingerprint).filter (·.name == name)
  | .dropped _ => none

/-- The function of a name that was compiled last among those in the cache. -/
def newest (cache : Cache φ) (log : List (Event φ)) (name : String) : Option (Entry φ) :=
  log.findSome? (·.live? cache name)

/-! ## Reading a history -/

section Reading

variable {log : List (Event φ)} {name : String} {entry : Entry φ}

theorem find?_of_lastNamed (h : lastNamed log name = some entry) :
    log.find? (fun event => event.entry.name == name) = some (.compiled entry) := by
  unfold lastNamed at h
  split at h
  · rename_i e hfind
    rw [hfind, Option.some.inj h]
  · cases h

theorem name_of_lastNamed (h : lastNamed log name = some entry) : entry.name = name := by
  simpa [Event.entry] using List.find?_some (find?_of_lastNamed h)

/-- A function that is compiled takes the name over. -/
theorem lastNamed_compiled (e : Entry φ) (log : List (Event φ)) (name : String) :
    lastNamed (.compiled e :: log) name =
      if e.name = name then some e else lastNamed log name := by
  by_cases h : e.name = name <;> simp [lastNamed, Event.entry, h]

/-- A name is lost as soon as one of its functions is dropped. -/
theorem lastNamed_drops (dropped : List (String × Entry φ)) (log : List (Event φ))
    (name : String) :
    lastNamed (drops dropped ++ log) name =
      if dropped.any (fun pair => pair.2.name == name) then none else lastNamed log name := by
  induction dropped with
  | nil => rfl
  | cons pair rest ih =>
      have hcons : drops (pair :: rest) ++ log = .dropped pair.2 :: (drops rest ++ log) := rfl
      rw [hcons, List.any_cons]
      cases h : pair.2.name == name with
      | true => simp only [lastNamed, List.find?_cons, Event.entry, h, Bool.true_or, if_true]
      | false =>
          rw [Bool.false_or, ← ih]
          simp only [lastNamed, List.find?_cons, Event.entry, h]

/-- Drops of other functions do not matter to what happened last to a fingerprint. -/
theorem find?_drops {dropped : List (String × Entry φ)} {fingerprint : String}
    (h : ∀ pair ∈ dropped, pair.2.fingerprint ≠ fingerprint) (log : List (Event φ)) :
    (drops dropped ++ log).find? (fun event => event.entry.fingerprint == fingerprint) =
      log.find? fun event => event.entry.fingerprint == fingerprint := by
  have hnone : (drops dropped).find? (fun event => event.entry.fingerprint == fingerprint) =
      none := by
    rw [List.find?_eq_none]
    intro event hevent
    obtain ⟨pair, hpair, rfl⟩ := List.mem_map.mp hevent
    simpa [Event.entry] using h pair hpair
  rw [List.find?_append, hnone, Option.none_or]

/-- Two searches that accept what the other one finds find the same. -/
theorem find?_eq_of_find? {α : Type} {p q : α → Bool} {a b : α} {list : List α}
    (ha : list.find? p = some a) (hb : list.find? q = some b) (hqa : q a = true)
    (hpb : p b = true) : a = b := by
  induction list with
  | nil => cases ha
  | cons first rest ih =>
      rw [List.find?_cons] at ha hb
      cases hp : p first with
      | true =>
          obtain rfl : first = a := by simpa [hp] using ha
          simpa [hqa] using hb
      | false =>
          cases hq : q first with
          | true =>
              obtain rfl : first = b := by simpa [hq] using hb
              simp [hp] at hpb
          | false =>
              simp only [hp, hq] at ha hb
              exact ih ha hb

end Reading

/-! ## The history tells what is in the cache -/

/-- A history fits a cache: it tells what each name stands for, and what happened last
to a function that is there is that it was compiled. -/
structure Logged (cache : Cache φ) (log : List (Event φ)) : Prop where
  named : ∀ name, cache.fingerprintOf? name = (lastNamed log name).map (·.fingerprint)
  lastNamed_live : ∀ name e, lastNamed log name = some e → cache.peek? e.fingerprint = some e
  live : ∀ fingerprint e, cache.peek? fingerprint = some e →
    log.find? (fun event => event.entry.fingerprint == fingerprint) = some (.compiled e)
  compiled_of_dropped : ∀ e, .dropped e ∈ log → .compiled e ∈ log

section Changes

variable {cache other : Cache φ} {fingerprint name : String} {entry : Entry φ}

theorem contains_eq_true_iff : cache.contains fingerprint = true ↔ fingerprint ∈ cache.order := by
  rw [contains, Option.isSome_iff_exists, mem_order_iff]

theorem filter_contains_eq_nil {entries : List (String × Entry φ)}
    (h : ∀ pair ∈ entries, pair.1 ∈ cache.order) :
    entries.filter (fun pair => !cache.contains pair.1) = [] := by
  rw [List.filter_eq_nil_iff]
  intro pair hpair
  simpa using contains_eq_true_iff.mpr (h pair hpair)

theorem filter_contains_eq_self {entries : List (String × Entry φ)}
    (h : ∀ pair ∈ entries, pair.1 ∉ cache.order) :
    entries.filter (fun pair => !cache.contains pair.1) = entries := by
  rw [List.filter_eq_self]
  intro pair hpair
  simpa using mt contains_eq_true_iff.mp (h pair hpair)

/-- Nothing happens where the same fingerprints are found. -/
theorem changes_of_order_perm (h : other.order.Perm cache.order) : changes cache other = [] := by
  have hbefore : cache.entries.filter (fun pair => !other.contains pair.1) = [] :=
    filter_contains_eq_nil fun pair hpair => h.mem_iff.mpr (List.mem_map_of_mem hpair)
  have hafter : other.entries.filter (fun pair => !cache.contains pair.1) = [] :=
    filter_contains_eq_nil fun pair hpair => h.mem_iff.mp (List.mem_map_of_mem hpair)
  rw [changes, hbefore, hafter]
  rfl

/-- A cache without entries has dropped all that it had. -/
theorem changes_of_cleared (h : other.entries = []) :
    changes cache other = drops cache.entries := by
  have hbefore : cache.entries.filter (fun pair => !other.contains pair.1) = cache.entries :=
    filter_contains_eq_self fun pair _ => by simp [order, h]
  rw [changes, hbefore, h]
  exact List.append_nil _

/-- The new function is compiled, and then the oldest ones are dropped. -/
theorem changes_of_stored (hcache : cache.Consistent) (habsent : cache.peek? fingerprint = none)
    (h : other.entries = (cache.store fingerprint name entry).entries) :
    changes cache other = drops (cache.entries.take cache.leaving) ++ [.compiled entry] := by
  have hfresh : fingerprint ∉ cache.order := peek?_eq_none_iff.mp habsent
  have horder : other.order = cache.order.drop cache.leaving ++ [fingerprint] := by
    rw [order, h]
    exact order_store habsent name entry
  have htake : ∀ pair ∈ cache.entries.take cache.leaving, pair.1 ∉ other.order := by
    intro pair hpair hmem
    rw [horder, List.mem_append, List.mem_singleton, order, ← List.map_drop] at hmem
    rcases hmem with hright | heq
    · obtain ⟨later, hlater, heq⟩ := List.mem_map.mp hright
      exact hcache.ne_of_mem_take_of_mem_drop hpair hlater heq.symm
    · exact hfresh (heq ▸ List.mem_map_of_mem (List.mem_of_mem_take hpair))
  have hdrop : ∀ pair ∈ cache.entries.drop cache.leaving, pair.1 ∈ other.order := by
    intro pair hpair
    rw [horder, List.mem_append, order, ← List.map_drop]
    exact Or.inl (List.mem_map_of_mem hpair)
  have hbefore : cache.entries.filter (fun pair => !other.contains pair.1) =
      cache.entries.take cache.leaving := by
    conv_lhs => rw [← List.take_append_drop cache.leaving cache.entries]
    rw [List.filter_append, filter_contains_eq_self htake, filter_contains_eq_nil hdrop,
      List.append_nil]
  have hkept : (cache.entries.drop cache.leaving).filter (fun pair => !cache.contains pair.1) =
      [] :=
    filter_contains_eq_nil fun pair hpair => List.mem_map_of_mem (List.mem_of_mem_drop hpair)
  have hnew : [(fingerprint, entry)].filter (fun pair => !cache.contains pair.1) =
      [(fingerprint, entry)] :=
    filter_contains_eq_self fun pair hpair => by
      obtain rfl := List.mem_singleton.mp hpair
      exact hfresh
  rw [changes, hbefore, h, entries_store habsent, List.filter_append, hkept, hnew]
  rfl

end Changes

namespace Logged

variable {cache other : Cache φ} {log : List (Event φ)} {fingerprint name : String}
  {entry : Entry φ}

theorem empty (bound : Option Nat) (bound_pos : ∀ n ∈ bound, 0 < n) :
    Logged (Cache.empty bound bound_pos : Cache φ) [] where
  named := fun _ => rfl
  lastNamed_live := fun _ _ h => by cases h
  live := fun _ _ h => by cases h
  compiled_of_dropped := fun _ h => absurd h List.not_mem_nil

theorem compiled_mem (h : Logged cache log) (hpeek : cache.peek? fingerprint = some entry) :
    .compiled entry ∈ log :=
  List.mem_of_find?_eq_some (h.live fingerprint entry hpeek)

theorem of_same (h : Logged cache log) (hpeek : ∀ key, other.peek? key = cache.peek? key)
    (hnames : other.names = cache.names) : Logged other log where
  named := by unfold fingerprintOf?; rw [hnames]; exact h.named
  lastNamed_live := fun name e he => (hpeek _).trans (h.lastNamed_live name e he)
  live := fun key e he => h.live key e ((hpeek key).symm.trans he)
  compiled_of_dropped := h.compiled_of_dropped

/-- Functions that were in the cache were compiled before they are dropped. -/
theorem compiled_of_mem_drops (h : Logged cache log) (hcache : cache.Consistent)
    {dropped : List (String × Entry φ)} (hdropped : ∀ pair ∈ dropped, pair ∈ cache.entries)
    (hmem : .dropped entry ∈ drops dropped) : .compiled entry ∈ log := by
  obtain ⟨pair, hpair, heq⟩ := List.mem_map.mp hmem
  obtain rfl := Event.dropped.inj heq
  exact h.compiled_mem (lookup_of_mem hcache.order_nodup (hdropped pair hpair))

theorem clear (h : Logged cache log) (hcache : cache.Consistent) (hentries : other.entries = [])
    (hnames : other.names = []) : Logged other (drops cache.entries ++ log) where
  named := by
    intro name
    rw [lastNamed_drops, fingerprintOf?, hnames]
    split
    · rfl
    · rename_i hnone
      cases hlast : lastNamed log name with
      | none => rfl
      | some e =>
          have hmem := mem_of_lookup (h.lastNamed_live name e hlast)
          exact absurd (List.any_eq_true.mpr
            ⟨_, hmem, by simpa using name_of_lastNamed hlast⟩) hnone
  lastNamed_live := by
    intro name e he
    rw [lastNamed_drops] at he
    split at he
    · cases he
    · rename_i hnone
      have hmem := mem_of_lookup (h.lastNamed_live name e he)
      exact absurd (List.any_eq_true.mpr
        ⟨_, hmem, by simpa using name_of_lastNamed he⟩) hnone
  live := by
    intro key e he
    rw [peek?, hentries] at he
    cases he
  compiled_of_dropped := by
    intro e he
    rcases List.mem_append.mp he with hnew | hold
    · exact List.mem_append_right _ (h.compiled_of_mem_drops hcache (fun _ hp => hp) hnew)
    · exact List.mem_append_right _ (h.compiled_of_dropped e hold)

/-- Storing is logged as the compilation of the new function, before the functions are dropped for
which there is no room. -/
theorem store (h : Logged cache log) (hcache : cache.Consistent)
    (habsent : cache.peek? fingerprint = none) (hfingerprint : entry.fingerprint = fingerprint)
    (hname : entry.name = name) :
    Logged (cache.store fingerprint name entry)
      (drops (cache.entries.take cache.leaving) ++ .compiled entry :: log) where
  named := by
    intro other
    rw [fingerprintOf?, names_store habsent, lookup_forget, lastNamed_drops, lookup_bindName,
      lastNamed_compiled, hname]
    split
    · rfl
    · by_cases hother : other = name
      · rw [if_pos hother, if_pos hother.symm, Option.map_some, hfingerprint]
      · rw [if_neg hother, if_neg (Ne.symm hother)]
        exact h.named other
  lastNamed_live := by
    intro other e he
    rw [lastNamed_drops, lastNamed_compiled] at he
    split at he
    · cases he
    rename_i hstays
    split at he
    · obtain rfl := Option.some.inj he
      rw [hfingerprint]
      exact peek?_store_self habsent name entry
    · have hkept : (e.fingerprint, e) ∉ cache.entries.take cache.leaving := fun hleaves =>
        hstays (List.any_eq_true.mpr
          ⟨_, hleaves, by simpa using name_of_lastNamed he⟩)
      have hdrop := lookup_drop_of_not_mem_take (h.lastNamed_live other e he) hkept
      rw [peek?_store habsent, hdrop, Option.some_or]
  live := by
    intro key e he
    have hown : ∀ pair ∈ cache.entries.take cache.leaving, pair.2.fingerprint = pair.1 :=
      fun pair hpair => hcache.own_fingerprint pair.1 pair.2 (List.mem_of_mem_take hpair)
    have hfresh : fingerprint ∉ cache.order := peek?_eq_none_iff.mp habsent
    rw [peek?_store habsent, Option.or_eq_some_iff] at he
    rcases he with hold | ⟨-, hnew⟩
    · have hmem := mem_of_lookup hold
      have hpeek : cache.peek? key = some e :=
        lookup_of_mem hcache.order_nodup (List.mem_of_mem_drop hmem)
      have hne : entry.fingerprint ≠ key := by
        rintro rfl
        rw [hfingerprint, habsent] at hpeek
        cases hpeek
      have hothers : ∀ pair ∈ cache.entries.take cache.leaving, pair.2.fingerprint ≠ key :=
        fun pair hpair => (hown pair hpair).trans_ne
          (hcache.ne_of_mem_take_of_mem_drop hpair hmem)
      rw [find?_drops hothers, List.find?_cons_of_neg (by simpa [Event.entry] using hne)]
      exact h.live key e hpeek
    · obtain ⟨rfl, rfl⟩ : key = fingerprint ∧ entry = e := by simpa using hnew
      have hothers : ∀ pair ∈ cache.entries.take cache.leaving, pair.2.fingerprint ≠ key := by
        intro pair hpair heq
        rw [hown pair hpair] at heq
        exact hfresh (heq ▸ List.mem_map_of_mem (List.mem_of_mem_take hpair))
      rw [find?_drops hothers, List.find?_cons_of_pos (by simpa [Event.entry] using hfingerprint)]
  compiled_of_dropped := by
    intro e he
    rw [List.mem_append, List.mem_cons] at he
    rcases he with hnew | heq | hold
    · exact List.mem_append_right _ (List.mem_cons_of_mem _
        (h.compiled_of_mem_drops hcache (fun _ hp => List.mem_of_mem_take hp) hnew))
    · cases heq
    · exact List.mem_append_right _ (List.mem_cons_of_mem _ (h.compiled_of_dropped e hold))

/-- What a visit changed, put in front of the history, keeps it fitting. -/
theorem change (h : Logged cache log) (hcache : cache.Consistent)
    (hchange : Change cache other) : Logged other (changes cache other ++ log) := by
  cases hchange with
  | none hsame =>
      have horder : other.order = cache.order := by rw [order, order, hsame.entries]
      rw [changes_of_order_perm (horder ▸ List.Perm.refl _)]
      exact h.of_same (fun key => by rw [peek?, peek?, hsame.entries]) hsame.names
  | touched fingerprint hsame =>
      have horder : other.order = (cache.touch fingerprint).order := by
        rw [order, order, hsame.entries]
      rw [changes_of_order_perm (horder ▸ order_touch_perm cache fingerprint)]
      refine h.of_same (fun key => ?_) hsame.names
      rw [← peek?_touch cache fingerprint key, peek?, peek?, hsame.entries]
  | stored fingerprint name entry habsent hfingerprint hname hsame =>
      rw [changes_of_stored hcache habsent hsame.entries, List.append_assoc]
      exact (h.store hcache habsent hfingerprint hname).of_same
        (fun key => by rw [peek?, peek?, hsame.entries]) hsame.names
  | cleared hsame =>
      rw [changes_of_cleared hsame.entries]
      exact h.clear hcache hsame.entries hsame.names

/-- The history of a run fits the cache that it leads to. -/
theorem run {backend : Backend β ε φ} (hbackend : backend.Faithful) {state : Cache φ × β}
    (hcache : state.1.Consistent) (h : Logged state.1 log) (steps : List Step) :
    Logged (Cache.run backend steps state).1 (history backend steps state ++ log) := by
  induction steps generalizing state log with
  | nil => exact h
  | cons step steps ih =>
      have hstep := h.change hcache (change_step hbackend hcache.idle step)
      rw [history, List.append_assoc]
      exact ih (hcache.step hbackend step) hstep

/-! ## What is found by name -/

theorem lookup_eq (h : Logged cache log) (hcache : cache.Consistent) (name : String) :
    (cache.lookup name).2 = .ok (lastNamed log name) := by
  rw [hcache.lookup_eq, h.named]
  cases hlast : lastNamed log name with
  | none => rfl
  | some e =>
      rw [Option.map_some, Option.bind_some, h.lastNamed_live name e hlast]

/-- What is found is the newest function of the name: any newer one of that name would
have been the last thing that happened under it. -/
theorem newest_eq (h : Logged cache log) (hlast : lastNamed log name = some entry) :
    newest cache log name = some entry := by
  obtain ⟨hname, newer, older, rfl, hnewer⟩ :=
    List.find?_eq_some_iff_append.mp (find?_of_lastNamed hlast)
  have hlive := h.lastNamed_live name entry hlast
  have hnone : newer.findSome? (·.live? cache name) = none := by
    rw [List.findSome?_eq_none_iff]
    intro event hevent
    cases event with
    | dropped _ => rfl
    | compiled e =>
        rw [Event.live?, Option.filter_eq_none_iff]
        intro live hpeek
        -- the compile of what is there now is at least as new as that of `e`
        have hfind := h.live e.fingerprint live hpeek
        rw [List.find?_append] at hfind
        cases hfirst : newer.find? (·.entry.fingerprint == e.fingerprint) with
        | none => exact absurd (beq_self_eq_true _) (List.find?_eq_none.mp hfirst _ hevent)
        | some event =>
            rw [hfirst, Option.some_or, Option.some.injEq] at hfind
            subst hfind
            simpa [Event.entry] using hnewer _ (List.mem_of_find?_eq_some hfirst)
  have hthis : (Event.compiled entry).live? cache name = some entry := by
    rw [Event.live?, hlive]
    exact Option.filter_some_pos hname
  rw [newest, List.findSome?_append, hnone, Option.none_or, List.findSome?_cons, hthis]

/-- Where the functions of a name share their fingerprint, the name stands for something
as long as a function of that name is in the cache. -/
theorem lastNamed_isSome_iff (h : Logged cache log) (hcache : cache.Consistent)
    (hunique : ∀ e e', .compiled e ∈ log → .compiled e' ∈ log → e.name = name →
      e'.name = name → e.fingerprint = e'.fingerprint) :
    (lastNamed log name).isSome ↔
      ∃ fingerprint e, cache.peek? fingerprint = some e ∧ e.name = name := by
  constructor
  · intro hsome
    obtain ⟨e, he⟩ := Option.isSome_iff_exists.mp hsome
    exact ⟨e.fingerprint, e, h.lastNamed_live name e he, name_of_lastNamed he⟩
  · rintro ⟨fingerprint, e, hpeek, hname⟩
    have hcompiled := h.compiled_mem hpeek
    cases hfind : log.find? (·.entry.name == name) with
    | none => exact absurd (beq_iff_eq.mpr hname) (List.find?_eq_none.mp hfind _ hcompiled)
    | some event =>
        cases event with
        | compiled last => rw [lastNamed, hfind]; rfl
        | dropped last =>
            have hlast : last.name = name := by simpa [Event.entry] using List.find?_some hfind
            have hsame := hunique last e
              (h.compiled_of_dropped last (List.mem_of_find?_eq_some hfind)) hcompiled hlast hname
            rw [hcache.fingerprint_of_peek? hpeek] at hsame
            cases find?_eq_of_find? hfind (h.live fingerprint e hpeek)
              (by simpa [Event.entry] using hsame) (by simpa [Event.entry] using hname)

end Logged

/-- After every run of a cache that was empty, a name stands for the function that was
compiled under it last, or for nothing if one of that name was dropped since.  What is
found is thus the newest function of that name that is in the cache.  It is found as
long as one is there if no other fingerprint was compiled under the name. -/
theorem lookup_run {backend : Backend β ε φ} (hbackend : backend.Faithful)
    (bound : Option Nat) (bound_pos : ∀ n ∈ bound, 0 < n) (builder : β) (steps : List Step)
    (name : String) :
    let start := (empty bound bound_pos, builder)
    let cache := (run backend steps start).1
    let log := history backend steps start
    (cache.lookup name).2 = .ok (lastNamed log name) ∧
      (∀ e, (cache.lookup name).2 = .ok (some e) → newest cache log name = some e) ∧
      ((∀ e e', .compiled e ∈ log → .compiled e' ∈ log → e.name = name → e'.name = name →
          e.fingerprint = e'.fingerprint) →
        ((∃ e, (cache.lookup name).2 = .ok (some e)) ↔
          ∃ fingerprint e, cache.peek? fingerprint = some e ∧ e.name = name)) := by
  intro start cache log
  have hempty : start.1.Consistent := Consistent.empty bound bound_pos
  have hcache : cache.Consistent := hempty.run hbackend steps
  have hlog : Logged cache log := by
    have h := (Logged.empty bound bound_pos).run hbackend hempty steps
    rwa [List.append_nil] at h
  have hlookup := hlog.lookup_eq hcache name
  refine ⟨hlookup, fun e he => ?_, fun hunique => ?_⟩
  · exact hlog.newest_eq (Except.ok.inj (hlookup.symm.trans he))
  · rw [← hlog.lastNamed_isSome_iff hcache hunique, Option.isSome_iff_exists, hlookup]
    simp only [Except.ok.injEq]

/-- Each function has a name of its own, one is dropped, and the others are found. -/
theorem lookup_run_ownNames :
    countingBackend.Faithful ∧
      let start := (empty (some 2) (pos_of_mem_some Nat.two_pos), 0)
      let steps := [.request "a" "good" "f", .request "b" "good" "g", .get "a",
        .together 3 "c" "good" "h"]
      let cache := (run countingBackend steps start).1
      let log := history countingBackend steps start
      (cache.lookup "f").2 = .ok (lastNamed log "f") ∧
        lastNamed log "f" = some ⟨"a", "f", "good", ()⟩ ∧
        (cache.lookup "g").2 = .ok (lastNamed log "g") ∧ lastNamed log "g" = none := by
  have h := lookup_run countingBackend_faithful (some 2) (pos_of_mem_some Nat.two_pos) 0
    [.request "a" "good" "f", .request "b" "good" "g", .get "a", .together 3 "c" "good" "h"]
  exact ⟨countingBackend_faithful, (h "f").1, rfl, (h "g").1, rfl⟩

/-- When a name is used again, dropping the function that had it first takes the name
from the one that has it now: that one is in the cache, but it is not found. -/
theorem not_lookup_of_droppedNamesake :
    ¬ ∀ (bound : Option Nat) (bound_pos : ∀ n ∈ bound, 0 < n) (steps : List Step)
        (name : String),
      let cache := (run countingBackend steps (empty bound bound_pos, 0)).1
      ((∃ e, (cache.lookup name).2 = .ok (some e)) ↔
        ∃ fingerprint e, cache.peek? fingerprint = some e ∧ e.name = name) := by
  intro h
  obtain ⟨e, he⟩ := (h (some 1) (pos_of_mem_some Nat.one_pos)
    [.request "a" "good" "f", .request "b" "good" "f"] "f").mpr
      ⟨"b", ⟨"b", "f", "good", ()⟩, rfl, rfl⟩
  cases he

end Fluxion.Cache
