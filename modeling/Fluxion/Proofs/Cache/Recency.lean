import Fluxion.Proofs.Cache.Consistent
import Mathlib.Data.List.Dedup
import Mathlib.Data.List.DropRight

/-!
# The least recently used function goes first

Let the fingerprint decide whether a function can be built.  Then what a cache holds
after a sequence of requests is told by the requests alone: the fingerprints that were
asked for with success, in the order in which they were asked for last, as many of the
latest ones as the bound allows.

The invariant is that the cache holds the end of this list, and is as full as the bound
and the list allow.  Two caches with different bounds hold ends of the same list, so the
one with the wider bound holds what the other one holds and builds at most as often.
-/

namespace Fluxion.Cache

variable {φ ε β : Type}

/-- What one caller asks for. -/
structure Ask where
  fingerprint : String
  source : String
  name : String

def Ask.step (ask : Ask) : Step :=
  .request ask.fingerprint ask.source ask.name

def Ask.build (backend : Backend β ε φ) (ask : Ask) : Build β ε φ :=
  backend ask.source ask.name ask.fingerprint

/-- In some states of a backend the fingerprint decides whether a build for one of the
callers succeeds, and these builds do not lead out of the states. -/
structure Backend.DecidedBy (backend : Backend β ε φ) (succeeds : String → Bool)
    (states : β → Prop) (asks : List Ask) : Prop where
  isOk_eq : ∀ ask ∈ asks, ∀ builder, states builder →
    (ask.build backend builder).2.isOk = succeeds ask.fingerprint
  kept : ∀ ask ∈ asks, ∀ builder, states builder → states (ask.build backend builder).1

/-- The fingerprints that were asked for with success, each in the place of its last
request. -/
def recency (succeeds : String → Bool) (asks : List Ask) : List String :=
  ((asks.map (·.fingerprint)).filter succeeds).dedup

/-- The latest fingerprints, as many as a bound allows. -/
def latest (bound : Option Nat) (recent : List String) : List String :=
  match bound with
  | none => recent
  | some bound => recent.rtake bound

/-! ## The list of recent fingerprints -/

/-- The fingerprints after the use of one of them, or of a new one. -/
def use (recent : List String) (fingerprint : String) : List String :=
  recent.filter (· != fingerprint) ++ [fingerprint]

section Use

variable {recent : List String} {fingerprint : String}

theorem length_use_of_mem (hnodup : recent.Nodup) (hmem : fingerprint ∈ recent) :
    (use recent fingerprint).length = recent.length := by
  have hpos := List.length_pos_of_mem hmem
  rw [use, ← hnodup.erase_eq_filter, List.length_append, List.length_erase_of_mem hmem,
    List.length_singleton]
  omega

theorem filter_bne_of_not_mem (hmem : fingerprint ∉ recent) :
    recent.filter (· != fingerprint) = recent := by
  rw [List.filter_eq_self]
  intro key hkey
  simpa using fun heq : key = fingerprint => hmem (heq ▸ hkey)

theorem use_of_not_mem (hmem : fingerprint ∉ recent) :
    use recent fingerprint = recent ++ [fingerprint] := by
  rw [use, filter_bne_of_not_mem hmem]

/-- Without repetitions, a fingerprint that comes last stands at the end only. -/
theorem dedup_concat (fingerprints : List String) (fingerprint : String) :
    (fingerprints ++ [fingerprint]).dedup = use fingerprints.dedup fingerprint := by
  induction fingerprints with
  | nil => rfl
  | cons first rest ih =>
      rw [List.cons_append]
      by_cases hmem : first ∈ rest
      · rw [List.dedup_cons_of_mem (List.mem_append_left _ hmem), List.dedup_cons_of_mem hmem, ih]
      · by_cases heq : first = fingerprint
        · subst heq
          rw [List.dedup_cons_of_mem (by simp), List.dedup_cons_of_notMem hmem, ih]
          simp [use]
        · rw [List.dedup_cons_of_notMem (by simp [hmem, heq]), List.dedup_cons_of_notMem hmem, ih]
          simp [use, heq]

/-- A request with success moves its fingerprint to the end, and one without changes nothing. -/
theorem recency_concat (succeeds : String → Bool) (asks : List Ask) (ask : Ask) :
    recency succeeds (asks ++ [ask]) =
      if succeeds ask.fingerprint then use (recency succeeds asks) ask.fingerprint
      else recency succeeds asks := by
  rw [recency, List.map_append, List.filter_append, List.map_singleton]
  by_cases hsucceeds : succeeds ask.fingerprint = true
  · rw [List.filter_cons_of_pos hsucceeds, List.filter_nil, dedup_concat, if_pos hsucceeds, recency]
  · rw [List.filter_cons_of_neg hsucceeds, List.filter_nil, List.append_nil, if_neg hsucceeds,
      recency]

end Use

theorem allowed_succ (bound : Option Nat) (count : Nat) :
    allowed bound (allowed bound count + 1) = allowed bound (count + 1) := by
  cases bound with
  | none => rfl
  | some bound =>
      simp only [allowed]
      omega

/-- A bound that already drops entries allows no more of them when one is added. -/
theorem allowed_dropped {bound : Option Nat} {count : Nat} (h : allowed bound count < count) :
    allowed bound (allowed bound count + 1) = allowed bound count := by
  cases bound with
  | none => exact absurd h (Nat.lt_irrefl _)
  | some bound =>
      simp only [allowed] at h ⊢
      omega

/-! ## What the cache holds -/

/-- A cache with a bound holds the latest of some fingerprints: the end of their list, as
much of it as the bound allows. -/
structure HoldsLatest (bound : Option Nat) (cache : Cache φ) (recent : List String) : Prop where
  bound_eq : cache.bound = bound
  suffix : cache.order <:+ recent
  full : cache.size = allowed bound recent.length

namespace HoldsLatest

variable {bound : Option Nat} {cache other : Cache φ} {recent : List String}
  {fingerprint : String}

theorem empty (bound : Option Nat) (bound_pos : ∀ n ∈ bound, 0 < n) :
    HoldsLatest bound (Cache.empty bound bound_pos : Cache φ) [] where
  bound_eq := rfl
  suffix := List.suffix_refl _
  full := by cases bound <;> simp [allowed, Cache.empty, size]

theorem of_entries_eq (h : HoldsLatest bound cache recent) (hbound : other.bound = cache.bound)
    (hentries : other.entries = cache.entries) : HoldsLatest bound other recent where
  bound_eq := hbound.trans h.bound_eq
  suffix := by rw [order, hentries]; exact h.suffix
  full := by rw [size, hentries]; exact h.full

theorem order_eq (h : HoldsLatest bound cache recent) : cache.order = latest bound recent := by
  rw [List.suffix_iff_eq_drop.mp h.suffix, length_order, h.full]
  cases bound with
  | none => simp [allowed, latest]
  | some bound =>
      rw [allowed, latest, List.rtake]
      congr 1
      omega

/-- Of two caches that hold the latest of the same fingerprints, the one with the wider
bound holds what the other one does. -/
theorem suffix_of_wider {wider : Option Nat} (h : HoldsLatest bound cache recent)
    (hother : HoldsLatest wider other recent) (hwider : ∀ m ∈ wider, ∃ n ∈ bound, n ≤ m) :
    cache.order <:+ other.order := by
  refine List.suffix_of_suffix_length_le h.suffix hother.suffix ?_
  rw [length_order, length_order, h.full, hother.full]
  cases wider with
  | none =>
      cases bound with
      | none => exact Nat.le_refl _
      | some n => exact Nat.min_le_right _ _
  | some m =>
      obtain ⟨n, hn, hle⟩ := hwider m rfl
      rw [Option.mem_def.mp hn]
      simp only [allowed]
      omega

/-- A use of a fingerprint that is there. -/
theorem touch (h : HoldsLatest bound cache recent) (hnodup : recent.Nodup)
    (hmem : fingerprint ∈ cache.order) :
    HoldsLatest bound (cache.touch fingerprint) (use recent fingerprint) where
  bound_eq := h.bound_eq
  suffix := by
    have hown := filter_beq_order (h.suffix.sublist.nodup hnodup) hmem
    rw [order_touch, hown, use]
    exact List.suffix_append_self_iff.mpr (h.suffix.filter _)
  full := by rw [size_touch, h.full, length_use_of_mem hnodup (h.suffix.subset hmem)]

/-- What was used before and is not there was dropped to keep the bound. -/
theorem size_lt_of_dropped (h : HoldsLatest bound cache recent) (hused : fingerprint ∈ recent)
    (habsent : fingerprint ∉ cache.order) : cache.size < recent.length := by
  rw [← length_order]
  refine lt_of_le_of_ne h.suffix.length_le fun heq => ?_
  rw [h.suffix.eq_of_length heq] at habsent
  exact habsent hused

/-- A new function takes the place of the one that was used least recently. -/
theorem store (h : HoldsLatest bound cache recent) (hnodup : recent.Nodup)
    (habsent : cache.peek? fingerprint = none) (name : String) (entry : Entry φ) :
    HoldsLatest bound (cache.store fingerprint name entry) (use recent fingerprint) where
  bound_eq := h.bound_eq
  suffix := by
    have hfresh : fingerprint ∉ cache.order := peek?_eq_none_iff.mp habsent
    have hrest : cache.order <:+ recent.filter (· != fingerprint) := by
      rw [← filter_bne_of_not_mem hfresh]
      exact h.suffix.filter _
    rw [order_store habsent, use]
    exact List.suffix_append_self_iff.mpr ((List.drop_suffix _ _).trans hrest)
  full := by
    rw [size_store habsent, h.bound_eq]
    by_cases hused : fingerprint ∈ recent
    · have hlt := h.size_lt_of_dropped hused (peek?_eq_none_iff.mp habsent)
      rw [length_use_of_mem hnodup hused, h.full]
      rw [h.full] at hlt
      exact allowed_dropped hlt
    · rw [use_of_not_mem hused, List.length_append, List.length_singleton, h.full]
      exact allowed_succ bound recent.length

/-- A caller is served.  Only a build that succeeds counts as a use. -/
theorem ask (h : HoldsLatest bound cache recent) (hnodup : recent.Nodup)
    (hidle : cache.inFlight = []) {backend : Backend β ε φ} {succeeds : String → Bool}
    {builder : β} {ask : Ask}
    (hbuild : (ask.build backend builder).2.isOk = succeeds ask.fingerprint)
    (hsucceeded : ∀ key ∈ recent, succeeds key = true) :
    HoldsLatest bound (ask.step.run backend (cache, builder)).1
      (if succeeds ask.fingerprint then use recent ask.fingerprint else recent) := by
  change HoldsLatest bound (cache.request ask.fingerprint ask.name
    (ask.build backend) builder).1 _
  cases hpeek : cache.peek? ask.fingerprint with
  | some e =>
      have hmem : ask.fingerprint ∈ cache.order := mem_order_iff.mpr ⟨e, hpeek⟩
      rw [request_of_present hpeek, if_pos (hsucceeded _ (h.suffix.subset hmem))]
      exact (h.touch hnodup hmem).of_entries_eq rfl rfl
  | none =>
      rw [request_of_absent hidle hpeek]
      cases hresult : (ask.build backend builder).2 with
      | ok entry =>
          rw [hresult] at hbuild
          rw [← hbuild]
          exact (h.store hnodup hpeek ask.name entry).of_entries_eq rfl rfl
      | error error =>
          rw [hresult] at hbuild
          rw [← hbuild]
          cases error with
          | compile _ => exact h.of_entries_eq rfl rfl
          | other _ => exact h.of_entries_eq rfl rfl

end HoldsLatest

/-! ## Whole sequences of requests -/

section Run

variable {backend : Backend β ε φ} {succeeds : String → Bool} {states : β → Prop}
  {asks : List Ask} {ask : Ask}

theorem Backend.DecidedBy.of_concat
    (h : backend.DecidedBy succeeds states (asks ++ [ask])) :
    backend.DecidedBy succeeds states asks where
  isOk_eq := fun ask hask => h.isOk_eq ask (List.mem_append_left _ hask)
  kept := fun ask hask => h.kept ask (List.mem_append_left _ hask)

theorem Backend.DecidedBy.counted (h : backend.DecidedBy succeeds states asks) :
    backend.counted.DecidedBy succeeds (fun state => states state.2) asks where
  isOk_eq := fun ask hask state hstate => h.isOk_eq ask hask state.2 hstate
  kept := fun ask hask state hstate => h.kept ask hask state.2 hstate

theorem run_concat (backend : Backend β ε φ) (asks : List Ask) (ask : Ask)
    (state : Cache φ × β) :
    run backend ((asks ++ [ask]).map Ask.step) state =
      ask.step.run backend (run backend (asks.map Ask.step) state) := by
  rw [List.map_append, run, List.foldl_append]
  rfl

/-- A request leaves the backend in its states: it builds or does not touch it. -/
theorem states_ask (hkept : ∀ builder, states builder → states (ask.build backend builder).1)
    {state : Cache φ × β} (hidle : state.1.inFlight = []) (hstate : states state.2) :
    states (ask.step.run backend state).2 := by
  change states (state.1.request ask.fingerprint ask.name (ask.build backend) state.2).2.1
  cases hpeek : state.1.peek? ask.fingerprint with
  | some e =>
      rw [request_of_present hpeek]
      exact hstate
  | none =>
      rw [request_of_absent hidle hpeek]
      exact hkept state.2 hstate

theorem states_run (hdecided : backend.DecidedBy succeeds states asks) {state : Cache φ × β}
    (hidle : state.1.inFlight = []) (hstate : states state.2) :
    states (run backend (asks.map Ask.step) state).2 := by
  induction asks using List.reverseRecOn with
  | nil => exact hstate
  | append_singleton asks ask ih =>
      rw [run_concat]
      exact states_ask (hdecided.kept ask (List.mem_append_right _ (List.mem_singleton_self _)))
        (idle_run hidle _) (ih hdecided.of_concat)

theorem nodup_recency (succeeds : String → Bool) (asks : List Ask) :
    (recency succeeds asks).Nodup :=
  List.nodup_dedup _

theorem succeeds_of_mem_recency {key : String} (h : key ∈ recency succeeds asks) :
    succeeds key = true :=
  (List.mem_filter.mp (List.mem_dedup.mp h)).2

/-- After every sequence of requests the cache holds the latest that succeeded. -/
theorem holdsLatest_run (hdecided : backend.DecidedBy succeeds states asks)
    (bound : Option Nat) (bound_pos : ∀ n ∈ bound, 0 < n) (builder : β)
    (hstart : states builder) :
    HoldsLatest bound (run backend (asks.map Ask.step) (empty bound bound_pos, builder)).1
      (recency succeeds asks) := by
  induction asks using List.reverseRecOn with
  | nil => exact HoldsLatest.empty bound bound_pos
  | append_singleton asks ask ih =>
      have hreached : states (run backend (asks.map Ask.step)
          (empty bound bound_pos, builder)).2 :=
        states_run hdecided.of_concat rfl hstart
      rw [run_concat, recency_concat]
      exact (ih hdecided.of_concat).ask (nodup_recency succeeds asks) (idle_run rfl _)
        (hdecided.isOk_eq ask (List.mem_append_right _ (List.mem_singleton_self _)) _ hreached)
        fun key hkey => succeeds_of_mem_recency hkey

/-- A caller costs a compilation unless the fingerprint is in the cache. -/
theorem calls_ask (backend : Backend β ε φ) {state : Cache φ × Nat × β}
    (hidle : state.1.inFlight = []) (ask : Ask) :
    (ask.step.run backend.counted state).2.1 =
      if ask.fingerprint ∈ state.1.order then state.2.1 else state.2.1 + 1 :=
  calls_request backend hidle ask.fingerprint ask.source ask.name

/-- A wider bound saves calls of the backend: what a cache finds, one with a wider bound
finds as well. -/
theorem calls_le_of_wider (hdecided : backend.DecidedBy succeeds states asks)
    {bound wider : Option Nat} (bound_pos : ∀ n ∈ bound, 0 < n)
    (wider_pos : ∀ n ∈ wider, 0 < n) (hwider : ∀ m ∈ wider, ∃ n ∈ bound, n ≤ m) {builder : β}
    (hstart : states builder) :
    (run backend.counted (asks.map Ask.step) (empty wider wider_pos, 0, builder)).2.1 ≤
      (run backend.counted (asks.map Ask.step) (empty bound bound_pos, 0, builder)).2.1 := by
  induction asks using List.reverseRecOn with
  | nil => exact Nat.le_refl 0
  | append_singleton asks ask ih =>
      have hcounted := hdecided.of_concat.counted
      have hnarrow := holdsLatest_run hcounted bound bound_pos (0, builder) hstart
      have hwide := holdsLatest_run hcounted wider wider_pos (0, builder) hstart
      have hsubset := (hnarrow.suffix_of_wider hwide hwider).subset
      have hle := ih hdecided.of_concat
      rw [run_concat, run_concat, calls_ask backend (idle_run rfl _),
        calls_ask backend (idle_run rfl _)]
      split
      · split
        · exact hle
        · exact Nat.le_succ_of_le hle
      · rename_i hmissing
        rw [if_neg fun hmem => hmissing (hsubset hmem)]
        exact Nat.succ_le_succ hle

end Run

/-- After every sequence of requests whose builds succeed or fail by their fingerprints,
the cache holds the latest fingerprints that succeeded, in the order of their last
requests, as many as the bound allows.  With a wider bound it holds these and perhaps
older ones, and the backend is called at most as often. -/
theorem order_run_asks {backend : Backend β ε φ} {succeeds : String → Bool}
    {states : β → Prop} {asks : List Ask} (hdecided : backend.DecidedBy succeeds states asks)
    (bound : Option Nat) (bound_pos : ∀ n ∈ bound, 0 < n) (builder : β)
    (hstart : states builder) :
    let state := run backend.counted (asks.map Ask.step) (empty bound bound_pos, 0, builder)
    state.1.order = latest bound (recency succeeds asks) ∧
      ∀ (wider : Option Nat) (wider_pos : ∀ n ∈ wider, 0 < n),
        (∀ m ∈ wider, ∃ n ∈ bound, n ≤ m) →
        let other := run backend.counted (asks.map Ask.step) (empty wider wider_pos, 0, builder)
        state.1.order <:+ other.1.order ∧ other.2.1 ≤ state.2.1 := by
  intro state
  have hstate := holdsLatest_run hdecided.counted bound bound_pos (0, builder) hstart
  refine ⟨hstate.order_eq, fun wider wider_pos hwider => ⟨?_, ?_⟩⟩
  · have hother := holdsLatest_run hdecided.counted wider wider_pos (0, builder) hstart
    exact hstate.suffix_of_wider hother hwider
  · exact calls_le_of_wider hdecided bound_pos wider_pos hwider hstart

/-- Callers of whom one has a source that is refused, always for the same fingerprint. -/
def refreshingAsks : List Ask :=
  [⟨"a", "good", "f"⟩, ⟨"b", "good", "g"⟩, ⟨"a", "good", "f"⟩, ⟨"bad", "bad", "h"⟩,
    ⟨"c", "good", "f"⟩, ⟨"b", "good", "g"⟩]

theorem countingBackend_decidedBy :
    countingBackend.DecidedBy (· != "bad") (fun _ => True) refreshingAsks where
  isOk_eq := by
    have hsource : ∀ ask ∈ refreshingAsks, ask.source = "bad" ↔ ask.fingerprint = "bad" := by
      decide
    intro ask hask calls _
    by_cases hbad : ask.source = "bad"
    · simp [Ask.build, countingBackend, hbad, (hsource ask hask).mp hbad, Except.isOk,
        Except.toBool]
    · have hgood : ask.fingerprint ≠ "bad" := fun heq => hbad ((hsource ask hask).mpr heq)
      simp [Ask.build, countingBackend, hbad, hgood, Except.isOk, Except.toBool]
  kept := fun _ _ _ _ => trivial

/-- A function is asked for again before the bound is reached, and one cannot be built. -/
theorem order_run_asks_refreshed :
    countingBackend.DecidedBy (· != "bad") (fun _ => True) refreshingAsks ∧
      let state := run countingBackend.counted (refreshingAsks.map Ask.step)
        (empty (some 2) (pos_of_mem_some Nat.two_pos), 0, 0)
      let other := run countingBackend.counted (refreshingAsks.map Ask.step)
        (empty (some 3) (pos_of_mem_some (Nat.succ_pos 2)), 0, 0)
      state.1.order = latest (some 2) (recency (· != "bad") refreshingAsks) ∧
        latest (some 2) (recency (· != "bad") refreshingAsks) = ["c", "b"] ∧
        (∀ m ∈ some 3, ∃ n ∈ some 2, n ≤ m) ∧
        state.1.order <:+ other.1.order ∧ other.1.order = ["a", "c", "b"] ∧
        other.2.1 ≤ state.2.1 ∧ other.2.1 = 4 ∧ state.2.1 = 5 := by
  have h := order_run_asks countingBackend_decidedBy (some 2) (pos_of_mem_some Nat.two_pos) 0
    trivial
  have hwider : ∀ m ∈ some 3, ∃ n ∈ some 2, n ≤ m := by
    intro m hm
    exact ⟨2, rfl, by rw [← Option.some.inj hm]; decide⟩
  obtain ⟨hsuffix, hcalls⟩ := h.2 (some 3) (pos_of_mem_some (Nat.succ_pos 2)) hwider
  exact ⟨countingBackend_decidedBy, h.1, by decide, hwider, hsuffix, by decide, hcalls,
    by decide, by decide⟩

end Fluxion.Cache
