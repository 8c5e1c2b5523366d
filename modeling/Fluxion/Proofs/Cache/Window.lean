import Fluxion.Proofs.Cache.Consistent
import Mathlib.Data.Finset.Card
import Mathlib.Data.Finset.Dedup

/-!
# How long a function stays in the cache

A function that was just used is the last to go.  It stays as long as the bound exceeds
the number of other fingerprints that are used: whatever lies behind it in the order is
one of these, so there is room for one more without it.

It also stays where it is found by its name, if no function of another fingerprint takes
the name.
-/

namespace Fluxion.Cache

variable {φ : Type} {cache other : Cache φ} {fingerprint key name : String}
  {entry : Entry φ} {others : Finset String}

/-- The function of a fingerprint is there, and what was used later is among some other
fingerprints. -/
structure Held (cache : Cache φ) (fingerprint : String) (entry : Entry φ)
    (others : Finset String) : Prop where
  present : cache.peek? fingerprint = some entry
  behind : ∃ older newer, cache.order = older ++ fingerprint :: newer ∧
    ∀ key ∈ newer, key ∈ others

/-- The bound exceeds the number of some fingerprints. -/
def RoomFor (bound : Option Nat) (others : Finset String) : Prop :=
  ∀ n ∈ bound, others.card < n

/-- Every function of the cache is found by the name that it has. -/
def NamesFind (cache : Cache φ) : Prop :=
  ∀ fingerprint e, cache.peek? fingerprint = some e →
    cache.fingerprintOf? e.name = some fingerprint

/-- What is new in the order takes the place of the functions that were used longest
ago, and these are none that were used later than the one that is held. -/
theorem leaving_le_length (hbehind : cache.order = older ++ fingerprint :: newer)
    (hnodup : cache.order.Nodup) (hroom : RoomFor cache.bound others)
    (hnewer : ∀ key ∈ newer, key ∈ others) (hkey : key ∈ others) (hfresh : key ∉ newer) :
    cache.leaving ≤ older.length := by
  rw [leaving]
  cases hbound : cache.bound with
  | none => exact Nat.zero_le _
  | some bound =>
      have hdistinct : (key :: newer).Nodup := by
        rw [hbehind, List.nodup_append] at hnodup
        exact List.nodup_cons.mpr ⟨hfresh, (List.nodup_cons.mp hnodup.2.1).2⟩
      have hcard : (key :: newer).length ≤ others.card := by
        rw [← List.toFinset_card_of_nodup hdistinct]
        refine Finset.card_le_card fun other hother => ?_
        rcases List.mem_cons.mp (List.mem_toFinset.mp hother) with rfl | hmem
        · exact hkey
        · exact hnewer other hmem
      have hlt := hroom bound hbound
      have hsize : cache.size = older.length + (newer.length + 1) := by
        rw [← length_order, hbehind, List.length_append, List.length_cons]
      rw [List.length_cons] at hcard
      simp only
      omega

namespace Held

theorem of_sameTables (h : Held cache fingerprint entry others)
    (hsame : SameTables other cache) : Held other fingerprint entry others where
  present := (hsame.peek?_eq fingerprint).trans h.present
  behind := by rw [hsame.order_eq]; exact h.behind

/-- A function that was just used has nothing behind it. -/
theorem of_touch_self (hnodup : cache.order.Nodup)
    (hpresent : cache.peek? fingerprint = some entry) (others : Finset String) :
    Held (cache.touch fingerprint) fingerprint entry others where
  present := (peek?_touch cache fingerprint fingerprint).trans hpresent
  behind := by
    have hown := filter_beq_order hnodup (mem_order_iff.mpr ⟨entry, hpresent⟩)
    exact ⟨_, [], by rw [order_touch, hown], by simp⟩

theorem of_store_self (habsent : cache.peek? fingerprint = none) (name : String)
    (entry : Entry φ) (others : Finset String) :
    Held (cache.store fingerprint name entry) fingerprint entry others where
  present := peek?_store_self habsent name entry
  behind := ⟨_, [], order_store habsent name entry, by simp⟩

/-- The use of one of the others, or of the function itself. -/
theorem touch (h : Held cache fingerprint entry others) (hnodup : cache.order.Nodup)
    (hkey : key = fingerprint ∨ key ∈ others) :
    Held (cache.touch key) fingerprint entry others := by
  by_cases heq : key = fingerprint
  · subst heq
    exact of_touch_self hnodup h.present others
  · obtain ⟨older, newer, hbehind, hnewer⟩ := h.behind
    refine ⟨(peek?_touch cache key fingerprint).trans h.present, older.filter (· != key),
      newer.filter (· != key) ++ cache.order.filter (· == key), ?_, fun used hused => ?_⟩
    · have hmoved : cache.order.filter (· != key) =
          older.filter (· != key) ++ fingerprint :: newer.filter (· != key) := by
        rw [hbehind, List.filter_append, List.filter_cons_of_pos (by simpa using Ne.symm heq)]
      rw [order_touch, hmoved, List.append_assoc, List.cons_append]
    · rcases List.mem_append.mp hused with hold | hmoved
      · exact hnewer used (List.mem_filter.mp hold).1
      · obtain rfl : used = key := by simpa using (List.mem_filter.mp hmoved).2
        exact hkey.resolve_left heq

/-- The function stays when one of the others is stored. -/
theorem store (h : Held cache fingerprint entry others) (hcache : cache.Consistent)
    (hroom : RoomFor cache.bound others) (habsent : cache.peek? key = none)
    (hkey : key ∈ others) (name : String) (stored : Entry φ) :
    Held (cache.store key name stored) fingerprint entry others := by
  obtain ⟨older, newer, hbehind, hnewer⟩ := h.behind
  have hfresh : key ∉ newer := fun hmem =>
    peek?_eq_none_iff.mp habsent (by simp [hbehind, hmem])
  have hle : cache.leaving ≤ older.length :=
    leaving_le_length hbehind hcache.order_nodup hroom hnewer hkey hfresh
  refine ⟨?_, older.drop cache.leaving, newer ++ [key], ?_, fun used hused => ?_⟩
  · have hkept : (fingerprint, entry) ∉ cache.entries.take cache.leaving := by
      intro hleaves
      have holder : fingerprint ∈ older := by
        have hmem := List.mem_map_of_mem (f := (·.1)) hleaves
        rw [List.map_take] at hmem
        change fingerprint ∈ cache.order.take cache.leaving at hmem
        rw [hbehind, List.take_append_of_le_length hle] at hmem
        exact List.mem_of_mem_take hmem
      have hnodup := hcache.order_nodup
      rw [hbehind, List.nodup_append] at hnodup
      exact hnodup.2.2 fingerprint holder fingerprint List.mem_cons_self rfl
    rw [peek?_store habsent, lookup_drop_of_not_mem_take h.present hkept, Option.some_or]
  · rw [order_store habsent, hbehind, List.drop_append_of_le_length hle, List.append_assoc,
      List.cons_append]
  · rcases List.mem_append.mp hused with hold | hnew
    · exact hnewer used hold
    · rwa [List.mem_singleton.mp hnew]

end Held

/-! ## Names that are not taken -/

namespace NamesFind

theorem of_sameTables (h : cache.NamesFind) (hsame : SameTables other cache) :
    other.NamesFind := by
  intro key e hpeek
  rw [hsame.peek?_eq] at hpeek
  rw [fingerprintOf?, hsame.names]
  exact h key e hpeek

theorem touch (h : cache.NamesFind) (fingerprint : String) :
    (cache.touch fingerprint).NamesFind := by
  intro key e hpeek
  rw [peek?_touch] at hpeek
  exact h key e hpeek

/-- A function whose name is free is found by it, and takes it from no other one. -/
theorem store (h : cache.NamesFind) (hcache : cache.Consistent)
    (habsent : cache.peek? fingerprint = none) (hname : entry.name = name)
    (hfree : ∀ key e, cache.peek? key = some e → e.name ≠ name) :
    (cache.store fingerprint name entry).NamesFind := by
  have hentry {pair : String × Entry φ} (hpair : pair ∈ cache.entries) :
      cache.peek? pair.1 = some pair.2 :=
    lookup_of_mem hcache.order_nodup hpair
  intro key e hpeek
  rw [fingerprintOf?, names_store habsent, lookup_forget, lookup_bindName, if_neg]
  · rw [peek?_store habsent, Option.or_eq_some_iff] at hpeek
    rcases hpeek with hold | ⟨-, hnew⟩
    · have hpresent := hentry (List.mem_of_mem_drop (mem_of_lookup hold))
      rw [if_neg (hfree key e hpresent)]
      exact h key e hpresent
    · obtain ⟨rfl, rfl⟩ : key = fingerprint ∧ entry = e := by simpa using hnew
      rw [if_pos hname]
  -- an entry that leaves has another name than those that stay
  · intro hdropped
    obtain ⟨pair, hpair, hsame⟩ := List.any_eq_true.mp hdropped
    have hleft := hentry (List.mem_of_mem_take hpair)
    have hsame : pair.2.name = e.name := by simpa using hsame
    rw [peek?_store habsent, Option.or_eq_some_iff] at hpeek
    rcases hpeek with hold | ⟨-, hnew⟩
    · have hdrop := mem_of_lookup hold
      have hright := hentry (List.mem_of_mem_drop hdrop)
      have hkeys : some pair.1 = some key :=
        (h pair.1 pair.2 hleft).symm.trans (hsame ▸ h key e hright)
      exact hcache.ne_of_mem_take_of_mem_drop hpair hdrop (Option.some.inj hkeys)
    · obtain ⟨rfl, rfl⟩ : key = fingerprint ∧ entry = e := by simpa using hnew
      exact hfree pair.1 pair.2 hleft (hsame.trans hname)

end NamesFind

/-- A cache with a bound holds functions of some fingerprints only, and finds each of them
by its name. -/
structure Indexed (bound : Option Nat) (used : List String) (cache : Cache φ) : Prop where
  bound_eq : cache.bound = bound
  mem_used : ∀ key ∈ cache.order, key ∈ used
  namesFind : cache.NamesFind

namespace Indexed

variable {bound : Option Nat} {used : List String}

theorem empty (bound : Option Nat) (bound_pos : ∀ n ∈ bound, 0 < n) (used : List String) :
    (Cache.empty bound bound_pos : Cache φ).Indexed bound used where
  bound_eq := rfl
  mem_used := fun _ h => absurd h List.not_mem_nil
  namesFind := fun _ _ h => by cases h

theorem of_sameTables (h : cache.Indexed bound used) (hsame : SameTables other cache) :
    other.Indexed bound used where
  bound_eq := hsame.bound.trans h.bound_eq
  mem_used := by rw [hsame.order_eq]; exact h.mem_used
  namesFind := h.namesFind.of_sameTables hsame

theorem touch (h : cache.Indexed bound used) (fingerprint : String) :
    (cache.touch fingerprint).Indexed bound used where
  bound_eq := h.bound_eq
  mem_used := fun key hkey =>
    h.mem_used key ((order_touch_perm cache fingerprint).mem_iff.mp hkey)
  namesFind := h.namesFind.touch fingerprint

theorem store (h : cache.Indexed bound used) (hcache : cache.Consistent)
    (habsent : cache.peek? fingerprint = none) (hused : fingerprint ∈ used)
    (hname : entry.name = name) (hfree : ∀ key e, cache.peek? key = some e → e.name ≠ name) :
    (cache.store fingerprint name entry).Indexed bound used where
  bound_eq := h.bound_eq
  mem_used := by
    intro key hkey
    rw [order_store habsent, List.mem_append, List.mem_singleton] at hkey
    rcases hkey with hold | rfl
    · exact h.mem_used key (List.mem_of_mem_drop hold)
    · exact hused
  namesFind := h.namesFind.store hcache habsent hname hfree

end Indexed

end Fluxion.Cache
