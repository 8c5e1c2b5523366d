import Fluxion.Cache.Basic
import Mathlib.Data.List.Nodup
import Mathlib.Tactic.Common

/-!
# The tables of a cache

A cache has two lists of pairs, its entries by fingerprint and the fingerprints by
name.  This module says what each change of a table does to what is found in it:
moving an entry to the end finds the same entries, dropping the oldest ones finds
what is left, and forgetting the names of dropped entries finds the other names.
-/

namespace Fluxion.Cache

section Tables

variable {α : Type} {table : List (String × α)} {key : String} {value : α}

theorem mem_of_lookup (h : table.lookup key = some value) : (key, value) ∈ table := by
  obtain ⟨before, after, rfl, -⟩ := List.lookup_eq_some_iff.mp h
  simp

theorem lookup_eq_none_iff_not_mem : table.lookup key = none ↔ key ∉ table.map (·.1) := by
  rw [List.lookup_eq_none_iff]
  constructor
  · intro h hmem
    obtain ⟨pair, hpair, rfl⟩ := List.mem_map.mp hmem
    simpa using h pair hpair
  · intro h pair hpair
    simp only [bne_iff_ne, ne_eq]
    rintro rfl
    exact h (List.mem_map_of_mem hpair)

/-- Where no key occurs twice, every pair is the one that is found. -/
theorem lookup_of_mem (hnodup : (table.map (·.1)).Nodup) (h : (key, value) ∈ table) :
    table.lookup key = some value := by
  obtain ⟨before, after, rfl⟩ := List.append_of_mem h
  have hbefore : before.lookup key = none := by
    rw [lookup_eq_none_iff_not_mem]
    intro hmem
    rw [List.map_append, List.nodup_append] at hnodup
    exact hnodup.2.2 key hmem key (by simp) rfl
  rw [List.lookup_append, hbefore, Option.none_or, List.lookup_cons_self]

theorem lookup_cons_eq (first : String) (value : α) (rest : List (String × α)) (key : String) :
    ((first, value) :: rest).lookup key = if key = first then some value else rest.lookup key := by
  by_cases h : key = first
  · simp [h]
  · have hne : (key == first) = false := by simpa using h
    rw [List.lookup_cons, hne, if_neg h]

/-- A table without some keys finds what it found under the others. -/
theorem lookup_filter_key (keep : String → Bool) (table : List (String × α)) (key : String) :
    (table.filter fun pair => keep pair.1).lookup key =
      if keep key then table.lookup key else none := by
  induction table with
  | nil => simp
  | cons pair rest ih =>
      obtain ⟨first, value⟩ := pair
      rw [List.filter_cons]
      by_cases hkey : key = first
      · subst hkey
        cases hkeep : keep key <;> simp [hkeep, ih]
      · cases hkeep : keep first with
        | true => simp only [if_true, lookup_cons_eq, if_neg hkey, ih]
        | false => simpa [lookup_cons_eq, hkey] using ih

end Tables

variable {φ ε β : Type} {cache : Cache φ} {fingerprint name : String} {entry : Entry φ}

theorem length_order (cache : Cache φ) : cache.order.length = cache.size :=
  List.length_map _

theorem mem_order_iff : fingerprint ∈ cache.order ↔ ∃ e, cache.peek? fingerprint = some e := by
  rw [← Option.isSome_iff_exists, ← not_iff_not, Option.not_isSome_iff_eq_none]
  exact lookup_eq_none_iff_not_mem.symm

theorem peek?_eq_none_iff : cache.peek? fingerprint = none ↔ fingerprint ∉ cache.order :=
  lookup_eq_none_iff_not_mem

/-- What is found is among the first entries or among the others. -/
theorem peek?_eq_take_or_drop (cache : Cache φ) (count : Nat) (key : String) :
    cache.peek? key =
      ((cache.entries.take count).lookup key).or ((cache.entries.drop count).lookup key) := by
  rw [← List.lookup_append, List.take_append_drop, peek?]

/-- An entry that is not among the first ones is found without them. -/
theorem lookup_drop_of_not_mem_take {count : Nat} (hpeek : cache.peek? fingerprint = some entry)
    (hkept : (fingerprint, entry) ∉ cache.entries.take count) :
    (cache.entries.drop count).lookup fingerprint = some entry := by
  rw [peek?_eq_take_or_drop cache count] at hpeek
  cases htake : (cache.entries.take count).lookup fingerprint with
  | none => rwa [htake, Option.none_or] at hpeek
  | some first =>
      rw [htake, Option.some_or, Option.some.injEq] at hpeek
      subst hpeek
      exact absurd (mem_of_lookup htake) hkept

/-! ## Moving to the end -/

/-- The order of use does not show when an entry is looked up. -/
theorem lookup_moveToEnd (entries : List (String × Entry φ)) (fingerprint key : String) :
    (moveToEnd entries fingerprint).lookup key = entries.lookup key := by
  have hothers := lookup_filter_key (· != fingerprint) entries key
  have hown := lookup_filter_key (· == fingerprint) entries key
  rw [moveToEnd, List.lookup_append]
  calc
    _ = (if key != fingerprint then entries.lookup key else none).or
          (if key == fingerprint then entries.lookup key else none) := by
        rw [← hothers, ← hown]
    _ = entries.lookup key := by
        by_cases h : key = fingerprint <;> simp [h]

@[simp]
theorem peek?_touch (cache : Cache φ) (fingerprint key : String) :
    (cache.touch fingerprint).peek? key = cache.peek? key :=
  lookup_moveToEnd cache.entries fingerprint key

theorem moveToEnd_perm (entries : List (String × Entry φ)) (fingerprint : String) :
    (moveToEnd entries fingerprint).Perm entries := by
  have hparts := List.filter_append_perm (fun pair => pair.1 != fingerprint) entries
  have hown : (fun pair : String × Entry φ => !(pair.1 != fingerprint)) =
      fun pair => pair.1 == fingerprint := by
    funext pair
    exact Bool.not_not _
  rw [hown] at hparts
  exact hparts

theorem order_touch_perm (cache : Cache φ) (fingerprint : String) :
    (cache.touch fingerprint).order.Perm cache.order :=
  (moveToEnd_perm cache.entries fingerprint).map _

/-- A use moves a fingerprint behind all others. -/
theorem order_touch (cache : Cache φ) (fingerprint : String) :
    (cache.touch fingerprint).order =
      cache.order.filter (· != fingerprint) ++ cache.order.filter (· == fingerprint) := by
  rw [order, touch, moveToEnd, List.map_append, order, List.filter_map, List.filter_map]
  rfl

theorem filter_beq_order (hnodup : cache.order.Nodup) (hmem : fingerprint ∈ cache.order) :
    cache.order.filter (· == fingerprint) = [fingerprint] := by
  rw [List.filter_beq, List.count_eq_one_of_mem hnodup hmem]
  rfl

@[simp]
theorem size_touch (cache : Cache φ) (fingerprint : String) :
    (cache.touch fingerprint).size = cache.size :=
  (moveToEnd_perm cache.entries fingerprint).length_eq

/-! ## Names -/

theorem lookup_forget (names : List (String × String)) (dropped : List (String × Entry φ))
    (name : String) :
    (forget names dropped).lookup name =
      if dropped.any (fun pair => pair.2.name == name) then none else names.lookup name := by
  have h := lookup_filter_key (fun n => !dropped.any fun pair => pair.2.name == n) names name
  cases hdropped : dropped.any fun pair => pair.2.name == name with
  | true => simpa [forget, hdropped] using h
  | false => simpa [forget, hdropped] using h

theorem lookup_bindName (names : List (String × String)) (name fingerprint key : String) :
    (bindName names name fingerprint).lookup key =
      if key = name then some fingerprint else names.lookup key := by
  have hothers := lookup_filter_key (· != name) names key
  rw [bindName, lookup_cons_eq]
  by_cases h : key = name
  · rw [if_pos h, if_pos h]
  · rw [if_neg h, if_neg h]
    simpa [h] using hothers

/-! ## New entries -/

/-- How many entries leave a cache to make room for one more. -/
def leaving (cache : Cache φ) : Nat :=
  match cache.bound with
  | none => 0
  | some bound => cache.size + 1 - bound

/-- How many of `count` entries a bound allows. -/
def allowed (bound : Option Nat) (count : Nat) : Nat :=
  match bound with
  | none => count
  | some bound => min bound count

theorem leaving_le_size (cache : Cache φ) : cache.leaving ≤ cache.size := by
  rw [leaving]
  split
  · exact Nat.zero_le _
  · rename_i bound hbound
    have hpos := cache.bound_pos bound hbound
    omega

theorem put_of_absent {entries : List (String × Entry φ)}
    (habsent : entries.lookup fingerprint = none) (entry : Entry φ) :
    put entries fingerprint entry = entries ++ [(fingerprint, entry)] := by
  rw [put, habsent]
  rfl

section Store

variable (habsent : cache.peek? fingerprint = none) (name : String) (entry : Entry φ)

include habsent

/-- The oldest entries leave, and the new one is the youngest. -/
theorem entries_store :
    (cache.store fingerprint name entry).entries =
      cache.entries.drop cache.leaving ++ [(fingerprint, entry)] := by
  have hle := cache.leaving_le_size
  rw [store, put_of_absent habsent, evict, excess]
  simp only [List.length_append, List.length_singleton]
  exact List.drop_append_of_le_length hle

/-- Storing binds the name first and then forgets the names of what is dropped, the new one too if
an old entry carried it. -/
theorem names_store :
    (cache.store fingerprint name entry).names =
      forget (bindName cache.names name fingerprint) (cache.entries.take cache.leaving) := by
  have hle := cache.leaving_le_size
  rw [store, put_of_absent habsent, evict, excess]
  simp only [List.length_append, List.length_singleton]
  exact congrArg _ (List.take_append_of_le_length hle)

/-- What is stored goes to the end; what leaves was at the front. -/
theorem order_store :
    (cache.store fingerprint name entry).order =
      cache.order.drop cache.leaving ++ [fingerprint] := by
  rw [order, entries_store habsent, List.map_append, List.map_drop]
  rfl

/-- Where one entry is allowed, the new one takes the place of all others. -/
theorem order_store_of_one (hbound : cache.bound = some 1) :
    (cache.store fingerprint name entry).order = [fingerprint] := by
  have hleaving : cache.leaving = cache.order.length := by
    rw [leaving, hbound, length_order]
    rfl
  rw [order_store habsent, hleaving, List.drop_length, List.nil_append]

/-- An entry that was found before is still found, unless it is one that leaves. -/
theorem peek?_store (key : String) :
    (cache.store fingerprint name entry).peek? key =
      ((cache.entries.drop cache.leaving).lookup key).or
        (if key = fingerprint then some entry else none) := by
  rw [peek?, entries_store habsent, List.lookup_append, lookup_cons_eq, List.lookup_nil]

theorem peek?_store_self : (cache.store fingerprint name entry).peek? fingerprint = some entry := by
  have hdrop : (cache.entries.drop cache.leaving).lookup fingerprint = none := by
    rw [lookup_eq_none_iff_not_mem, List.map_drop]
    exact fun hmem => peek?_eq_none_iff.mp habsent (List.mem_of_mem_drop hmem)
  rw [peek?_store habsent, hdrop, if_pos rfl, Option.none_or]

/-- The cache grows by one entry as far as the bound allows. -/
theorem size_store :
    (cache.store fingerprint name entry).size = allowed cache.bound (cache.size + 1) := by
  rw [size, entries_store habsent, List.length_append, List.length_drop, List.length_singleton]
  change cache.size - cache.leaving + 1 = allowed cache.bound (cache.size + 1)
  rw [leaving]
  cases hbound : cache.bound with
  | none => rfl
  | some bound =>
      have hpos := cache.bound_pos bound hbound
      simp only [allowed]
      omega

/-- The new entry comes, and those that leave are counted. -/
theorem size_store_add_leaving :
    (cache.store fingerprint name entry).size + cache.leaving = cache.size + 1 := by
  have hle := cache.leaving_le_size
  have hlength : (cache.entries.drop cache.leaving).length = cache.size - cache.leaving :=
    List.length_drop
  rw [size, entries_store habsent, List.length_append, List.length_singleton, hlength]
  omega

theorem stats_store :
    (cache.store fingerprint name entry).stats =
      { cache.stats with
          compiles := cache.stats.compiles + 1
          evictions := cache.stats.evictions + cache.leaving } := by
  rw [store, put_of_absent habsent, evict, excess]
  simp only [List.length_append, List.length_singleton]
  rfl

theorem size_store_le {bound : Nat} (hbound : cache.bound = some bound) :
    (cache.store fingerprint name entry).size ≤ bound := by
  rw [size_store habsent, hbound]
  exact Nat.min_le_left _ _

end Store

end Fluxion.Cache
