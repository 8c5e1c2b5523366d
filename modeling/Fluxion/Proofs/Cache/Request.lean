import Fluxion.Proofs.Cache.Entries

/-!
# Requests to an idle cache

While nothing is being built a request goes one of two ways.  A function that is
there is touched and returned to every caller.  For one that is not there the first
caller builds, the others wait, and all of them get what the build gives.

These are the two ways in closed form, for one caller and for several at once.
-/

namespace Fluxion.Cache

variable {φ ε β : Type} {cache : Cache φ} {fingerprint name : String} {entry : Entry φ}
variable {build : Build β ε φ} {builder : β}

def countHits (cache : Cache φ) (count : Nat) : Cache φ :=
  { cache with stats := { cache.stats with hits := cache.stats.hits + count } }

/-- What a caller gets from the build that it starts or waits for. -/
def answerOf (result : Except (BuildError ε) (Entry φ)) : Except (RequestError ε) (Entry φ) :=
  Ticket.builder.answer (some result)

/-- Who finds the function there makes it the most recently used one. -/
theorem enter_of_present (hpresent : cache.peek? fingerprint = some entry) :
    cache.enter fingerprint = ((cache.touch fingerprint).countHit, .found entry) := by
  rw [enter, hpresent]

/-- Who finds nothing, and nobody at work, has to build. -/
theorem enter_of_absent (habsent : cache.peek? fingerprint = none)
    (hfree : fingerprint ∉ cache.inFlight) :
    cache.enter fingerprint = ((cache.takeOff fingerprint).countMiss, .builder) := by
  rw [enter, habsent]
  simp [hfree]

/-- Who finds somebody at work waits, and counts as a hit. -/
theorem enter_of_inFlight (habsent : cache.peek? fingerprint = none)
    (hbusy : fingerprint ∈ cache.inFlight) :
    cache.enter fingerprint = (cache.countHit, .waiter) := by
  rw [enter, habsent]
  simp [hbusy]

@[simp]
theorem touch_touch (cache : Cache φ) (fingerprint : String) :
    (cache.touch fingerprint).touch fingerprint = cache.touch fingerprint := by
  have hboth (entries : List (String × Entry φ)) :
      entries.filter (fun pair => pair.1 != fingerprint && pair.1 == fingerprint) = [] := by
    simp
  simp only [touch, moveToEnd, List.filter_append, List.filter_filter, Bool.and_self,
    Bool.and_comm (_ == _), hboth, List.append_nil, List.nil_append]

theorem countHits_countHit (cache : Cache φ) (count : Nat) :
    cache.countHit.countHits count = cache.countHits (count + 1) := by
  simp only [countHit, countHits, Nat.add_assoc, Nat.add_comm 1]

theorem enterAll_of_present (hpresent : cache.peek? fingerprint = some entry) (count : Nat) :
    cache.enterAll fingerprint (count + 1) =
      ((cache.touch fingerprint).countHits (count + 1),
        List.replicate (count + 1) (.found entry)) := by
  induction count generalizing cache with
  | zero => rw [enterAll, enter_of_present hpresent]; rfl
  | succ count ih =>
      have hnext : (cache.touch fingerprint).countHit.peek? fingerprint = some entry :=
        (peek?_touch cache fingerprint fingerprint).trans hpresent
      have htouch : (cache.touch fingerprint).countHit.touch fingerprint =
          (cache.touch fingerprint).countHit :=
        congrArg countHit (touch_touch cache fingerprint)
      rw [enterAll, enter_of_present hpresent]
      simp only [ih hnext, htouch, countHits_countHit]
      rfl

/-- Whoever asks while the function is being built waits. -/
theorem enterAll_of_inFlight (habsent : cache.peek? fingerprint = none)
    (hbusy : fingerprint ∈ cache.inFlight) (count : Nat) :
    cache.enterAll fingerprint count =
      (cache.countHits count, List.replicate count .waiter) := by
  induction count generalizing cache with
  | zero => rfl
  | succ count ih =>
      have hrest := @ih cache.countHit habsent hbusy
      rw [enterAll, enter_of_inFlight habsent hbusy]
      simp only [hrest, countHits_countHit]
      rfl

/-- The first of several callers builds. -/
theorem enterAll_of_absent (habsent : cache.peek? fingerprint = none)
    (hfree : fingerprint ∉ cache.inFlight) (count : Nat) :
    cache.enterAll fingerprint (count + 1) =
      ((cache.takeOff fingerprint).countMiss.countHits count,
        .builder :: List.replicate count .waiter) := by
  have hnext : (cache.takeOff fingerprint).countMiss.peek? fingerprint = none := habsent
  have hbusy : fingerprint ∈ (cache.takeOff fingerprint).countMiss.inFlight :=
    List.mem_cons_self
  rw [enterAll, enter_of_absent habsent hfree]
  simp only [enterAll_of_inFlight hnext hbusy]

/-- The mark of the fingerprint that is being built goes away with the build. -/
theorem settle_takeOff (hidle : cache.inFlight = []) (fingerprint name : String) (count : Nat)
    (result : Except (BuildError ε) (Entry φ)) :
    ((cache.takeOff fingerprint).countMiss.countHits count).settle fingerprint name result =
      (cache.countMiss.countHits count).settle fingerprint name result := by
  have hland : ((cache.takeOff fingerprint).countMiss.countHits count).land fingerprint =
      (cache.countMiss.countHits count).land fingerprint := by
    simp [takeOff, land, countMiss, countHits, hidle]
  cases result with
  | ok entry => rw [settle, settle, hland]
  | error error =>
      cases error with
      | compile _ => rw [settle, settle, hland]
      | other _ => rw [settle, settle, hland]

/-! ## One caller -/

theorem request_of_present (hpresent : cache.peek? fingerprint = some entry) :
    cache.request fingerprint name build builder =
      ((cache.touch fingerprint).countHit, builder, .ok entry) := by
  rw [request, enter_of_present hpresent]
  rfl

theorem request_of_absent (hidle : cache.inFlight = [])
    (habsent : cache.peek? fingerprint = none) :
    cache.request fingerprint name build builder =
      (cache.countMiss.settle fingerprint name (build builder).2, (build builder).1,
        answerOf (build builder).2) := by
  have hfree : fingerprint ∉ cache.inFlight := by simp [hidle]
  have hsettle := settle_takeOff hidle fingerprint name 0 (build builder).2
  rw [request, enter_of_absent habsent hfree]
  exact congrArg (·, (build builder).1, answerOf (build builder).2) hsettle

/-! ## Several callers -/

theorem requestTogether_of_present (hpresent : cache.peek? fingerprint = some entry)
    (count : Nat) :
    cache.requestTogether (count + 1) fingerprint name build builder =
      ((cache.touch fingerprint).countHits (count + 1), builder,
        List.replicate (count + 1) (.ok entry)) := by
  have hnobody : (List.replicate (count + 1) (Ticket.found entry)).any Ticket.builds = false := by
    simp [Ticket.builds]
  rw [requestTogether, enterAll_of_present hpresent]
  simp only [hnobody, List.map_replicate]
  rfl

/-- All of the callers get what the one build gives. -/
theorem requestTogether_of_absent (hidle : cache.inFlight = [])
    (habsent : cache.peek? fingerprint = none) (count : Nat) :
    cache.requestTogether (count + 1) fingerprint name build builder =
      ((cache.countMiss.countHits count).settle fingerprint name (build builder).2,
        (build builder).1, List.replicate (count + 1) (answerOf (build builder).2)) := by
  have hfree : fingerprint ∉ cache.inFlight := by simp [hidle]
  rw [requestTogether, enterAll_of_absent habsent hfree]
  simp only [List.any_cons, Ticket.builds, Bool.true_or, if_true, settle_takeOff hidle,
    List.map_cons, List.map_replicate]
  rfl

end Fluxion.Cache
