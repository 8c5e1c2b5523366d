import Fluxion.Code.Error

/-!
# The cache of compiled functions

The cache keeps compiled functions by fingerprint and finds them by name. With
a bound it drops the function that was used least recently when it grows past
the bound.

* `enter` is the only way in. A caller finds the function, or becomes the one
  that builds it, or waits for the caller that does.
* `settle` ends a build. Every way in which it ends takes the fingerprint out
  of those that are being built; a build that fails leaves no other trace but
  in the statistics.
* `request` is the whole visit of one caller, `requestTogether` that of several
  at once: the first builds, the others wait for what it gets.
* The entries are listed from the least to the most recently used.
-/

namespace Fluxion

open Fluxion.Code

namespace Cache

/-- What is known of a compiled function; `payload` is what can be run. -/
structure Entry (φ : Type) where
  fingerprint : String
  name : String
  source : String
  payload : φ

structure Stats where
  hits : Nat
  misses : Nat
  compiles : Nat
  evictions : Nat
  failures : Nat
deriving DecidableEq, Repr

def Stats.zero : Stats := ⟨0, 0, 0, 0, 0⟩

/-- Why a build gave nothing: an error of the code, which the cache counts as a
failure, or anything else. -/
inductive BuildError (ε : Type) where
  | compile (error : CompileError)
  | other (error : ε)

/-- Why a caller gets no function. -/
inductive RequestError (ε : Type) where
  /-- The build failed, be it the caller's own or the one it waited for. -/
  | build (error : BuildError ε)
  /-- The caller waits for a build that nobody ends. -/
  | unfinished

/-- The fingerprint that a name stands for, but that is not in the cache. -/
structure Dangling where
  fingerprint : String
deriving DecidableEq, Repr

inductive BoundError where
  /-- The bound is not positive. -/
  | notPositive
deriving DecidableEq, Repr

def BoundError.message : BoundError → String
  | .notPositive => "max_entries must be positive or None"

end Cache

/-- A cache: its bound, which is positive, its entries by fingerprint from the
least to the most recently used, the fingerprint that each name stands for, the
fingerprints whose functions are being built, and the statistics. -/
structure Cache (φ : Type) where
  bound : Option Nat
  entries : List (String × Cache.Entry φ)
  names : List (String × String)
  inFlight : List String
  stats : Cache.Stats
  bound_pos : ∀ n ∈ bound, 0 < n

namespace Cache

variable {φ ε β : Type}

def empty (bound : Option Nat) (bound_pos : ∀ n ∈ bound, 0 < n) : Cache φ :=
  ⟨bound, [], [], [], Stats.zero, bound_pos⟩

/-- An empty cache with the given bound, if it makes sense. -/
def make? : Option Int → Except BoundError (Cache φ)
  | none => .ok (empty none (by simp))
  | some bound =>
      if h : 0 < bound then .ok (empty (some bound.toNat) fun n hn => by cases hn; omega)
      else .error .notPositive

def peek? (cache : Cache φ) (fingerprint : String) : Option (Entry φ) :=
  cache.entries.lookup fingerprint

def contains (cache : Cache φ) (fingerprint : String) : Bool :=
  (cache.peek? fingerprint).isSome

def size (cache : Cache φ) : Nat :=
  cache.entries.length

/-- The fingerprints, from the least to the most recently used. -/
def order (cache : Cache φ) : List String :=
  cache.entries.map (·.1)

def moveToEnd (entries : List (String × Entry φ)) (fingerprint : String) :
    List (String × Entry φ) :=
  entries.filter (fun (key, _) => key != fingerprint) ++
    entries.filter (fun (key, _) => key == fingerprint)

/-- Makes the entry of a fingerprint the most recently used. -/
def touch (cache : Cache φ) (fingerprint : String) : Cache φ :=
  { cache with entries := moveToEnd cache.entries fingerprint }

def countHit (cache : Cache φ) : Cache φ :=
  { cache with stats := { cache.stats with hits := cache.stats.hits + 1 } }

def countMiss (cache : Cache φ) : Cache φ :=
  { cache with stats := { cache.stats with misses := cache.stats.misses + 1 } }

def countFailure (cache : Cache φ) : Cache φ :=
  { cache with stats := { cache.stats with failures := cache.stats.failures + 1 } }

/-- The entry of a fingerprint, which counts as a use and a hit if it is there. -/
def get (cache : Cache φ) (fingerprint : String) : Cache φ × Option (Entry φ) :=
  match cache.peek? fingerprint with
  | some e => ((cache.touch fingerprint).countHit, some e)
  | none => (cache, none)

def fingerprintOf? (cache : Cache φ) (name : String) : Option String :=
  cache.names.lookup name

/-- The entry that a name stands for, which counts as a use but not as a hit. -/
def lookup (cache : Cache φ) (name : String) : Cache φ × Except Dangling (Option (Entry φ)) :=
  match cache.fingerprintOf? name with
  | none => (cache, .ok none)
  | some fingerprint =>
      match cache.peek? fingerprint with
      | none => (cache, .error ⟨fingerprint⟩)
      | some e => (cache.touch fingerprint, .ok (some e))

/-- The names without those of a list of dropped entries. -/
def forget (names : List (String × String)) (dropped : List (String × Entry φ)) :
    List (String × String) :=
  names.filter fun (name, _) => !dropped.any fun (_, e) => e.name == name

def excess (cache : Cache φ) : Nat :=
  match cache.bound with
  | none => 0
  | some bound => cache.entries.length - bound

/-- Drops the least recently used entries that the bound does not allow, and the
names they carry. -/
def evict (cache : Cache φ) : Cache φ :=
  { cache with
      entries := cache.entries.drop cache.excess
      names := forget cache.names (cache.entries.take cache.excess)
      stats := { cache.stats with evictions := cache.stats.evictions + cache.excess } }

/-- The entries with one for a fingerprint: in the place of the one that it has,
or else at the end. -/
def put (entries : List (String × Entry φ)) (fingerprint : String) (entry : Entry φ) :
    List (String × Entry φ) :=
  if (entries.lookup fingerprint).isSome then
    entries.map fun (key, e) => (key, if key == fingerprint then entry else e)
  else entries ++ [(fingerprint, entry)]

/-- A name bound to a fingerprint, whatever it stood for before. -/
def bindName (names : List (String × String)) (name fingerprint : String) :
    List (String × String) :=
  (name, fingerprint) :: names.filter fun (n, _) => n != name

/-- Takes in a function that was just compiled for a fingerprint under a name. -/
def store (cache : Cache φ) (fingerprint name : String) (entry : Entry φ) : Cache φ :=
  evict
    { cache with
        entries := put cache.entries fingerprint entry
        names := bindName cache.names name fingerprint
        stats := { cache.stats with compiles := cache.stats.compiles + 1 } }

/-- Marks a fingerprint as one whose function is being built. -/
def takeOff (cache : Cache φ) (fingerprint : String) : Cache φ :=
  { cache with inFlight := fingerprint :: cache.inFlight }

/-- Takes the mark of a fingerprint away. -/
def land (cache : Cache φ) (fingerprint : String) : Cache φ :=
  { cache with inFlight := cache.inFlight.filter (· != fingerprint) }

/-- The cache after a build has ended. -/
def settle (cache : Cache φ) (fingerprint name : String) :
    Except (BuildError ε) (Entry φ) → Cache φ
  | .ok entry => (cache.land fingerprint).store fingerprint name entry
  | .error (.compile _) => (cache.land fingerprint).countFailure
  | .error (.other _) => cache.land fingerprint

/-- What a caller finds. -/
inductive Ticket (φ : Type) where
  /-- The function is there. -/
  | found (entry : Entry φ)
  /-- The function is not there, and the caller builds it. -/
  | builder
  /-- Another caller builds the function, and this one waits. -/
  | waiter

/-- A caller asks for the function of a fingerprint. -/
def enter (cache : Cache φ) (fingerprint : String) : Cache φ × Ticket φ :=
  match cache.peek? fingerprint with
  | some e => ((cache.touch fingerprint).countHit, .found e)
  | none =>
      if cache.inFlight.contains fingerprint then (cache.countHit, .waiter)
      else ((cache.takeOff fingerprint).countMiss, .builder)

/-- Several callers ask for the function of a fingerprint, one after another, while
no build ends. -/
def enterAll (cache : Cache φ) (fingerprint : String) : Nat → Cache φ × List (Ticket φ)
  | 0 => (cache, [])
  | count + 1 =>
      let (cache, ticket) := cache.enter fingerprint
      let (cache, tickets) := cache.enterAll fingerprint count
      (cache, ticket :: tickets)

def Ticket.builds : Ticket φ → Bool
  | .builder => true
  | _ => false

/-- What a caller gets, given how the build ended, if it did. -/
def Ticket.answer (built? : Option (Except (BuildError ε) (Entry φ))) :
    Ticket φ → Except (RequestError ε) (Entry φ)
  | .found e => .ok e
  | _ =>
      match built? with
      | some (.ok e) => .ok e
      | some (.error e) => .error (.build e)
      | none => .error .unfinished

/-- What builds a function: it changes a state of its own. -/
abbrev Build (β ε φ : Type) := β → β × Except (BuildError ε) (Entry φ)

def request (cache : Cache φ) (fingerprint name : String) (build : Build β ε φ) (builder : β) :
    Cache φ × β × Except (RequestError ε) (Entry φ) :=
  let (cache, ticket) := cache.enter fingerprint
  if ticket.builds then
    let (builder, result) := build builder
    (cache.settle fingerprint name result, builder, ticket.answer (some result))
  else (cache, builder, ticket.answer none)

/-- Requests of `count` callers at once: the build does not end before all of them
have asked. -/
def requestTogether (cache : Cache φ) (count : Nat) (fingerprint name : String)
    (build : Build β ε φ) (builder : β) :
    Cache φ × β × List (Except (RequestError ε) (Entry φ)) :=
  let (cache, tickets) := cache.enterAll fingerprint count
  if tickets.any Ticket.builds then
    let (builder, result) := build builder
    (cache.settle fingerprint name result, builder, tickets.map (Ticket.answer (some result)))
  else (cache, builder, tickets.map (Ticket.answer none))

def clear (cache : Cache φ) : Cache φ :=
  { cache with entries := [], names := [] }

@[simp]
theorem order_clear (cache : Cache φ) : cache.clear.order = [] := rfl

def resetStats (cache : Cache φ) : Cache φ :=
  { cache with stats := Stats.zero }

def hitRate (cache : Cache φ) : Float :=
  let total := cache.stats.hits + cache.stats.misses
  if total = 0 then 0.0 else Number.Binary64.nearest false cache.stats.hits total

end Cache

end Fluxion
