import Fluxion.Calculus.Derivative
import Fluxion.Decimal.Reading
import Fluxion.Number.Policy
import Fluxion.Text.Lowercase

/-!
# The configuration of a session

A configuration is made from given values or from the settings of the
environment. Either way it is refused if a part of it makes no sense; the parts
are looked at in a fixed order, and the first fault counts.

* `Config.make?` takes values.
* `Config.ofEnvironment?` reads texts: blanks around them are dropped, a blank
  text stands for the default, and a bound of zero or less for no bound.
-/

namespace Fluxion.Session

open Fluxion.Calculus Fluxion.Decimal Fluxion.Number Fluxion.Text

/-- How a session works: how many functions it keeps (all of them, if there is
no bound), how it differentiates, and when results are promoted. -/
structure Config where
  cacheBound : Option Nat
  mode : Mode
  policy : Policy
  cacheBound_pos : ∀ n ∈ cacheBound, 0 < n

inductive ConfigError where
  /-- The text of a setting is not an integer. -/
  | notInteger (setting text : String)
  /-- The text of a setting is not a number. -/
  | notNumber (setting text : String)
  | unknownMode (name : String)
  | policy (error : PolicyError)
  /-- The bound of the cache is not positive. -/
  | cacheBound
deriving DecidableEq, Repr

def ConfigError.message : ConfigError → String
  | .notInteger setting text => setting ++ " must be an integer, got " ++ quoted text
  | .notNumber setting text => setting ++ " must be a number, got " ++ quoted text
  | .unknownMode name => Mode.unknownMessage name
  | .policy error => error.message
  | .cacheBound => "cache_max_entries must be positive or None"

def defaultCacheBound : Nat := 256

def Config.default : Config :=
  ⟨some defaultCacheBound, .forward, Policy.default, by simp [defaultCacheBound]⟩

def modeOfName (name : String) : Except ConfigError Mode :=
  match Mode.ofName? name with
  | some mode => .ok mode
  | none => .error (.unknownMode name)

def policyOf (bits : Int) (threshold : Float) : Except ConfigError Policy :=
  match Policy.make? bits threshold with
  | .ok policy => .ok policy
  | .error e => .error (.policy e)

theorem Config.noBound_pos : ∀ n ∈ (none : Option Nat), 0 < n := by
  simp

theorem Config.toNat_pos {bound : Int} (h : 0 < bound) : ∀ n ∈ some bound.toNat, 0 < n := by
  intro n hn
  cases hn
  omega

def Config.withBound (mode : Mode) (policy : Policy) : Option Int → Except ConfigError Config
  | none => .ok ⟨none, mode, policy, Config.noBound_pos⟩
  | some bound =>
      if h : 0 < bound then .ok ⟨some bound.toNat, mode, policy, Config.toNat_pos h⟩
      else .error .cacheBound

/-- The configuration with the given values. The policy is looked at first, the
bound last. -/
def Config.make? (bound : Option Int) (mode : String) (bits : Int) (threshold : Float) :
    Except ConfigError Config := do
  let policy ← policyOf bits threshold
  let mode ← modeOfName mode
  Config.withBound mode policy bound

def cacheBoundSetting : String := "DIFFJIT_CACHE_MAX"

def modeSetting : String := "DIFFJIT_DEFAULT_MODE"

def precisionSetting : String := "DIFFJIT_PRECISION_BITS"

def thresholdSetting : String := "DIFFJIT_PROMOTE_THRESHOLD"

def settingNames : List String :=
  [cacheBoundSetting, modeSetting, precisionSetting, thresholdSetting]

/-- The settings that are there, by name. -/
abbrev Environment := List (String × String)

namespace Environment

/-- The text of a setting, without the blanks around it. -/
def text? (env : Environment) (setting : String) : Option String :=
  (env.lookup setting).map strip

def integer (env : Environment) (setting : String) (ifBlank : Int) : Except ConfigError Int :=
  let text := (env.text? setting).getD ""
  if text.isEmpty then .ok ifBlank
  else
    match readInt? text with
    | some n => .ok n
    | none => .error (.notInteger setting text)

def number (env : Environment) (setting : String) (ifBlank : Float) : Except ConfigError Float :=
  let text := (env.text? setting).getD ""
  if text.isEmpty then .ok ifBlank
  else
    match readFloat? text with
    | some x => .ok x
    | none => .error (.notNumber setting text)

end Environment

def boundOfSetting (n : Int) : Option Int :=
  if 0 < n then some n else none

/-- The configuration that the environment asks for. A mode may be in any case,
but it has no blank form. -/
def Config.ofEnvironment? (env : Environment) : Except ConfigError Config := do
  let bound ← env.integer cacheBoundSetting defaultCacheBound
  let mode ← modeOfName (lower ((env.text? modeSetting).getD Mode.forward.name))
  let bits ← env.integer precisionSetting defaultBits
  let threshold ← env.number thresholdSetting defaultThreshold
  let policy ← policyOf bits threshold
  Config.withBound mode policy (boundOfSetting bound)

end Fluxion.Session
