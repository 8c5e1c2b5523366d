import Fluxion.Calculus.Forward
import Fluxion.Calculus.Reverse
import Fluxion.Stack

/-!
# Derivatives

`differentiate` checks every call of the expression, also those that the
variable does not reach, and then works in the mode that is asked for. The check
and forward mode descend the tree. Reverse mode looks trees up on its tape, each
under a key that is as deep as the tree.
-/

namespace Fluxion.Calculus

open Fluxion.Text

/-- How a derivative is found. -/
inductive Mode where
  | forward | reverse
deriving DecidableEq, Repr, Inhabited

def Mode.name : Mode → String
  | .forward => "forward"
  | .reverse => "reverse"

def Mode.ofName? (s : String) : Option Mode :=
  if s = "forward" then some .forward
  else if s = "reverse" then some .reverse
  else none

def Mode.unknownMessage (s : String) : String :=
  quoted s ++ " is not a valid Mode"

section Stack

variable {α : Type} [Stack]

def FitsStack (mode : Mode) (e : Expr α) : Prop :=
  e.height ≤ Stack.rules ∧ (mode = .reverse → e.height ≤ Stack.lookups)

instance (mode : Mode) (e : Expr α) : Decidable (FitsStack mode e) :=
  inferInstanceAs (Decidable (_ ∧ _))

/-- Fails if the keys of a tree are too deep for the tape. -/
def checkLookups (mode : Mode) (e : Expr α) : Except DerivativeError Unit :=
  if mode = .reverse ∧ Stack.lookups < e.height then .error .tooDeep else .ok ()

variable [Scalar α]

/-- The derivative of an expression whose calls are admitted, for which there is room. -/
def derivativeBy (mode : Mode) (x : String) (e : Expr α) : Except DerivativeError (Expr α) :=
  match mode with
  | .forward => forward x e
  | .reverse => reverse x e

def differentiate (mode : Mode) (x : String) (e : Expr α) : Except DerivativeError (Expr α) := do
  checkCalls Stack.rules e
  checkLookups mode e
  derivativeBy mode x e

/-- A derivative is found only if all calls are admitted. -/
theorem differentiate_eq_ok {mode : Mode} {x : String} {e d : Expr α}
    (h : differentiate mode x e = .ok d) :
    checkCalls Stack.rules e = .ok () ∧ derivativeBy mode x e = .ok d := by
  rw [differentiate] at h
  cases hcheck : checkCalls Stack.rules e with
  | error err =>
      rw [hcheck] at h
      cases h
  | ok _ =>
      rw [hcheck] at h
      cases hlookups : checkLookups mode e with
      | error err =>
          rw [hlookups] at h
          cases h
      | ok _ =>
          rw [hlookups] at h
          exact ⟨rfl, h⟩

end Stack

@[simp]
theorem Mode.ofName?_name (m : Mode) : ofName? m.name = some m := by
  cases m <;> rfl

end Fluxion.Calculus
