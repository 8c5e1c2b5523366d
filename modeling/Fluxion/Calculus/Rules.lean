import Fluxion.Calculus.Error
import Fluxion.Calculus.Fold

/-!
# Rules of differentiation

What both modes share: which calls are admitted, the derivative of each
function of the table, and the guard of the quotient rule.
-/

namespace Fluxion.Calculus

variable {α : Type} [Scalar α]

/-- The function that a call means: a name of the table with as many arguments
as the function takes. -/
def resolve (name : String) (count : Nat) : Except DerivativeError Function :=
  match Function.ofName? name with
  | none => .error (.unknownFunction name)
  | some f => if count = f.arity then .ok f else .error (.argumentCount name f.arity count)

mutual
/-- Whether every call of the tree is admitted. The nodes are visited from the
root on, each before its subtrees, and at most `levels` levels deep; the first
fault that is met counts. -/
def checkCalls : Nat → Expr α → Except DerivativeError Unit
  | 0, _ => .error .tooDeep
  | _ + 1, .const _ => .ok ()
  | _ + 1, .var _ => .ok ()
  | levels + 1, .unary _ a => checkCalls levels a
  | levels + 1, .binary _ a b => do
      checkCalls levels a
      checkCalls levels b
  | levels + 1, .call name args => do
      let _ ← resolve name args.length
      checkCallsList levels args

def checkCallsList : Nat → List (Expr α) → Except DerivativeError Unit
  | _, [] => .ok ()
  | levels, a :: as => do
      checkCalls levels a
      checkCallsList levels as
end

/-- The derivative of a function at the argument `u`, without the inner
derivative. -/
def functionDerivative (f : Function) (u : Expr α) : Except DerivativeError (Expr α) :=
  match f with
  | .sin => .ok (Fold.call .cos u)
  | .cos => .ok (Fold.neg (Fold.call .sin u))
  | .tan => .ok (Fold.div Fold.one (Fold.pow (Fold.call .cos u) Fold.two))
  | .exp => .ok (Fold.call .exp u)
  | .log => .ok (Fold.div Fold.one u)
  | .log10 => .ok (Fold.div Fold.one (Fold.mul u (.const Scalar.logTen)))
  | .sqrt => .ok (Fold.div Fold.one (Fold.mul Fold.two (Fold.call .sqrt u)))
  | .abs => .ok (Fold.call .sign u)
  | .sign => .ok Fold.zero
  | .asin =>
      .ok (Fold.div Fold.one (Fold.call .sqrt (Fold.sub Fold.one (Fold.pow u Fold.two))))
  | .acos =>
      .ok (Fold.neg
        (Fold.div Fold.one (Fold.call .sqrt (Fold.sub Fold.one (Fold.pow u Fold.two)))))
  | .atan => .ok (Fold.div Fold.one (Fold.add Fold.one (Fold.pow u Fold.two)))
  | .sinh => .ok (Fold.call .cosh u)
  | .cosh => .ok (Fold.call .sinh u)
  | .tanh => .ok (Fold.sub Fold.one (Fold.pow (Fold.call .tanh u) Fold.two))
  | .floor => .error (.noRule (Function.name .floor))
  | .ceil => .error (.noRule (Function.name .ceil))

/-- Refuses a denominator that is known to be zero. -/
def guardDenominator (v : Expr α) : Except DerivativeError Unit :=
  if foldsToZero v then .error .zeroDenominator else .ok ()

end Fluxion.Calculus
