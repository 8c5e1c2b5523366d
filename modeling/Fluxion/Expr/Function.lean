/-!
# The table of functions

The functions that an expression may call. All take one argument; `floor` and
`ceil` can be evaluated but have no derivative.
-/

namespace Fluxion

inductive Function where
  | sin | cos | tan | exp | log | log10 | sqrt | abs | sign
  | asin | acos | atan | sinh | cosh | tanh | floor | ceil
deriving DecidableEq, Repr

namespace Function

/-- The table, in the order in which messages list it. -/
def all : List Function :=
  [.sin, .cos, .tan, .exp, .log, .log10, .sqrt, .abs, .sign,
    .asin, .acos, .atan, .sinh, .cosh, .tanh, .floor, .ceil]

def name : Function → String
  | .sin => "sin"
  | .cos => "cos"
  | .tan => "tan"
  | .exp => "exp"
  | .log => "log"
  | .log10 => "log10"
  | .sqrt => "sqrt"
  | .abs => "abs"
  | .sign => "sign"
  | .asin => "asin"
  | .acos => "acos"
  | .atan => "atan"
  | .sinh => "sinh"
  | .cosh => "cosh"
  | .tanh => "tanh"
  | .floor => "floor"
  | .ceil => "ceil"

def arity (_ : Function) : Nat := 1

def differentiable (f : Function) : Bool :=
  !(f == .floor || f == .ceil)

def ofName? (name : String) : Option Function :=
  all.find? fun f => f.name == name

theorem mem_all (f : Function) : f ∈ all := by
  cases f <;> decide

theorem name_injective {f g : Function} (h : f.name = g.name) : f = g := by
  cases f <;> cases g <;> first | rfl | exact absurd h (by decide)

@[simp]
theorem ofName?_name (f : Function) : ofName? f.name = some f := by
  cases f <;> decide

theorem name_of_ofName? {name : String} {f : Function} (h : ofName? name = some f) :
    f.name = name := by
  simpa using List.find?_some h

end Function

end Fluxion
