import Fluxion.Code.Basic
import Fluxion.Kernel.Basic
import Fluxion.Kernel.Interpreter
import Fluxion.Stack

/-!
# Lowering code to kernels

A module is run to bind its names, and a function is lowered by running it on a
value that stands for the argument. Arithmetic on numbers is carried out at
once; everything that involves the argument or a function of the table becomes
part of the kernel.

Dividing two numbers by zero therefore fails while the code is lowered, and
dividing by a part of a kernel never does.
-/

namespace Fluxion.Kernel

open Fluxion.Code Fluxion.Number

inductive Value where
  | integer (n : Int)
  | float (x : Float)
  /-- A part of the kernel. -/
  | traced (kernel : Kernel)
  /-- A function of the table. -/
  | function (f : Function)
  /-- The function that raises to a power. -/
  | power
  /-- A function of the code, with the values of the names around it. -/
  | closure (param : String) (body : Term) (locals : List (String × Value))

abbrev Bindings := Namespace Value

namespace Value

def integerFloat (n : Int) : Float :=
  Binary64.nearest (decide (n < 0)) n.natAbs 1

/-- A value as a part of the kernel, unless it is a function. -/
def toKernel : Value → Except RunError Kernel
  | .integer n => .ok (.constant (integerFloat n))
  | .float x => .ok (.constant x)
  | .traced k => .ok k
  | _ => .error .notNumeric

def isCallable : Value → Bool
  | .function _ => true
  | .power => true
  | .closure _ _ _ => true
  | _ => false

def typeName : Value → String
  | .integer _ => "int"
  | .float _ => "float"
  | _ => "Array"

/-- An operation on two integers. A quotient is not an integer in general. -/
def integers (op : ArithmeticOp) (m n : Int) : Except RunError Value :=
  match op with
  | .add => .ok (.integer (m + n))
  | .sub => .ok (.integer (m - n))
  | .mul => .ok (.integer (m * n))
  | .div =>
      if n = 0 then .error .integerDivision
      else
        .ok (.float (Binary64.nearest (decide (m < 0) != decide (n < 0)) m.natAbs n.natAbs))

def floats (op : ArithmeticOp) (x y : Float) : Except RunError Value :=
  match op with
  | .div => if y == 0.0 then .error .floatDivision else .ok (.float (x / y))
  | op => .ok (.float (op.onFloat x y))

/-- An operation on two values: at once on numbers, otherwise in the kernel. -/
def arithmetic (op : ArithmeticOp) (a b : Value) : Except RunError Value :=
  match a, b with
  | .integer m, .integer n => integers op m n
  | .integer m, .float y => floats op (integerFloat m) y
  | .float x, .integer n => floats op x (integerFloat n)
  | .float x, .float y => floats op x y
  | a, b => do
      let a ← a.toKernel
      let b ← b.toKernel
      return .traced (.binary op a b)

def negate : Value → Except RunError Value
  | .integer n => .ok (.integer (-n))
  | .float x => .ok (.float (-x))
  | a => do
      let a ← a.toKernel
      return .traced (.neg a)

end Value

mutual
/-- The value of a term. `globals` are the names of the module, `locals` those of
the functions around the term. -/
def evaluate (globals : Bindings) : Nat → Bindings → Term → Except RunError Value
  | 0, _, _ => .error .recursion
  | _ + 1, _, .integer n => .ok (.integer n)
  | _ + 1, _, .float x => .ok (.float x)
  | _ + 1, locals, .name symbol =>
      match locals.lookup symbol with
      | some value => .ok value
      | none =>
          match globals.lookup symbol with
          | some value => .ok value
          | none => .error (.unbound symbol)
  | steps + 1, locals, .neg a => do
      let a ← evaluate globals steps locals a
      a.negate
  | steps + 1, locals, .binary op a b => do
      let a ← evaluate globals steps locals a
      let b ← evaluate globals steps locals b
      Value.arithmetic op a b
  | steps + 1, locals, .call f args => do
      let f ← evaluate globals steps locals f
      let args ← evaluateAll globals steps locals args
      callValue globals steps f args
  | _ + 1, locals, .function param body => .ok (.closure param body locals)

def evaluateAll (globals : Bindings) : Nat → Bindings → List Term → Except RunError (List Value)
  | 0, _, _ => .error .recursion
  | _ + 1, _, [] => .ok []
  | steps + 1, locals, a :: as => do
      let a ← evaluate globals steps locals a
      let as ← evaluateAll globals steps locals as
      return a :: as

def callValue (globals : Bindings) : Nat → Value → List Value → Except RunError Value
  | 0, _, _ => .error .recursion
  | _ + 1, .function f, [a] => do
      let a ← a.toKernel
      return .traced (.function f a)
  | _ + 1, .power, [a, b] => do
      let a ← a.toKernel
      let b ← b.toKernel
      return .traced (.power a b)
  | steps + 1, .closure param body locals, [a] => evaluate globals steps ((param, a) :: locals) body
  | _ + 1, f, _ => .error (if f.isCallable then .wrongArguments else .notCallable f.typeName)
end

variable [Stack]

def execute (globals : Bindings) : Statement → Except RunError (List (Effect Value))
  | .define f param body => .ok [.store f (.closure param body [])]
  | .bind symbol term => do
      let value ← evaluate globals Stack.lowering [] term
      return [.store symbol value]
  | .run term => do
      let _ ← evaluate globals Stack.lowering [] term
      return []

def executeAll (globals : Bindings) : List Statement → Except RunError (List (Effect Value))
  | [] => .ok []
  | s :: rest => do
      let effects ← execute globals s
      let later ← executeAll (Namespace.after globals effects) rest
      return effects ++ later

def lower (globals : Bindings) (f : Value) : Except RunError Kernel := do
  let result ← callValue globals Stack.lowering f [.traced .argument]
  result.toKernel

end Fluxion.Kernel
