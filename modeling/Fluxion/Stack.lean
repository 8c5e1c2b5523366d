/-!
# Room for recursion

Some passes over trees, code and documents call themselves once for each level that they
descend. How many such calls there is room for is up to the machine and to what runs on it
already, so it is a parameter of these passes: what is said of them is said for any room.
-/

namespace Fluxion

/-- The levels that each pass has room for. -/
class Stack where
  /-- Levels of a tree that the rules of differentiation descend. -/
  rules : Nat
  /-- Levels of a tree that is looked up on the tape. -/
  lookups : Nat
  /-- Levels of a tree that is written as code. -/
  writing : Nat
  /-- Levels of code that is compiled. -/
  compiling : Nat
  /-- Steps that are nested while code is run and lowered. -/
  lowering : Nat
  /-- Levels of a document that is printed. -/
  printing : Nat

/-- The room of a program that does little else. -/
instance Stack.standard : Stack where
  rules := 900
  lookups := 490
  writing := 900
  compiling := 2900
  lowering := 20000
  printing := 900

end Fluxion
