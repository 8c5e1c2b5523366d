import Fluxion.Proofs.Cache.Window
import Fluxion.Proofs.Kernel.Compilation
import Fluxion.Proofs.Session.Use

/-!
# Derivatives that are constant

A derivative that is a constant is written as a literal, and a literal compiles to itself
whatever the link table holds.  So a request for one succeeds, if there is room for a tree
and for code of one level: here the room is the standard one.
-/

namespace Fluxion.Session

open Fluxion.Code Fluxion.Expr Fluxion.Kernel Fluxion.Number Fluxion.Source Fluxion.Text

variable {config : Config} {table : LinkTable} {tasks : List Task} {s : Session} {task : Task}

section Constant

variable {c : Float}

/-- A constant is always written: no name has to be found, and one level is enough. -/
theorem Task.code_of_constant (h : task.target = .ok (.const c)) :
    task.code = .ok (functionText task.name (constantChars c)) := by
  have hname : isIdentifier task.name = true := isIdentifier_of_isName task.isName_name
  have hvariables : ∀ y ∈ (Expr.const c).freeVariables, y = task.x := fun _ h =>
    absurd h List.not_mem_nil
  have hphrase : phraseOf task.name Stack.writing (.const c) =
      .ok ⟨constantChars c, atomStrength⟩ := by
    rw [show Stack.writing = 899 + 1 from rfl, phraseOf]
  rw [Task.code, h, ok_bind, emit_eq (.const c) hvariables hname, hphrase]
  rfl

/-- A task whose derivative is constant compiles, if its function is not there. -/
theorem Traced.serve_of_constant (h : Traced config table tasks s)
    (habsent : s.cache.peek? task.fingerprint = none) (htarget : task.target = .ok (.const c))
    {m : Nat} {e : Int} (hc : Binary64.ofFloat c = .finite false m e) :
    let code := functionText task.name (constantChars c)
    (s.serve task).2 = .ok (task.handle code) ∧
      Cache.SameTables (s.serve task).1.cache
        (s.cache.store task.fingerprint task.name
          ⟨task.fingerprint, task.name, code, .constant c⟩) ∧
      (s.serve task).1.compiler.count = s.compiler.count + 1 :=
  h.serve_of_compiles habsent (Task.code_of_constant htarget)
    (compileModule_constant (isIdentifier_of_isName task.isName_name) task.isFreeName_name hc
      (by decide) (by decide))

end Constant

/-! ## The derivative of a variable -/

/-- A request without a mode is for the derivative in the mode of the configuration. -/
theorem derivativeTask_of_parse (config : Config) {text x : String} {e : Tree}
    (hx : isName x = true) (hparse : parse true text = .ok e) :
    config.derivativeTask text x none = .ok ⟨e, x, some config.mode⟩ := by
  rw [Config.derivativeTask, checkVariable, if_pos hx, readExpression, hparse]
  rfl

/-- A derivative that can be asked for is served from the cache or compiled. -/
theorem Traced.differentiate_eq (h : Traced config table tasks s) {text x : String}
    {mode : Option String} (htask : config.derivativeTask text x mode = .ok task) :
    s.differentiate text x mode = s.serve task := by
  rw [Session.differentiate, h.config_eq, htask, serveRequest_of_open h.isOpen]

def lineTask : Task :=
  ⟨.var "x", "x", some .forward⟩

def lineCode : String :=
  functionText lineTask.name (constantChars 1.0)

theorem derivativeTask_line : oneFunction.derivativeTask "x" "x" none = .ok lineTask :=
  derivativeTask_of_parse oneFunction (by decide) (by with_unfolding_all rfl)

theorem target_line : lineTask.target = .ok (.const 1.0) := rfl

theorem ofFloat_one : Binary64.ofFloat 1.0 = .finite false 4503599627370496 (-52) := by
  decide

/-- A new session compiles the derivative of `x` and keeps it. -/
theorem run_line (symbols : LinkTable) :
    let s := run [.differentiate "x" "x" none] (newWith oneFunction symbols)
    s.cache.order = [lineTask.fingerprint] ∧
      s.cache.peek? lineTask.fingerprint =
        some ⟨lineTask.fingerprint, lineTask.name, lineCode, .constant 1.0⟩ ∧
      s.compiler.count = 1 := by
  intro s
  have hstart := Traced.newWith oneFunction symbols [lineTask]
  have hs : s = ((newWith oneFunction symbols).serve lineTask).1 :=
    congrArg Prod.fst (hstart.differentiate_eq derivativeTask_line)
  obtain ⟨-, hcache, hcount⟩ := hstart.serve_of_constant rfl target_line ofFloat_one
  rw [hs]
  refine ⟨?_, ?_, hcount⟩
  · exact hcache.order_eq.trans (Cache.order_store_of_one rfl _ _ rfl)
  · exact (hcache.peek?_eq _).trans (Cache.peek?_store_self rfl _ _)

end Fluxion.Session
