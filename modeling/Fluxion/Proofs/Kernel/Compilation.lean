import Fluxion.Kernel.Compiler
import Fluxion.Proofs.Code.Module
import Fluxion.Proofs.Outcome
import Mathlib.Tactic.Common

/-!
# The function that is checked and the function that is lowered

A compiler looks up the code of a function in the code of its text and checks the names in it.
It then runs the text and lowers what the name of the function is bound to in the end.  Nothing
ties the two together, whichever interpreter reads and runs the text.

* `Compilation` records the stages of a compilation that succeeds; the compiler gives something
  exactly if there is one (`compileFunction_eq_ok_iff`).
* What is lowered is what the last effect on the name stored, or what the link table binds it
  to: `lastBinds_of_lookup_after`.
* A text that stores its function twice gets a function past the check: its names need not be
  in the link table.
-/

namespace Fluxion.Kernel

open Fluxion.Code Fluxion.Decimal Fluxion.Number Fluxion.Text

/-! ## Names while a text is run -/

section Names

variable {β : Type} {names : Namespace β} {effect : Effect β} {effects : List (Effect β)}
  {name : String} {value : β}

/-- The last of the effects on a name stores the value, or there is none and the name was bound
to the value before. -/
def LastBinds (names : Namespace β) (effects : List (Effect β)) (name : String) (value : β) :
    Prop :=
  (∃ before later, effects = before ++ .store name value :: later ∧
      ∀ effect ∈ later, effect.name ≠ name) ∨
    (∀ effect ∈ effects, effect.name ≠ name) ∧ names.lookup name = some value

theorem lookup_filter_of_ne {other : String} (h : other ≠ name) (names : Namespace β) :
    (names.filter fun binding => binding.1 != other).lookup name = names.lookup name := by
  induction names with
  | nil => rfl
  | cons binding rest ih =>
      rw [List.filter_cons]
      split_ifs with hkept
      · rw [List.lookup_cons, List.lookup_cons, ih]
      · obtain rfl : binding.1 = other := by simpa using hkept
        rw [ih, List.lookup_cons, beq_false_of_ne (Ne.symm h)]

theorem lookup_filter_self (names : Namespace β) :
    (names.filter fun binding => binding.1 != name).lookup name = none := by
  rw [List.lookup_eq_none_iff]
  intro binding hbinding
  have hne : binding.1 ≠ name := by simpa using (List.mem_filter.mp hbinding).2
  exact bne_iff_ne.mpr (Ne.symm hne)

theorem lookup_apply_of_other (h : effect.name ≠ name) :
    (effect.apply names).lookup name = names.lookup name := by
  cases effect with
  | store other value =>
      have hne : name ≠ other := Ne.symm h
      rw [Effect.apply, List.lookup_cons, beq_false_of_ne hne]
  | delete other => exact lookup_filter_of_ne h names

theorem after_concat (names : Namespace β) (effects : List (Effect β)) (effect : Effect β) :
    names.after (effects ++ [effect]) = effect.apply (names.after effects) := by
  simp [Namespace.after]

/-- An effect on another name hides nothing. -/
theorem LastBinds.concat (h : LastBinds names effects name value) (hother : effect.name ≠ name) :
    LastBinds names (effects ++ [effect]) name value := by
  have hlast : ∀ {effects : List (Effect β)}, (∀ e ∈ effects, e.name ≠ name) →
      ∀ e ∈ effects ++ [effect], e.name ≠ name := by
    intro effects heffects e he
    rcases List.mem_append.mp he with he | he
    · exact heffects e he
    · exact List.mem_singleton.mp he ▸ hother
  rcases h with ⟨before, later, rfl, hlater⟩ | ⟨heffects, hbound⟩
  · exact Or.inl ⟨before, later ++ [effect], by simp, hlast hlater⟩
  · exact Or.inr ⟨hlast heffects, hbound⟩

/-- What a name is bound to after a run is what the last effect on it stored. -/
theorem lastBinds_of_lookup_after (h : (names.after effects).lookup name = some value) :
    LastBinds names effects name value := by
  induction effects using List.reverseRecOn with
  | nil => exact Or.inr ⟨fun _ hnil => absurd hnil List.not_mem_nil, h⟩
  | append_singleton effects effect ih =>
      rw [after_concat] at h
      by_cases hname : effect.name = name
      · cases effect with
        | store other stored =>
            obtain rfl : other = name := hname
            rw [Effect.apply, List.lookup_cons_self] at h
            obtain rfl := Option.some.inj h
            exact Or.inl ⟨effects, [], rfl, fun _ hnil => absurd hnil List.not_mem_nil⟩
        | delete other =>
            obtain rfl : other = name := hname
            rw [Effect.apply, lookup_filter_self] at h
            cases h
      · rw [lookup_apply_of_other hname] at h
        exact (ih h).concat hname

/-- A name that is stored is bound to something that was stored. -/
theorem LastBinds.mem_of_stored (h : LastBinds names effects name value) {stored : β}
    (hstored : .store name stored ∈ effects) : .store name value ∈ effects := by
  rcases h with ⟨before, later, rfl, -⟩ | ⟨hnone, -⟩
  · exact List.mem_append_right before List.mem_cons_self
  · exact absurd rfl (hnone _ hstored)

end Names

/-! ## Stages of a compilation -/

theorem mem_symbols_of_lookup {β : Type} {table : Namespace β} {symbol : String}
    (h : (table.lookup symbol).isSome = true) : symbol ∈ table.symbols := by
  obtain ⟨value, hvalue⟩ := Option.isSome_iff_exists.mp h
  obtain ⟨before, after, rfl, -⟩ := List.lookup_eq_some_iff.mp hvalue
  rw [Namespace.symbols, Expr.mem_sortedNames]
  simp

/-- The check leaves a function whose names are all in the link table. -/
theorem mem_symbols_of_unresolvedNames {β π : Type} {table : Namespace β}
    {function : CodeObject π} (h : unresolvedNames table function = []) {symbol : String}
    (hsymbol : symbol ∈ function.references) : symbol ∈ table.symbols := by
  rw [unresolvedNames, List.filter_eq_nil_iff] at h
  have hfound := h symbol (Expr.mem_sortedNames.mpr hsymbol)
  rw [Option.isNone_iff_eq_none, ← ne_eq, Option.ne_none_iff_isSome] at hfound
  exact mem_symbols_of_lookup hfound

theorem liftCause_eq_ok {β : Type} {cause : RunError → CompileCause}
    {outcome : Except RunError β} {value : β} :
    liftCause cause outcome = .ok value ↔ outcome = .ok value := by
  cases outcome <;> simp [liftCause]

/-- A compilation that succeeds: the code of the text, the code of the function that is checked,
what running the text does to the names, and the value that is lowered. -/
structure Compilation (I : Interpreter) (table : Namespace I.Value) (source name : String)
    (executable : I.Executable) where
  code : CodeObject I.Payload
  checked : CodeObject I.Payload
  effects : List (Effect I.Value)
  lowered : I.Value
  compiles : I.compile source = .ok code
  finds : code.function? name = some checked
  resolves : unresolvedNames table checked = []
  runs : I.run code table = .ok effects
  binds : (table.after effects).lookup name = some lowered
  callable : I.isCallable lowered = true
  lowers : I.lower (table.after effects) lowered = .ok executable

section Stages

variable {I : Interpreter} {table : Namespace I.Value} {source name fingerprint : String}
  {executable : I.Executable}

/-- Where nothing fails before, it is up to the lowering. -/
theorem compileFunction_eq_lower {code checked : CodeObject I.Payload}
    {effects : List (Effect I.Value)} {f : I.Value} (hcompiles : I.compile source = .ok code)
    (hfinds : code.function? name = some checked) (hresolves : unresolvedNames table checked = [])
    (hruns : I.run code table = .ok effects) (hbinds : (table.after effects).lookup name = some f)
    (hcallable : I.isCallable f = true) :
    I.compileFunction table source name =
      liftCause .failed (I.lower (table.after effects) f) := by
  simp [Interpreter.compileFunction, hcompiles, hfinds, hresolves, hruns, hbinds, hcallable,
    liftCause]

/-- A function is compiled exactly if every stage succeeds. -/
theorem compileFunction_eq_ok_iff :
    I.compileFunction table source name = .ok executable ↔
      Nonempty (Compilation I table source name executable) := by
  constructor
  · intro h
    obtain ⟨code, hcode, h⟩ := bind_eq_ok.mp h
    split at h
    · cases h
    rename_i checked hchecked
    simp only at h
    split_ifs at h with hresolves
    obtain ⟨effects, heffects, h⟩ := bind_eq_ok.mp h
    split at h
    · cases h
    rename_i lowered hbinds
    split_ifs at h with hcallable
    exact ⟨⟨code, checked, effects, lowered, hcode, hchecked, by simpa using hresolves,
      liftCause_eq_ok.mp heffects, hbinds, hcallable, liftCause_eq_ok.mp h⟩⟩
  · rintro ⟨c⟩
    rw [compileFunction_eq_lower c.compiles c.finds c.resolves c.runs c.binds c.callable]
    exact liftCause_eq_ok.mpr c.lowers

/-- What a compiler compiled comes from a compilation with its link table. -/
theorem compilation_of_compileWith {compiler : CompilerOver I.Value}
    {compiled : CompiledOver I.Executable}
    (h : (compiler.compileWith I source name fingerprint).2 = .ok compiled) :
    Nonempty (Compilation I compiler.table source name compiled.kernel) := by
  rw [← compileFunction_eq_ok_iff]
  unfold CompilerOver.compileWith at h
  split_ifs at h with hclosed
  simp only at h
  split at h
  · cases h
  · rename_i kernel hkernel
    rw [hkernel, ← Except.ok.inj h]

theorem compileWith_of_open {compiler : CompilerOver I.Value} (hopen : compiler.closed = false)
    (hexecutable : I.compileFunction compiler.table source name = .ok executable)
    (fingerprint : String) :
    (compiler.compileWith I source name fingerprint).2 =
      .ok ⟨fingerprint, name, executable, source⟩ := by
  rw [CompilerOver.compileWith, hopen, hexecutable]
  rfl

namespace Compilation

/-- What a text is compiled to tells all stages of its compilation. -/
instance : Subsingleton (Compilation I table source name executable) where
  allEq := by
    rintro ⟨code, checked, effects, lowered, hcode, hchecked, -, heffects, hbinds, -, -⟩
      ⟨code', checked', effects', lowered', hcode', hchecked', -, heffects', hbinds', -, -⟩
    obtain rfl : code = code' := Except.ok.inj (hcode.symm.trans hcode')
    obtain rfl : checked = checked' := Option.some.inj (hchecked.symm.trans hchecked')
    obtain rfl : effects = effects' := Except.ok.inj (heffects.symm.trans heffects')
    obtain rfl : lowered = lowered' := Option.some.inj (hbinds.symm.trans hbinds')
    rfl

/-- The code that is checked refers to symbols of the link table only. -/
theorem mem_symbols_of_checked (c : Compilation I table source name executable)
    {symbol : String} (hsymbol : symbol ∈ c.checked.references) : symbol ∈ table.symbols :=
  mem_symbols_of_unresolvedNames c.resolves hsymbol

/-- What is lowered is what the last effect on the name stored, or what the table has under it. -/
theorem lastBinds (c : Compilation I table source name executable) :
    LastBinds table c.effects name c.lowered :=
  lastBinds_of_lookup_after c.binds

/-- If nothing but the function that was checked is stored under the name, it is lowered. -/
theorem isFunctionOf_checked (c : Compilation I table source name executable) {stored : I.Value}
    (hstored : .store name stored ∈ c.effects)
    (honly : ∀ value, .store name value ∈ c.effects → I.IsFunctionOf value c.checked) :
    I.IsFunctionOf c.lowered c.checked :=
  honly _ (c.lastBinds.mem_of_stored hstored)

end Compilation

end Stages

/-! ## Written functions -/

section Written

variable [Stack] {table : LinkTable} {name : String} {body : List Char} {t : Term}

theorem any_height_eq_false_iff {statements : List Statement} :
    (statements.any fun s => Stack.compiling < statementHeight s) = false ↔
      ∀ s ∈ statements, statementHeight s ≤ Stack.compiling := by
  simp

/-- The code of a written function is a module that defines it. -/
theorem compileFragment_functionText (hname : isIdentifier name = true)
    (hfree : isFreeName name = true) {strength : Nat} (hspells : Spells strength body t)
    (hparens : parenDepth body ≤ maxParens) (hheight : t.height ≤ Stack.compiling) :
    compileFragment (functionText name body) =
      .ok (moduleCode [.define name argumentName t]) := by
  have hlow := any_height_eq_false_iff.mpr (show ∀ s ∈ [Statement.define name argumentName t],
    statementHeight s ≤ Stack.compiling by simpa [statementHeight] using hheight)
  rw [compileFragment, readModule_functionText hname hfree hspells hparens]
  simp only [hlow]
  rfl

omit [Stack] in
theorem function?_moduleCode_define (name param : String) (t : Term) :
    (moduleCode [.define name param t]).function? name = some (functionCode name param t) := by
  simp [moduleCode, CodeObject.function?, CodeObject.nested, statementCodes, functionCode,
    CodeObject.name]

/-- A written function whose names are in the link table compiles to what it is lowered to. -/
theorem compileModule_functionText (hname : isIdentifier name = true)
    (hfree : isFreeName name = true) {strength : Nat} (hspells : Spells strength body t)
    (hparens : parenDepth body ≤ maxParens) (hheight : t.height ≤ Stack.compiling)
    (hresolves : unresolvedNames table (functionCode name argumentName t) = []) :
    compileModule table (functionText name body) name =
      liftCause .failed
        (lower ((name, .closure argumentName t []) :: table) (.closure argumentName t [])) := by
  have hcode : fragment.compile (functionText name body) =
      .ok (moduleCode [.define name argumentName t]) :=
    compileFragment_functionText hname hfree hspells hparens hheight
  have hrun : fragment.run (moduleCode [.define name argumentName t]) table =
      .ok [.store name (.closure argumentName t [])] := rfl
  exact compileFunction_eq_lower hcode (function?_moduleCode_define name argumentName t) hresolves
    hrun List.lookup_cons_self rfl

/-- Of a text that `emit` writes the function that is checked is the one that is lowered. -/
theorem isFunctionOf_checked_of_emit {x : String} {e : Expr Float} {kernel : Kernel}
    (he : e.Standard) (hvariables : ∀ y ∈ e.freeVariables, y = x)
    (hfree : isFreeName name = true) (hemit : emit name x e = .ok (functionText name body))
    (hparens : parenDepth body ≤ maxParens)
    (c : Compilation fragment table (functionText name body) name kernel) :
    fragment.IsFunctionOf c.lowered c.checked := by
  have hname : isIdentifier name = true := by
    by_contra hname
    rw [Bool.not_eq_true] at hname
    simp [emit, hname] at hemit
  rw [emit_eq he hvariables hname] at hemit
  obtain ⟨phrase, hphrase, htext⟩ := bind_eq_ok.mp hemit
  obtain rfl : phrase.text = body := by
    have hchars := congrArg String.toList (Except.ok.inj htext)
    simpa [functionText] using hchars
  obtain ⟨t, -, hspells⟩ := phraseOf_spells he hphrase
  have hcode : c.code = moduleCode [.define name argumentName t] := by
    have hcompiles : compileFragment (functionText name phrase.text) = .ok c.code := c.compiles
    rw [compileFragment, readModule_functionText hname hfree hspells hparens] at hcompiles
    simp only at hcompiles
    split_ifs at hcompiles
    exact (Except.ok.inj hcompiles).symm
  have hchecked : c.checked = functionCode name argumentName t := by
    have hfinds := c.finds
    rw [hcode, function?_moduleCode_define] at hfinds
    exact (Option.some.inj hfinds).symm
  have heffects : c.effects = [.store name (.closure argumentName t [])] := by
    have hruns := c.runs
    rw [hcode] at hruns
    exact (Except.ok.inj hruns).symm
  refine c.isFunctionOf_checked (heffects ▸ List.mem_singleton_self _) fun value hvalue => ?_
  rw [heffects, List.mem_singleton] at hvalue
  obtain ⟨-, rfl⟩ := Effect.store.inj hvalue
  exact ⟨name, argumentName, t, rfl, hchecked⟩

/-- A constant compiles to itself. -/
theorem compileModule_constant (hname : isIdentifier name = true)
    (hfree : isFreeName name = true) {c : Float} {m : Nat} {e : Int}
    (hc : Binary64.ofFloat c = .finite false m e) (hcompiling : 1 ≤ Stack.compiling)
    (hlowering : 2 ≤ Stack.lowering) :
    compileModule table (functionText name (constantChars c)) name = .ok (.constant c) := by
  have hterm : Term.ofFloat c = .float c := by rw [Term.ofFloat, hc]
  have hspells := spells_constant c
  rw [hterm] at hspells
  have hparens : parenDepth (constantChars c) = 0 := by
    obtain ⟨x, hx, htext, -⟩ := floatChars_finite hc
    rw [constantChars, hc]
    simp only
    rw [htext]
    exact (balanced_of_plain (plain_of_wellFormed hx.1)).parenDepth_eq
  obtain ⟨steps, hsteps⟩ := Nat.exists_eq_add_of_le' hlowering
  rw [compileModule_functionText hname hfree hspells (hparens ▸ Nat.zero_le _) hcompiling rfl,
    lower, hsteps]
  rfl

end Written

/-! ## The main statement -/

/-- Whatever interpreter reads and runs a text, what is lowered is what the last effect on the
name stored, or what the link table binds the name to if there was no such effect; and the names
of what is checked are in the link table.  If the name is stored, and never as anything but the
function that was checked, then this is the function that is lowered. -/
theorem compile_lowers_last_binding {I : Interpreter} {compiler : CompilerOver I.Value}
    {source name fingerprint : String} {compiled : CompiledOver I.Executable}
    (h : (compiler.compileWith I source name fingerprint).2 = .ok compiled) :
    ∃ c : Compilation I compiler.table source name compiled.kernel,
      LastBinds compiler.table c.effects name c.lowered ∧
      (∀ symbol ∈ c.checked.references, symbol ∈ compiler.table.symbols) ∧
      ((∃ stored, .store name stored ∈ c.effects) →
        (∀ stored, .store name stored ∈ c.effects → I.IsFunctionOf stored c.checked) →
        I.IsFunctionOf c.lowered c.checked) := by
  obtain ⟨c⟩ := compilation_of_compileWith h
  exact ⟨c, c.lastBinds, fun _ => c.mem_symbols_of_checked,
    fun ⟨_, hstored⟩ honly => c.isFunctionOf_checked hstored honly⟩

def sineSource : String :=
  functionText "f" "sin(_x)".toList

def sineTerm : Term :=
  .call (.name "sin") [.name argumentName]

def sineCompilation :
    Compilation fragment defaultLinkTable sineSource "f" (.function .sin .argument) where
  code := moduleCode [.define "f" argumentName sineTerm]
  checked := functionCode "f" argumentName sineTerm
  effects := [.store "f" (.closure argumentName sineTerm [])]
  lowered := .closure argumentName sineTerm []
  compiles := compileFragment_functionText (by decide) (by decide)
    (Spells.call (plainName_function .sin) (isIdentifier_function .sin) spells_argument)
    (by decide) (by decide)
  finds := rfl
  resolves := rfl
  runs := rfl
  binds := rfl
  callable := rfl
  lowers := rfl

theorem compile_lowers_last_binding_sine :
    let compiled : Compiled := ⟨"", "f", .function .sin .argument, sineSource⟩
    ((Compiler.new []).compileWith fragment sineSource "f" "").2 = .ok compiled ∧
      ∃ c : Compilation fragment defaultLinkTable sineSource "f" compiled.kernel,
        fragment.IsFunctionOf c.lowered c.checked ∧
          ∀ symbol ∈ c.checked.references, symbol ∈ defaultLinkTable.symbols := by
  intro compiled
  have hcompile : ((Compiler.new []).compileWith fragment sineSource "f" "").2 = .ok compiled :=
    compileWith_of_open rfl (compileFunction_eq_ok_iff.mpr ⟨sineCompilation⟩) ""
  obtain ⟨c, -, hresolves, hlowered⟩ := compile_lowers_last_binding hcompile
  refine ⟨hcompile, c, ?_, hresolves⟩
  rw [Subsingleton.elim c sineCompilation] at hlowered ⊢
  refine hlowered ⟨_, List.mem_singleton_self _⟩ fun stored hstored => ?_
  obtain ⟨-, rfl⟩ := Effect.store.inj (List.mem_singleton.mp hstored)
  exact ⟨"f", argumentName, sineTerm, rfl, rfl⟩

/-- A module that defines its function twice. -/
def twiceSource : String :=
  "def f(x): return x\nb = sin\ndef f(x): return b(x)"

def borrowedTerm : Term :=
  .call (.name "b") [.name "x"]

def twiceStatements : List Statement :=
  [.define "f" "x" (.name "x"), .bind "b" (.name "sin"), .define "f" "x" borrowedTerm]

set_option maxRecDepth 2000 in
theorem readModule_twiceSource : readModule twiceSource = some twiceStatements := by
  have hlexemes : lexemes twiceSource =
      some [.line 0, .name "def", .name "f", .punctuation '(', .name "x", .punctuation ')',
        .punctuation ':', .name "return", .name "x", .line 0, .name "b", .punctuation '=',
        .name "sin", .line 0, .name "def", .name "f", .punctuation '(', .name "x",
        .punctuation ')', .punctuation ':', .name "return", .name "b", .punctuation '(',
        .name "x", .punctuation ')'] := by
    cbv
  rw [readModule, hlexemes]
  rfl

def twiceCompilation :
    Compilation fragment defaultLinkTable twiceSource "f" (.function .sin .argument) where
  code := moduleCode twiceStatements
  checked := functionCode "f" "x" (.name "x")
  effects := [.store "f" (.closure "x" (.name "x") []), .store "b" (.function .sin),
    .store "f" (.closure "x" borrowedTerm [])]
  lowered := .closure "x" borrowedTerm []
  compiles := by
    change compileFragment twiceSource = _
    rw [compileFragment, readModule_twiceSource]
    rfl
  finds := rfl
  resolves := rfl
  runs := rfl
  binds := rfl
  callable := rfl
  lowers := rfl

/-- The second definition of a function is not checked: it is lowered although it refers
to a name that is not in the link table. -/
theorem not_lowers_checked_of_second_definition :
    ¬ ∀ (compiler : Compiler) (source name fingerprint : String) (compiled : Compiled),
      (compiler.compile source name fingerprint).2 = .ok compiled →
      ∃ c : Compilation fragment compiler.table source name compiled.kernel,
        ∃ code, fragment.IsFunctionOf c.lowered code ∧
          ∀ symbol ∈ code.references, symbol ∈ compiler.table.symbols := by
  intro h
  have hcompile : ((Compiler.new []).compile twiceSource "f" "").2 =
      .ok ⟨"", "f", .function .sin .argument, twiceSource⟩ :=
    compileWith_of_open rfl (compileFunction_eq_ok_iff.mpr ⟨twiceCompilation⟩) ""
  obtain ⟨c, code, ⟨name, param, body, hlowered, rfl⟩, hsymbols⟩ :=
    h (Compiler.new []) twiceSource "f" "" _ hcompile
  rw [Subsingleton.elim c twiceCompilation] at hlowered
  obtain ⟨rfl, rfl, -⟩ := Value.closure.inj hlowered
  have hborrowed : "b" ∈ (functionCode name "x" borrowedTerm).references :=
    List.mem_singleton_self "b"
  exact absurd (hsymbols "b" hborrowed) (by decide)

end Fluxion.Kernel
