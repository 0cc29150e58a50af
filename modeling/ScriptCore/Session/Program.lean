import ScriptCore.Session.Basic

/-!
# Programs

A program is a compiled package with the host functions it was compiled against.  Its variables
live in a machine and keep their values from one call to the next.  Initialization evaluates the
initializers of the package variables in dependency order and then calls the `init` functions in
the order of their declaration; running the program initializes it and calls `main`.

Main statements: `call_undefined` (a name that is no function cannot be called) and
`start_globals` (a program starts with the variables of its package).
-/

namespace ScriptCore

/-- A program that is ready to run. -/
structure Program where
  package : Package
  setting : Setting

namespace Program

/-- Fuel of a run: more than any run can use up. -/
def fuel : Nat := 1 <<< 62

/-- Load items into a session. -/
def ofItems (s : Session) (items : List Item) : Except CompileError Program :=
  match Package.ofItems s.types s.hosts s.lowers items with
  | .ok p => .ok ⟨p, ⟨p.types, s.bodies, s.limit⟩⟩
  | .error e => .error e

/-- The machine before the program has done anything. -/
def start (p : Program) : Machine :=
  let hosts := (Array.range p.setting.hosts.size).map Function.host
  .start (hosts ++ p.package.functions.map fun f => .closure f.2 Machine.globals)
    p.package.globals

/-- A program starts with the variables of its package. -/
theorem start_globals (p : Program) : (p.start.record Machine.globals).slots = p.package.globals :=
  rfl

/-- Call the function in a slot of the package. -/
def callSlot (p : Program) (slot : Nat) (args : List Value) : Run (List Value) := do
  callValue p.setting fuel (← Run.loadSlot Machine.globals slot) args

/-- Call the functions in slots of the package, one after the other. -/
def callSlots (p : Program) : List Nat → Run Unit
  | [] => pure ()
  | slot :: rest => do
    let _ ← p.callSlot slot []
    callSlots p rest

/-- Initialize the package variables, then call the `init` functions. -/
def runInit (p : Program) : Run Unit := do
  let r ← Run.newRecord p.package.init.slots (some Machine.globals) []
  let x : Context := ⟨p.setting.types, callValue p.setting fuel⟩
  let _ ← runFrom x p.package.init r fuel .start
  p.callSlots p.package.initFuncs

/-- The function or method with a name and its type. -/
def func? (p : Program) (name : Name) : Option Binding :=
  p.package.funcs.lookup name

/-- Call a function, or a method with its receiver as the first argument. -/
def call (p : Program) (name : Name) (args : List Value) : Run (List Value) :=
  match p.func? name with
  | some b => p.callSlot b.slot args
  | none => Run.fail (.custom ("undefined function " ++ name))

/-- A name that is no function cannot be called. -/
theorem call_undefined {p : Program} {name : Name} (h : p.func? name = none) (args : List Value) :
    p.call name args = Run.fail (.custom ("undefined function " ++ name)) := by
  simp [call, h]

/-- Initialize the package and call `main`. -/
def runMain (p : Program) : Run (List Value) := do
  p.runInit
  p.call "main" []

/-- Value of a package variable. -/
def var? (p : Program) (m : Machine) (name : Name) : Option Value :=
  (p.package.vars.lookup name).map fun b => (m.record Machine.globals).get b.slot

/-- Register code of a function, if it has some. -/
def lowered? (p : Program) (name : Name) : Option Registers.Stream :=
  p.package.lowered.lookup name

/-- Names of the functions with register code, in the order of compilation. -/
def loweredNames (p : Program) : List Name :=
  p.package.lowered.map Prod.fst

end Program

end ScriptCore
