import ScriptCore.Compile.Assembly
import ScriptCore.Compile.Frame
import ScriptCore.Compile.Operand
import ScriptCore.Registers.Stream
import ScriptCore.Types.Universe

/-!
# State of a compilation

While a package is compiled, the state holds its types, the variables and functions that have a
place, what every package-level name means so far, the code that initializes it so far, and the
names of the body being compiled and of the bodies around it.  A name means the innermost local
variable of that name, in this body or one around it, or else what the package declares, or else
what is predeclared.

Expressions, types and simple statements are compiled without a look at the code around them; only
control flow adds to the code of a body (`Emit`).

Main statements: `resolve_local` (a local variable of the current body hides everything else) and
`at_fail` (an error without a place is given one).
-/

namespace ScriptCore

/-- Where a package-level variable or function lives, and its type. -/
structure Binding where
  slot : Nat
  type : Ty
deriving Repr, DecidableEq, Inhabited

/-- A function that the host provides: the name it prints, its type and its number. -/
structure HostFunc where
  name : Name
  type : Ty
  number : Nat
deriving Repr, DecidableEq, Inhabited

/-- A host function as a value. -/
def HostFunc.value (f : HostFunc) : Value :=
  .func f.number f.name

/-- A package that the host provides. -/
structure HostPackage where
  path : String
  members : List HostFunc
deriving Repr, DecidableEq, Inhabited

/-- A host function by its name; the last one registered under a name counts. -/
def findHost (funcs : List HostFunc) (name : Name) : Option HostFunc :=
  funcs.reverse.find? fun f => f.name == name

/-- What the host provides: predeclared functions, packages, and the number of functions in all. -/
structure Hosts where
  funcs : List HostFunc
  packages : List HostPackage
  count : Nat
deriving Repr, DecidableEq, Inhabited

/-- A package by its path. -/
def Hosts.package? (h : Hosts) (path : String) : Option HostPackage :=
  h.packages.reverse.find? fun p => p.path == path

/-- Predeclared functions with rules of their own. -/
inductive Builtin where
  | len | cap | make | append | delete
deriving Repr, DecidableEq

namespace Builtin

/-- Name of a builtin function. -/
def name : Builtin → Name
  | len => "len" | cap => "cap" | make => "make" | append => "append" | delete => "delete"

/-- The builtin function with a name. -/
def ofName? (s : Name) : Option Builtin :=
  [len, cap, make, append, delete].find? fun b => b.name == s

end Builtin

/-- What a package-level name stands for. -/
inductive Entity where
  | var (binding : Binding)
  | func (binding : Binding)
  | const (value : Constant) (type : Option Ty)
  | type (type : Ty)
  | package (package : HostPackage)

/-- What a name means at some place in the program.  Variables and functions are addressed by the
number of bodies to go out and the slot there. -/
inductive Meaning where
  | var (depth slot : Nat) (type : Ty)
  | func (depth slot : Nat) (type : Ty)
  | const (value : Constant) (type : Option Ty)
  | type (type : Ty)
  | package (package : HostPackage)
  | host (func : HostFunc)
  | builtin (builtin : Builtin)

/-- Meaning of a package-level name seen from a body at a depth. -/
def Entity.meaning (depth : Nat) : Entity → Meaning
  | var b => .var depth b.slot b.type
  | func b => .func depth b.slot b.type
  | const c ty => .const c ty
  | type ty => .type ty
  | package p => .package p

/-- State of the compilation of a package.  `methods` are filed under the number of their base type
and their name, `bindings` under the names of declarations; `initCode`, `initFuncs`, `funcs`,
`vars` and `lowered` describe what the finished package offers. -/
structure Compiler where
  types : TypeTable
  hosts : Hosts
  lowers : Bool
  globals : Array Value
  functions : Array (Name × Code.Body)
  names : List (Name × Entity)
  methods : List ((Nat × Name) × Binding)
  bindings : List (Name × Binding)
  frame : Frame
  enclosing : List Frame
  iota : Option Nat
  initCode : Array Code.Instr
  initFuncs : List Nat
  funcs : List (Name × Binding)
  vars : List (Name × Binding)
  lowered : List (Name × Registers.Stream)

namespace Compiler

/-- Before the first declaration. -/
def start (types : TypeTable) (hosts : Hosts) (lowers : Bool) : Compiler :=
  ⟨types, hosts, lowers, #[], #[], [], [], [], .empty, [], none, #[], [], [], [], []⟩

/-- Number of bodies between the current one and the package. -/
def globalsDepth (c : Compiler) : Nat :=
  c.enclosing.length + 1

/-- Meaning of a name among the variables of bodies, the innermost body first; the first body is
`depth` bodies out. -/
def localMeaning (depth : Nat) (name : Name) : List Frame → Option Meaning
  | [] => none
  | f :: outer =>
    match f.find? name with
    | some v => some (.var depth v.slot v.type)
    | none => localMeaning (depth + 1) name outer

/-- What a package-level name stands for. -/
def entity? (c : Compiler) (name : Name) : Option Entity :=
  c.names.lookup name

/-- Meaning of a predeclared name. -/
def predeclared (c : Compiler) (name : Name) : Option Meaning :=
  match name, c.iota with
  | "true", _ => some (.const (.bool true) none)
  | "false", _ => some (.const (.bool false) none)
  | "nil", _ => some (.const .nil none)
  | "iota", some i => some (.const (.int i) none)
  | "any", _ => some (.type (.interface []))
  | name, _ =>
    match findHost c.hosts.funcs name, Builtin.ofName? name with
    | some f, _ => some (.host f)
    | none, some b => some (.builtin b)
    | none, none => (Kind.ofBasicName? name).map fun k => .type (.basic k)

/-- Meaning of a name. -/
def resolve (c : Compiler) (name : Name) : Option Meaning :=
  match localMeaning 0 name (c.frame :: c.enclosing) with
  | some m => some m
  | none =>
    match c.entity? name with
    | some e => some (e.meaning c.globalsDepth)
    | none => c.predeclared name

/-- A local variable of the current body hides everything else. -/
theorem resolve_local {c : Compiler} {name : Name} {v : Local} (h : c.frame.find? name = some v) :
    c.resolve name = some (.var 0 v.slot v.type) := by
  simp [resolve, localMeaning, h]

/-- The type behind at most one pointer. -/
def pointed : Ty → Ty
  | .pointer ty => ty
  | ty => ty

/-- The method with a name of a type, or of the type it points to. -/
def method? (c : Compiler) (ty : Ty) (name : Name) : Option Binding :=
  match pointed ty with
  | .named id _ _ => c.methods.lookup (id, name)
  | _ => none

end Compiler

/-- Steps of a compilation; the first error ends it. -/
abbrev Compile := StateT Compiler (Except CompileError)

namespace Compile

/-- Give up, at a place that is not known yet. -/
def fail {α : Type} (f : Fault) : Compile α :=
  throw (.of f)

/-- A rule that needs nothing but what it is given. -/
def check {α : Type} : Except Fault α → Compile α
  | .ok a => pure a
  | .error f => fail f

/-- Errors of a step that have no place yet get this one. -/
def at' {α : Type} (span : Span) (step : Compile α) : Compile α := fun c =>
  match step c with
  | .ok r => .ok r
  | .error e => .error (e.at' span)

/-- An error without a place is given one. -/
theorem at_fail {α : Type} (span : Span) (f : Fault) (c : Compiler) :
    at' span (fail f : Compile α) c = .error ⟨f, some span⟩ := rfl

/-- The types known so far. -/
def types : Compile TypeTable := do
  return (← get).types

/-- Apply a rule to the types known so far. -/
def rule {α : Type} (f : TypeTable → Except Fault α) : Compile α := do
  check (f (← types))

/-- Build a type. -/
def build (b : Build TypeRef) : Compile Ty := do
  match b.run.run (← types) with
  | (.ok r, t) =>
    modify fun c => { c with types := t }
    return r.type
  | (.error e, _) => fail (.typing e)

/-- A type of the package. -/
def typeRef (ty : Ty) : TypeRef := ⟨packageHome, ty⟩

/-- Change the types without building one. -/
def complete (b : Build Unit) : Compile Unit := do
  match b.run.run (← types) with
  | (.ok _, t) => modify fun c => { c with types := t }
  | (.error e, _) => fail (.typing e)

/-- Meaning of a name, which must have one. -/
def resolve (name : Name) : Compile Meaning := do
  match (← get).resolve name with
  | some m => return m
  | none => fail (.undefined name)

/-- A step that looks at the state first. -/
theorem get_bind {α : Type} (f : Compiler → Compile α) (c : Compiler) :
    (get >>= f) c = f c c := rfl

/-- A name that has a meaning. -/
theorem resolve_some {name : Name} {m : Meaning} {c : Compiler} (h : c.resolve name = some m) :
    resolve name c = .ok (m, c) := by
  rw [resolve, get_bind, h]
  rfl

/-- A name that has no meaning. -/
theorem resolve_none {name : Name} {c : Compiler} (h : c.resolve name = none) :
    resolve name c = .error (.of (.undefined name)) := by
  rw [resolve, get_bind, h]
  rfl

/-- Change the body being compiled. -/
def onFrame {α : Type} (f : Frame → α × Frame) : Compile α :=
  modifyGet fun c =>
    let r := f c.frame
    (r.1, { c with frame := r.2 })

/-- Change the body being compiled. -/
def updateFrame (f : Frame → Frame) : Compile Unit :=
  modify fun c => { c with frame := f c.frame }

/-- A new slot of the current body. -/
def alloc : Compile Nat :=
  onFrame Frame.alloc

end Compile

/-- Steps that add to the code of a body. -/
abbrev Emit := StateT Assembly Compile

namespace Emit

/-- Add instructions. -/
def all (is : List Code.Instr) : Emit Unit :=
  modify fun k => k.pushAll is

/-- Add an instruction. -/
def one (i : Code.Instr) : Emit Unit :=
  modify fun k => k.push i

/-- A new label. -/
def newLabel : Emit Nat :=
  modifyGet Assembly.newLabel

/-- Bind a label here. -/
def place (label : Nat) : Emit Unit :=
  modify fun k => k.place label

/-- Errors of a step that have no place yet get this one. -/
def at' {α : Type} (span : Span) (step : Emit α) : Emit α := fun k =>
  Compile.at' span (step k)

end Emit

namespace Compile

/-- Run a step in a new frame.  The names of the bodies around it are visible if it is `nested`. -/
def inFrame {α : Type} (nested : Bool) (content : Compile α) : Compile α := do
  let outer ← get
  set { outer with
    frame := .empty, enclosing := if nested then outer.frame :: outer.enclosing else [] }
  let a ← content
  modify fun c => { c with frame := outer.frame, enclosing := outer.enclosing }
  return a

/-- Compile a body. -/
def assembled (content : Emit Unit) : Compile Code.Body := do
  let (_, k) ← content.run .empty
  return k.body (← get).frame.slots

end Compile

end ScriptCore
