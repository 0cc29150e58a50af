import ScriptCore.Compile.StraightLine
import ScriptCore.Compile.Syntax
import ScriptCore.Declaration.Order

/-!
# Compilation of packages

The declarations of a scope are compiled batch by batch, dependencies first.  Within a batch, types
are declared before functions, so that functions which call each other all have a slot before any
of their bodies is compiled; then bodies, constants and initializers are compiled in the order of
the batch.

Initializers become the code that initializes the package, in the order of the batches.

Main statements: `defineConst_iota` (the line number is known only within a constant declaration)
and `rank_forward` (forward declarations come first).
-/

namespace ScriptCore

/-- A compiled scope: its types, the first values of its variables, its functions by number (after
those of the host), the code that initializes it, and what can be found in it by name. -/
structure Package where
  types : TypeTable
  globals : Array Value
  functions : Array (Name × Code.Body)
  init : Code.Body
  initFuncs : List Nat
  funcs : List (Name × Binding)
  vars : List (Name × Binding)
  lowered : List (Name × Registers.Stream)

namespace Compile

/-- A new package-level slot. -/
def newGlobal (v : Value) : Compile Nat :=
  modifyGet fun c => (c.globals.size, { c with globals := c.globals.push v })

/-- Set what a package-level slot holds at the start. -/
def setGlobal (slot : Nat) (v : Value) : Compile Unit :=
  modify fun c => { c with globals := c.globals.setIfInBounds slot v }

/-- Let a name stand for something. -/
def bindEntity (name : Name) (e : Entity) : Compile Unit :=
  modify fun c => { c with names := (name, e) :: c.names }

/-- A new slot for a function or method, which is not known by name yet. -/
def newFuncSlot (name : Name) (ty : Ty) : Compile Binding := do
  let b : Binding := ⟨← newGlobal .nil, ty⟩
  modify fun c => { c with bindings := (name, b) :: c.bindings }
  return b

/-- A function that can be called by name from outside. -/
def exportFunc (name : Name) (b : Binding) : Compile Unit :=
  modify fun c => { c with funcs := (name, b) :: c.funcs }

/-- Add to the code that initializes the package. -/
def addInit (i : Code.Instr) : Compile Unit :=
  modify fun c => { c with initCode := c.initCode.push i }

/-! ### Declaring -/

/-- A type under a name of its own, which may have been declared forward. -/
def declaredType (name : Name) : Compile Ty := do
  match (← get).entity? name with
  | some (.type (.named id n p)) => return .named id n p
  | _ =>
    let ty ← newNamedType name
    bindEntity name (.type ty)
    return ty

/-- Declare a type. -/
def declareType (name : Name) (spec : TypeSpec) : Compile Unit := do
  if spec.isAlias then bindEntity name (.type (← typeExpr spec.type))
  else
    let named ← declaredType name
    let underlying ← typeExpr spec.type
    complete (Universe.setUnderlying (typeRef named) (typeRef underlying))

/-- Declare a function. -/
def declareFunc (name : Name) (decl : FuncDecl) : Compile Unit := do
  let ty ← headingType none (← heading decl.sig)
  let b ← newFuncSlot name ty
  if decl.name = "init" then
    modify fun c => { c with initFuncs := c.initFuncs ++ [b.slot] }
  else
    exportFunc name b
    bindEntity name (.func b)

/-- Declare a method of a named type or of a pointer to one. -/
def declareMethod (name : Name) (decl : FuncDecl) : Compile Unit := do
  match decl.recv with
  | none => fail (.undefined name)
  | some recv =>
    let recvType ← typeExpr recv.type
    match Compiler.pointed recvType with
    | .named id owner package =>
      let ty ← headingType (some recvType) (← heading decl.sig)
      complete (Universe.addMethod (typeRef (.named id owner package)) decl.name (typeRef ty))
      let b ← newFuncSlot name ty
      modify fun c => { c with methods := ((id, decl.name), b) :: c.methods }
      exportFunc name b
    | _ => fail (.invalidOperation "method receiver" recvType.text)

/-- Declare an import. -/
def declareImport (name : Name) (spec : ImportSpec) : Compile Unit := do
  match (← get).hosts.package? spec.path with
  | some p => bindEntity name (.package p)
  | none => fail (.undefined ("package " ++ spec.path))

/-- Declare what a declaration stands for, as far as it does not need a value. -/
def declareDecl (d : Decl) : Compile Unit :=
  match d.kind, d.node with
  | .typeForward, _ => do bindEntity d.name (.type (← newNamedType d.name))
  | .type, .type spec => declareType d.name spec
  | .func, .func decl => declareFunc d.name decl
  | .method, .func decl => declareMethod d.name decl
  | .importDecl, .importSpec spec => declareImport d.name spec
  | _, _ => pure ()

/-! ### Defining -/

/-- Give a slot the function that the host provides for it. -/
def defineHosted (name : Name) (b : Binding) : Compile Unit := do
  match findHost (← get).hosts.funcs name with
  | none => fail (.undefined ("body of func " ++ name))
  | some f =>
    rule fun t => Term.requireAssignable t f.type b.type
    setGlobal b.slot f.value

/-- Keep the register code of a function, if it has some. -/
def keepLowered (name : Name) (decl : FuncDecl) (h : Heading) : Compile Unit := do
  let t ← types
  match StraightLine.ofFunc? decl (h.paramTypes.map t.kind) (h.resultTypes.map t.kind) with
  | .ok (some code) => modify fun c => { c with lowered := c.lowered ++ [(name, code)] }
  | .ok none => pure ()
  | .error e => fail (.lowering e)

/-- A parameter with its type. -/
def receiver (p : Param) : Compile (Option Name × Ty) := do
  return (p.name, ← typeExpr p.type)

/-- Receivers as an optional step. -/
def receiver? : Option Param → Compile (Option (Option Name × Ty))
  | none => return none
  | some p => some <$> receiver p

/-- Compile the body of a function or method. -/
def defineBody (name : Name) (b : Binding) (decl : FuncDecl) (content : Block) : Compile Unit := do
  let h ← heading decl.sig
  let recv ← receiver? decl.recv
  let body ← inFrame false (assembled (bodyOf recv h (block content)))
  let number := (← get).hosts.count + (← get).functions.size
  modify fun c => { c with functions := c.functions.push (name, body) }
  setGlobal b.slot (.func number name)
  if (← get).lowers && decl.recv.isNone then keepLowered name decl h

/-- Define a function or method. -/
def defineFunc (name : Name) (decl : FuncDecl) : Compile Unit := do
  match (← get).bindings.lookup name with
  | none => fail (.undefined name)
  | some b =>
    match decl.body with
    | none => defineHosted name b
    | some content => defineBody name b decl content

/-- Value and type of a constant that is declared with a type or without. -/
def constEntity (t : TypeTable) (declared : Option Ty) (c : Constant) (type : Option Ty) :
    Except Fault Entity :=
  match declared with
  | none => .ok (.const c type)
  | some ty => do
    match type with
    | some own => Term.requireAssignable t own ty
    | none => pure ()
    return .const (← c.represent t ty) (some ty)

/-- The value of a constant declaration. -/
def constValue (d : Decl) : Compile Entity := do
  let declared ← typeExpr? d.valueType
  match d.value with
  | none => fail (.notConstant d.name)
  | some e =>
    match ← operand e with
    | .term (.const c ty) => rule fun t => constEntity t declared c ty
    | _ => fail (.notConstant d.name)

/-- Run a step in which the line number of a constant is known. -/
def withIota {α : Type} (iota : Option Nat) (step : Compile α) : Compile α := do
  modify fun c => { c with iota }
  let a ← step
  modify fun c => { c with iota := none }
  return a

/-- Define a constant. -/
def defineConst (d : Decl) : Compile Unit := do
  bindEntity d.name (← withIota d.iota (constValue d))

/-- The line number is known only within a constant declaration. -/
theorem defineConst_iota {d : Decl} {c c' : Compiler} (h : defineConst d c = .ok ((), c')) :
    c'.iota = none := by
  have step : defineConst d c = (withIota d.iota (constValue d) c).bind fun r =>
      bindEntity d.name r.1 r.2 := rfl
  have known : withIota d.iota (constValue d) c =
      (constValue d { c with iota := d.iota }).map fun r => (r.1, { r.2 with iota := none }) := by
    cases hv : constValue d { c with iota := d.iota } with
    | error e =>
      change (constValue d { c with iota := d.iota }).bind _ = _
      rw [hv]
      rfl
    | ok r =>
      change (constValue d { c with iota := d.iota }).bind _ = _
      rw [hv]
      rfl
  rw [step, known] at h
  cases hv : constValue d { c with iota := d.iota } with
  | error e => rw [hv] at h; cases h
  | ok r => rw [hv] at h; cases h; rfl

/-- A new package variable, which starts at zero. -/
def newVar (name : Name) (ty : Ty) : Compile Nat := do
  let slot ← newGlobal ((← types).zero ty)
  modify fun c => { c with vars := (name, ⟨slot, ty⟩) :: c.vars }
  bindEntity name (.var ⟨slot, ty⟩)
  return slot

/-- Type of a variable that is declared with a type or else with a value. -/
def varType (declared : Option Ty) (value : Option Operand) : Except Fault Ty :=
  match declared, value with
  | some ty, _ => .ok ty
  | none, some op => do (← op.single).type
  | none, none => .error (.valueCount 1 0)

/-- An optional expression as an operand. -/
def optionalOperand (e : Option Expr) : Compile (Option Operand) :=
  match e with
  | none => return none
  | some e => some <$> operand e

/-- Define a variable with a value of its own or none. -/
def defineVar (d : Decl) : Compile Unit := do
  let declared ← typeExpr? d.valueType
  let value ← optionalOperand d.value
  let ty ← check (varType declared value)
  let slot ← newVar d.name ty
  match value with
  | none => pure ()
  | some op => addInit (← store (.var (← get).globalsDepth slot ty) op)

/-- New package variables for the results of a call. -/
def newVars (declared : Option Ty) : List Name → List Ty → Compile (List Nat)
  | name :: names, ty :: rest => do
    let want := declared.getD ty
    rule fun t => Term.requireAssignable t ty want
    let slot ← newVar name want
    return slot :: (← newVars declared names rest)
  | _, _ => return []

/-- Define several variables by one call. -/
def defineTuple (spec : ValueSpec) : Compile Unit := do
  let declared ← typeExpr? spec.type
  let count := spec.names.length
  match spec.values with
  | [value] =>
    match ← operand value with
    | .term _ => fail (.valueCount count 1)
    | .results call types =>
      if types.length ≠ count then fail (.valueCount count types.length)
      let slots ← newVars declared spec.names types
      addInit (.spread call (← get).globalsDepth (slots.map some))
  | values => fail (.valueCount count values.length)

/-- Define what a declaration stands for. -/
def defineDecl (d : Decl) : Compile Unit :=
  match d.kind, d.node with
  | .func, .func decl | .method, .func decl => defineFunc d.name decl
  | .const, _ => defineConst d
  | .var, .tuple spec => defineTuple spec
  | .var, _ => defineVar d
  | _, _ => pure ()

/-! ### Batches -/

/-- Place of a kind of declaration in the order of declaring. -/
def rank : DeclKind → Nat
  | .typeForward => 0
  | .type => 1
  | .importDecl => 2
  | .func | .method | .macroDecl => 3
  | .const | .var => 4

/-- Forward declarations come first. -/
theorem rank_forward (k : DeclKind) : rank .typeForward ≤ rank k := Nat.zero_le _

/-- Run a step for every declaration, with errors placed at the declaration. -/
def eachDecl (step : Decl → Compile Unit) : List Decl → Compile Unit
  | [] => return ()
  | d :: rest => do
    at' d.span (step d)
    eachDecl step rest

/-- Compile a batch. -/
def batch (decls : List Decl) : Compile Unit := do
  eachDecl declareDecl (decls.mergeSort fun a b => decide (rank a.kind ≤ rank b.kind))
  eachDecl defineDecl decls

/-- Compile batches in order. -/
def batches : List (List Decl) → Compile Unit
  | [] => return ()
  | decls :: rest => do
    batch decls
    batches rest

end Compile

namespace Package

/-- The finished package. -/
def ofCompiler (c : Compiler) : Package :=
  ⟨c.types, c.globals, c.functions, .mk c.initCode [] c.frame.slots, c.initFuncs, c.funcs, c.vars,
    c.lowered⟩

/-- Compile a scope. -/
def ofScope (types : TypeTable) (hosts : Hosts) (lowers : Bool) (s : Scope) :
    Except CompileError Package :=
  match Order.ofScope s with
  | .error e => .error (.ofSort e)
  | .ok order =>
    match Compile.batches (Order.batches s order) (.start types hosts lowers) with
    | .ok (_, c) => .ok (ofCompiler c)
    | .error e => .error e

/-- Load items and compile them. -/
def ofItems (types : TypeTable) (hosts : Hosts) (lowers : Bool) (items : List Item) :
    Except CompileError Package :=
  match Scope.ofItems items with
  | .error e => .error (.ofSort e)
  | .ok s => ofScope types hosts lowers s

end Package

end ScriptCore
