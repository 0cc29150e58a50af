import ScriptCore.Compile.Package
import ScriptCore.Proofs.Addressing.Parts
import ScriptCore.Proofs.Addressing.Scopes
import ScriptCore.Proofs.Control.Elaborate

/-!
# Compilation with checked addresses

The compilation once more, with a check wherever the address of a variable is decided.  The scopes
that the text gives are passed down beside the state of the compilation.  Checked are

* the address under which an identifier that stands for a variable is loaded or stored,
* the slots of declared names, of the temporaries of an assignment, and of the named results,
* the number of slots of a body, and that all that is declared in it has slots of its own.

A check that fails makes the compilation fail.  That none ever does is the theorem
`Package.ofItems_eq_checked`.
-/

namespace ScriptCore

namespace Code

/-- Address that an expression loads, if it loads a variable and nothing else. -/
def Expr.address? : Expr → Option (Nat × Nat)
  | .load depth slot => some (depth, slot)
  | .expect _ e => e.address?
  | _ => none

end Code

/-- Address that an operand loads, if it is a variable. -/
def Operand.address? : Operand → Option (Nat × Nat)
  | .term (.code e _) => e.expr.address?
  | _ => none

/-- Address of a place, if it is a variable. -/
def Place.address? (p : Place) : Option (Nat × Nat) :=
  match p.container with
  | .var depth slot => some (depth, slot)
  | _ => none

/-- Slot of a package variable, if the name stands for one. -/
def Compiler.globalSlot? (c : Compiler) (name : Name) : Option Nat :=
  match c.entity? name with
  | some (.var b) => some b.slot
  | _ => none

/-- Address of the variable that a name stands for: the innermost local one, or else a variable of
the package, which lies beyond all bodies. -/
def Scopes.addressIn? (scopes : Scopes) (c : Compiler) (name : Name) : Option (Nat × Nat) :=
  (scopes.address? name).or ((c.globalSlot? name).map fun slot => (scopes.length, slot))

namespace Checked

open Compile

/-- Give up unless an address is what it should be. -/
def require (ok : Bool) : Compile Unit :=
  if ok then pure () else fail (.unsupported "address")

/-- An identifier loads the variable that it stands for, if it stands for one. -/
def identifier (scopes : Scopes) (name : Name) : Compile Operand := do
  let op ← Compile.identifier name
  let c ← get
  require ((scopes.addressIn? c name).all fun a => op.address? == some a)
  return op

/-- A name as a place is the variable that it stands for. -/
def namedPlace (scopes : Scopes) (name : Name) : Compile (Option Place) := do
  let place ← Compile.namedPlace name
  let c ← get
  require (place.all fun p => p.address? == scopes.addressIn? c name)
  return place

/-- Slots that an instruction stores in are slots of the current body, and the expected ones. -/
def requireTargets (i : Code.Instr) (slots : List (Option Nat)) : Compile Unit :=
  require (i.targetDepth == 0 && i.targets == slots)

/-- The temporaries that the first instruction of an assignment fills. -/
def requireTemporaries (l : Level) (count : Nat) (is : List Code.Instr) : Compile Unit :=
  match count, is with
  | 0, _ => pure ()
  | _, [] => require false
  | count, i :: _ => requireTargets i ((List.range count).map fun k => some (l.next + k))

/-- A function literal whose body is given by its heading. -/
def funcLit (heading : Compile Heading) (content : Heading → Compile Routine) :
    Compile Operand := do
  let h ← heading
  let ty ← headingType none h
  let body ← inFrame true do
    let p ← content h
    return (p.write .empty).body (← get).frame.slots
  return .term (.reference (.closure body) ty)

/-- The body of a function: its parameters and results, and then its statements, given the level
they start from and what they make of a level. -/
def routine (recv : Option Param) (sig : Sig) (recvType : Option (Option Name × Ty)) (h : Heading)
    (content : Level → Compile Tree) (after : Level → Level) : Compile Routine := do
  let entry ← enterBody recvType h
  let l := Level.enter recv sig
  let c ← get
  require (c.frame.namedResults == l.results)
  let t ← withBlock (content l.nested)
  let c ← get
  require (c.frame.slots == (after l.nested).next &&
    decide ((after l.nested).declared.map Prod.snd).Nodup)
  return ⟨entry, t, endingOf c.types c.frame⟩

mutual

/-- An expression as an operand. -/
def operand (scopes : Scopes) : Expr → Compile Operand
  | .node span kind => at' span (operandOf scopes kind)

/-- The operand of a form of expression. -/
def operandOf (scopes : Scopes) : ExprKind → Compile Operand
  | .ident name => identifier scopes name
  | .nil => return .untyped .nil
  | .bool b => return .untyped (.bool b)
  | .int i => return .untyped (.int i)
  | .float x => return .untyped (.float x)
  | .imag x => return .untyped (.complex 0 x)
  | .str s => return .untyped (.str s)
  | .unary op e => do
    let x ← check (← operand scopes e).single
    return .term (← rule fun t => x.unary t op)
  | .binary op a b => do
    let x ← check (← operand scopes a).single
    let y ← check (← operand scopes b).single
    return .term (← rule fun t => x.binary t op y)
  | .call f args =>
    call (typeOf? scopes f) (callee scopes f) (operand scopes f) (firstType? scopes args)
      (operands scopes args)
  | .index container key => index (operand scopes container) (operand scopes key)
  | .selector base field => selector base.identifier? (operand scopes base) field
  | .paren e => operand scopes e
  | .composite ty elems => do composite (← typeExpr scopes ty) (elements scopes elems)
  | .funcLit sig body =>
    funcLit (heading scopes sig) fun h =>
      routine none sig none h (fun l => blockTree l scopes false body) fun l => body.after l
  | .type _ => fail (.notAnExpression "type")

/-- Expressions as operands. -/
def operands (scopes : Scopes) : List Expr → List (Compile Operand)
  | [] => []
  | e :: rest => operand scopes e :: operands scopes rest

/-- An optional expression as an operand. -/
def operand? (scopes : Scopes) : Option Expr → Option (Compile Operand)
  | none => none
  | some e => some (operand scopes e)

/-- Elements of a literal. -/
def elements (scopes : Scopes) : List Elem → List Element
  | [] => []
  | .mk key value :: rest =>
    ⟨key.bind Expr.identifier?, operand? scopes key, operand scopes value⟩ :: elements scopes rest

/-- The type that an expression names, if it names one. -/
def typeOf? (scopes : Scopes) : Expr → Compile (Option Ty)
  | .node _ (.ident name) => identifiedType? name
  | .node _ (.paren e) => typeOf? scopes e
  | .node _ (.type ty) => some <$> typeExpr scopes ty
  | _ => return none

/-- The type that the first expression names, if it names one. -/
def firstType? (scopes : Scopes) : List Expr → Compile (Option Ty)
  | [] => return none
  | e :: _ => typeOf? scopes e

/-- What a call of an expression calls. -/
def callee (scopes : Scopes) : Expr → Callee
  | .node _ (.ident name) => .name name
  | .node _ (.selector base field) => .selector base.identifier? (operand scopes base) field
  | _ => .other

/-- An expression as a place. -/
def placeOf (scopes : Scopes) : Expr → Compile (Option Place)
  | .node span (.ident name) => at' span (namedPlace scopes name)
  | .node span (.paren e) => at' span (placeOf scopes e)
  | .node span (.index container key) =>
    at' span (indexPlace (operand scopes container) (operand scopes key))
  | .node span (.selector base field) => at' span (selectorPlace (placeOf scopes base) field)
  | .node span _ => at' span (fail (.cannotAssign "expression"))

/-- Expressions as places. -/
def placesOf (scopes : Scopes) : List Expr → List (Compile (Option Place))
  | [] => []
  | e :: rest => placeOf scopes e :: placesOf scopes rest

/-- A type expression as a type. -/
def typeExpr (scopes : Scopes) : TypeExpr → Compile Ty
  | .node span kind => at' span (typeOfKind scopes kind)

/-- The type of a form of type expression. -/
def typeOfKind (scopes : Scopes) : TypeKind → Compile Ty
  | .named name => namedType name
  | .qualified package name => fail (.undefined (package ++ "." ++ name))
  | .slice elem => do sliceType (← typeExpr scopes elem)
  | .array length elem => do
    let n ← arrayLength (← operand scopes length)
    arrayType n (← typeExpr scopes elem)
  | .map key value => do
    let k ← typeExpr scopes key
    let v ← typeExpr scopes value
    mapType k v
  | .pointer elem => do pointerType (← typeExpr scopes elem)
  | .func sig => do headingType none (← heading scopes sig)
  | .struct fields => do structType (← fieldTypes scopes fields)
  | .interface methods => do interfaceType (← methodTypes scopes methods)

/-- An optional type expression as a type. -/
def typeExpr? (scopes : Scopes) : Option TypeExpr → Compile (Option Ty)
  | none => return none
  | some ty => some <$> typeExpr scopes ty

/-- Types of struct fields. -/
def fieldTypes (scopes : Scopes) : List FieldDecl → Compile (List Field)
  | [] => return []
  | .mk name ty embedded :: rest => do
    let ty ← typeExpr scopes ty
    return ⟨name, ty, embedded⟩ :: (← fieldTypes scopes rest)

/-- Types of interface methods. -/
def methodTypes (scopes : Scopes) : List MethodSpec → Compile (List Method)
  | [] => return []
  | .mk name sig :: rest => do
    let ty ← headingType none (← heading scopes sig)
    return ⟨name, ty⟩ :: (← methodTypes scopes rest)

/-- A signature as a heading. -/
def heading (scopes : Scopes) : Sig → Compile Heading
  | .mk params results variadic => do
    let ps ← paramTypes scopes variadic params
    let rs ← paramTypes scopes false results
    return ⟨ps, rs, variadic⟩

/-- Types of parameters, the last of which may collect arguments. -/
def paramTypes (scopes : Scopes) (variadic : Bool) : List Param → Compile (List (Option Name × Ty))
  | [] => return []
  | .mk name ty :: rest => do
    let ty ← paramType (variadic && rest.isEmpty) (← typeExpr scopes ty)
    return (name, ty) :: (← paramTypes scopes variadic rest)

/-- A statement as a tree. -/
def tree (l : Level) (outer : Scopes) (inLoop : Bool) : Stmt → Compile Tree
  | .node span kind => at' span (treeOf l outer inLoop kind)

/-- A form of statement as a tree. -/
def treeOf (l : Level) (outer : Scopes) (inLoop : Bool) : StmtKind → Compile Tree
  | .expr e => do return .act (discard (← operand (l.blocks :: outer) e))
  | .assign lhs rhs => do
    let is ← assign (placesOf (l.blocks :: outer) lhs) (operands (l.blocks :: outer) rhs)
    requireTemporaries l (temporaryCount lhs.length rhs.length) is
    return .act is
  | .opAssign op lhs rhs => do
    return .act [← update op (placeOf (l.blocks :: outer) lhs) (operand (l.blocks :: outer) rhs)]
  | .define names values => do
    let i ← declareValues names none (operands (l.blocks :: outer) values) true
    requireTargets i (l.bindAll true names).1
    return .act [i]
  | .var (.mk names ty values _) => do
    let declared ← typeExpr? (l.blocks :: outer) ty
    let i ← match values with
      | [] => declareZeros names declared
      | value :: rest =>
        declareValues names declared
          (operand (l.blocks :: outer) value :: operands (l.blocks :: outer) rest) false
    requireTargets i (l.bindAll false names).1
    return .act [i]
  | .incDec target increment => do
    return .act [← step (placeOf (l.blocks :: outer) target) increment]
  | .cond test body otherwise => do
    let e ← condition (operand (l.blocks :: outer) test)
    let t ← withBlock (blockTree l.nested outer inLoop body)
    elseTree (body.after l.nested).unnested outer inLoop e t otherwise
  | .loop init test post body =>
    withBlock do
      let i ← optionalTree l.nested outer inLoop init
      let l := afterOptional l.nested init
      let e ← condition? (operand? (l.blocks :: outer) test)
      let t ← withBlock (blockTree l.nested outer true body)
      let p ← optionalTree (body.after l.nested).unnested outer inLoop post
      return .loop i e p t
  | .break => if inLoop then return .leave else fail (.branchOutsideLoop "break")
  | .continue => if inLoop then return .next else fail (.branchOutsideLoop "continue")
  | .return values => do return .act [← returnStmt (operands (l.blocks :: outer) values)]
  | .block body => withBlock (blockTree l.nested outer inLoop body)

/-- A conditional statement from its condition, its body and an optional statement. -/
def elseTree (l : Level) (outer : Scopes) (inLoop : Bool) (e : Code.Expr) (t : Tree) :
    Option Stmt → Compile Tree
  | none => return .ifThen e t
  | some s => do return .ifElse e t (← tree l outer inLoop s)

/-- An optional statement as a tree. -/
def optionalTree (l : Level) (outer : Scopes) (inLoop : Bool) : Option Stmt → Compile Tree
  | none => return .act []
  | some s => tree l outer inLoop s

/-- A block as a tree. -/
def blockTree (l : Level) (outer : Scopes) (inLoop : Bool) : Block → Compile Tree
  | .mk stmts _ => treesOf l outer inLoop stmts

/-- Statements in order as a tree. -/
def treesOf (l : Level) (outer : Scopes) (inLoop : Bool) : List Stmt → Compile Tree
  | [] => return .act []
  | s :: rest => do
    let first ← tree l outer inLoop s
    return .seq first (← treesOf (s.after l) outer inLoop rest)

end

/-! ### Packages -/

/-- The scopes outside of all functions. -/
def top : Scopes := [Level.empty.blocks]

/-- Declare a type. -/
def declareType (name : Name) (spec : TypeSpec) : Compile Unit := do
  if spec.isAlias then bindEntity name (.type (← typeExpr top spec.type))
  else
    let named ← declaredType name
    let underlying ← typeExpr top spec.type
    complete (Universe.setUnderlying (typeRef named) (typeRef underlying))

/-- Declare a function. -/
def declareFunc (name : Name) (decl : FuncDecl) : Compile Unit := do
  let ty ← headingType none (← heading top decl.sig)
  let b ← newFuncSlot name ty
  if decl.name = "init" then
    modify fun c => { c with initFuncs := c.initFuncs ++ [b.slot] }
  else
    exportFunc name b
    bindEntity name (.func b)

/-- Declare a method of a named type or of a pointer to one. -/
def declareMethod (name : Name) (decl : FuncDecl) : Compile Unit := do
  match decl.recv with
  | none => fail (.undefined name)
  | some recv =>
    let recvType ← typeExpr top recv.type
    match Compiler.pointed recvType with
    | .named id owner package =>
      let ty ← headingType (some recvType) (← heading top decl.sig)
      complete (Universe.addMethod (typeRef (.named id owner package)) decl.name (typeRef ty))
      let b ← newFuncSlot name ty
      modify fun c => { c with methods := ((id, decl.name), b) :: c.methods }
      exportFunc name b
    | _ => fail (.invalidOperation "method receiver" recvType.text)

/-- Declare what a declaration stands for, as far as it does not need a value. -/
def declareDecl (d : Decl) : Compile Unit :=
  match d.kind, d.node with
  | .typeForward, _ => do bindEntity d.name (.type (← newNamedType d.name))
  | .type, .type spec => declareType d.name spec
  | .func, .func decl => declareFunc d.name decl
  | .method, .func decl => declareMethod d.name decl
  | .importDecl, .importSpec spec => declareImport d.name spec
  | _, _ => pure ()

/-- A parameter with its type. -/
def receiver (p : Param) : Compile (Option Name × Ty) := do
  return (p.name, ← typeExpr top p.type)

/-- Receivers as an optional step. -/
def receiver? : Option Param → Compile (Option (Option Name × Ty))
  | none => return none
  | some p => some <$> receiver p

/-- Compile the body of a function or method. -/
def defineBody (name : Name) (b : Binding) (decl : FuncDecl) (content : Block) : Compile Unit := do
  let h ← heading top decl.sig
  let recv ← receiver? decl.recv
  let body ← inFrame false do
    let p ← routine decl.recv decl.sig recv h (fun l => blockTree l [] false content)
      fun l => content.after l
    return (p.write .empty).body (← get).frame.slots
  let number := (← get).hosts.count + (← get).functions.size
  modify fun c => { c with functions := c.functions.push (name, body) }
  setGlobal b.slot (.func number name)
  if (← get).lowers && decl.recv.isNone then keepLowered name decl h

/-- Define a function or method. -/
def defineFunc (name : Name) (decl : FuncDecl) : Compile Unit := do
  match (← get).bindings.lookup name with
  | none => fail (.undefined name)
  | some b =>
    match decl.body with
    | none => defineHosted name b
    | some content => defineBody name b decl content

/-- The value of a constant declaration. -/
def constValue (d : Decl) : Compile Entity := do
  let declared ← typeExpr? top d.valueType
  match d.value with
  | none => fail (.notConstant d.name)
  | some e =>
    match ← operand top e with
    | .term (.const c ty) => rule fun t => constEntity t declared c ty
    | _ => fail (.notConstant d.name)

/-- Define a constant. -/
def defineConst (d : Decl) : Compile Unit := do
  bindEntity d.name (← withIota d.iota (constValue d))

/-- An optional expression as an operand. -/
def optionalOperand (e : Option Expr) : Compile (Option Operand) :=
  match e with
  | none => return none
  | some e => some <$> operand top e

/-- Define a variable with a value of its own or none. -/
def defineVar (d : Decl) : Compile Unit := do
  let declared ← typeExpr? top d.valueType
  let value ← optionalOperand d.value
  let ty ← check (varType declared value)
  let slot ← newVar d.name ty
  match value with
  | none => pure ()
  | some op => addInit (← store (.var (← get).globalsDepth slot ty) op)

/-- Define several variables by one call. -/
def defineTuple (spec : ValueSpec) : Compile Unit := do
  let declared ← typeExpr? top spec.type
  let count := spec.names.length
  match spec.values with
  | [value] =>
    match ← operand top value with
    | .term _ => fail (.valueCount count 1)
    | .results call types =>
      if types.length ≠ count then fail (.valueCount count types.length)
      let slots ← newVars declared spec.names types
      addInit (.spread call (← get).globalsDepth (slots.map some))
  | values => fail (.valueCount count values.length)

/-- Define what a declaration stands for. -/
def defineDecl (d : Decl) : Compile Unit :=
  match d.kind, d.node with
  | .func, .func decl | .method, .func decl => defineFunc d.name decl
  | .const, _ => defineConst d
  | .var, .tuple spec => defineTuple spec
  | .var, _ => defineVar d
  | _, _ => pure ()

/-- Compile a batch. -/
def batch (decls : List Decl) : Compile Unit := do
  eachDecl declareDecl (decls.mergeSort fun a b => decide (rank a.kind ≤ rank b.kind))
  eachDecl defineDecl decls

/-- Compile batches in order. -/
def batches : List (List Decl) → Compile Unit
  | [] => return ()
  | decls :: rest => do
    batch decls
    batches rest

end Checked

namespace Package

/-- Compile a scope with checked addresses. -/
def ofScopeChecked (types : TypeTable) (hosts : Hosts) (lowers : Bool) (s : Scope) :
    Except CompileError Package :=
  match Order.ofScope s with
  | .error e => .error (.ofSort e)
  | .ok order =>
    match Checked.batches (Order.batches s order) (.start types hosts lowers) with
    | .ok (_, c) => .ok (ofCompiler c)
    | .error e => .error e

/-- Load items and compile them with checked addresses. -/
def ofItemsChecked (types : TypeTable) (hosts : Hosts) (lowers : Bool) (items : List Item) :
    Except CompileError Package :=
  match Scope.ofItems items with
  | .error e => .error (.ofSort e)
  | .ok s => ofScopeChecked types hosts lowers s

end Package

end ScriptCore
