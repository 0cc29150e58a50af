import ScriptCore.Declaration.Basic

/-!
# Scopes

A scope holds declarations in the order in which they were loaded.  Every name is bound by at most
one of them; blank names and `init` functions are bound under generated names, and methods under
`Type.Method`.  Loading an item may fail half way through a block; what was loaded before stays.

Main statements: `insert_decls` (a declaration that is added comes last) and `insert_redeclared`
(a bound name is refused and nothing changes).
-/

namespace ScriptCore

/-- Errors of loading and ordering declarations. -/
inductive SortError where
  | cycle (names : List Name) (span : Span)
  | redeclared (name : Name) (span previous : Span)
  | valueCount (names values : Nat) (span : Span)
  | missingConstValue (name : Name) (span : Span)
  | badReceiver (method : Name) (span : Span)
deriving Repr, DecidableEq

namespace SortError

/-- Where the error is. -/
def span : SortError → Span
  | cycle _ s | redeclared _ s _ | valueCount _ _ s | missingConstValue _ s | badReceiver _ s => s

/-- Wording of an error. -/
def message : SortError → String
  | cycle names _ => "initialization cycle: " ++ String.intercalate " -> " names
  | redeclared name _ _ => name ++ " redeclared in this block"
  | valueCount names values _ =>
    "assignment mismatch: " ++ toString names ++ " variable(s) but " ++ toString values
      ++ " value(s)"
  | missingConstValue name _ => "missing init expr for const declaration " ++ name
  | badReceiver method _ => "invalid receiver type for method " ++ method

end SortError

/-- Declarations in loading order, and the counters for generated names and blocks. -/
structure Scope where
  decls : Array Decl
  generated : Nat
  blocks : Nat

namespace Scope

/-- The scope before anything is loaded. -/
def empty : Scope := ⟨#[], 0, 0⟩

/-- Index of the declaration that binds a name. -/
def indexOf? (s : Scope) (name : Name) : Option Nat :=
  s.decls.findIdx? fun d => d.boundNames.contains name

/-- Declaration that binds a name. -/
def get? (s : Scope) (name : Name) : Option Decl :=
  s.decls.find? fun d => d.boundNames.contains name

/-- The innermost declaration of a name in nested scopes, the innermost scope first. -/
def lookup (scopes : List Scope) (name : Name) : Option Decl :=
  scopes.findSome? (·.get? name)

/-- Indices of the methods called `method`, in loading order. -/
def methodIndices (s : Scope) (method : Name) : List Nat :=
  (List.range s.decls.size).filter fun i =>
    match s.decls[i]? with
    | some d => d.kind == .method && (d.func.map FuncDecl.name) == some method
    | none => false

/-- Span of the declaration of a name, the empty span at zero if there is none. -/
def spanOf (s : Scope) (name : Name) : Span :=
  (s.get? name).elim Span.none Decl.span

/-- The name generated from a base and a counter. -/
def generatedName (base : String) (counter : Nat) : Name :=
  base ++ "#" ++ toString counter

/-- First counter from `counter` on, among `fuel` many, whose generated name is not bound. -/
def freshCounter (s : Scope) (base : String) : Nat → Nat → Nat
  | 0, counter => counter
  | fuel + 1, counter =>
    if (s.indexOf? (generatedName base counter)).isSome then freshCounter s base fuel (counter + 1)
    else counter

/-- Number of names bound in the scope. -/
def boundCount (s : Scope) : Nat :=
  s.decls.foldl (fun n d => n + d.boundNames.length) 0

/-- A generated name that is not bound, and the scope that will not generate it again. -/
def gensym (s : Scope) (base : String) : Name × Scope :=
  let counter := freshCounter s base s.boundCount s.generated
  (generatedName base counter, { s with generated := counter + 1 })

/-- Add a declaration under all its names. -/
def insert (s : Scope) (d : Decl) : Except SortError Scope :=
  match d.boundNames.findSome? fun n => (s.get? n).map fun p => (n, p) with
  | some (name, previous) => .error (.redeclared name d.span previous.span)
  | none => .ok { s with decls := s.decls.push { d with seq := s.decls.size } }

/-- A declaration that is added comes last. -/
theorem insert_decls {s s' : Scope} {d : Decl} (h : s.insert d = .ok s') :
    s'.decls = s.decls.push { d with seq := s.decls.size } := by
  unfold insert at h
  split at h
  · cases h
  · cases h; rfl

/-- A bound name is refused. -/
theorem insert_redeclared {s : Scope} {d previous : Decl} {name : Name} {rest : List Name}
    (hb : d.boundNames = name :: rest) (h : s.get? name = some previous) :
    s.insert d = .error (.redeclared name d.span previous.span) := by
  simp [insert, hb, h]

/-- Loading changes the scope and may fail. -/
abbrev Load := ExceptT SortError (StateM Scope)

/-- Add a declaration to the scope being loaded. -/
def add (d : Decl) : Load Unit := do
  match (← get).insert d with
  | .ok s => set s
  | .error e => throw e

/-- A generated name for the scope being loaded. -/
def fresh (base : String) : Load Name :=
  modifyGet fun s => s.gensym base

/-- The name itself, or a generated one for a blank. -/
def nameOrFresh (name : Name) : Load Name :=
  if name = blank then fresh blank else pure name

/-- Base type name of a receiver `T` or `*T`. -/
def receiverName : TypeExpr → Option Name
  | .node _ (.named name) => some name
  | .node _ (.pointer (.node _ (.named name))) => some name
  | _ => none

/-- Load a function, method or macro. -/
def loadFunc (decl : FuncDecl) (isMacro : Bool) : Load Unit := do
  let (kind, name) ← match decl.recv with
    | some recv =>
      match receiverName recv.type with
      | none => throw (.badReceiver decl.name decl.span)
      | some base => pure (DeclKind.method, base ++ "." ++ decl.name)
    | none =>
      if isMacro then pure (DeclKind.macroDecl, ← nameOrFresh decl.name)
      else if decl.name = "init" then pure (DeclKind.func, ← fresh "init")
      else pure (DeclKind.func, ← nameOrFresh decl.name)
  add ⟨kind, name, .func decl, decl.span, none, none, 0⟩

/-- Names of a line with generated names for the blanks. -/
def namesOrFresh : List Name → Load (List Name)
  | [] => pure []
  | n :: rest => do
    let n ← nameOrFresh n
    return n :: (← namesOrFresh rest)

/-- Declare the names of a line one by one, each with its own initializer. -/
def addGrouped (kind : DeclKind) (group : Nat) (iota : Option Nat) (spec : ValueSpec) :
    Nat → List Name → Load Unit
  | _, [] => pure ()
  | index, name :: rest => do
    add ⟨kind, name, .grouped spec index, spec.span, iota, some group, 0⟩
    addGrouped kind group iota spec (index + 1) rest

/-- Load a value line.  The numbers of names and values must agree, except that one value may
initialize several variables. -/
def loadSpec (kind : DeclKind) (group : Nat) (iota : Option Nat) (spec : ValueSpec) :
    Load Unit := do
  let names ← namesOrFresh spec.names
  let bound : ValueSpec := .mk names spec.type spec.values spec.span
  if spec.values ≠ [] ∧ spec.values.length ≠ names.length then
    match kind, spec.values, names with
    | .var, [_], first :: _ => add ⟨kind, first, .tuple bound, spec.span, iota, some group, 0⟩
    | _, _, _ => throw (.valueCount names.length spec.values.length spec.span)
  else
    match names with
    | [name] => add ⟨kind, name, .value bound, spec.span, iota, some group, 0⟩
    | names => addGrouped kind group iota bound 0 names

/-- Load the lines of a constant block.  A line without values repeats the type and the values of
the nearest line before it that has some. -/
def loadConsts (group : Nat) : Nat → Option ValueSpec → List ValueSpec → Load Unit
  | _, _, [] => pure ()
  | iota, previous, spec :: rest => do
    let source := if spec.values.isEmpty then previous.getD spec else spec
    if source.values.isEmpty then
      throw (.missingConstValue (spec.names.headD "") spec.span)
    loadSpec .const group (some iota) (.mk spec.names source.type source.values spec.span)
    loadConsts group (iota + 1) (some source) rest

/-- Load the lines of a variable block. -/
def loadVars (group : Nat) : List ValueSpec → Load Unit
  | [] => pure ()
  | spec :: rest => do
    loadSpec .var group none spec
    loadVars group rest

/-- A number for a new block. -/
def newBlock : Load Nat :=
  modifyGet fun s => (s.blocks, { s with blocks := s.blocks + 1 })

/-- Last part of a path. -/
def lastPart (path : String) : Name :=
  String.ofList ((path.toList.reverse.takeWhile (· != '/')).reverse)

/-- Load an item. -/
def load : Item → Load Unit
  | .importDecl spec =>
    let name := spec.localName.getD (lastPart spec.path)
    add ⟨.importDecl, name, .importSpec spec, spec.span, none, none, 0⟩
  | .type spec => do
    let name ← nameOrFresh spec.name
    add ⟨.type, name, .type spec, spec.span, none, none, 0⟩
  | .func decl => loadFunc decl false
  | .macroDecl decl => loadFunc decl true
  | .const specs => do loadConsts (← newBlock) 0 none specs
  | .var specs => do loadVars (← newBlock) specs

/-- Load items in order up to the first that fails. -/
def loadAll : List Item → Load Unit
  | [] => pure ()
  | item :: rest => do
    load item
    loadAll rest

/-- The scope of a list of items. -/
def ofItems (items : List Item) : Except SortError Scope :=
  match (loadAll items).run empty with
  | (.ok _, s) => .ok s
  | (.error e, _) => .error e

end Scope

end ScriptCore
