import ScriptCore.Compile.Types

/-!
# Parts of values

Elements of maps, slices and strings, fields of structs, methods, members of packages, and
literals that build slices, maps and structs from their parts.

A method of a declared type comes before a field of the same name.  Omitted fields of a struct
literal are zero; its fields are evaluated in the order of the struct's declaration.

Main statement: `select_method`, a method hides a field of its name.
-/

namespace ScriptCore.Compile

/-- An index: a constant that is not negative, or an integer. -/
def indexExpr (t : TypeTable) (x : Term) : Except Fault Code.Expr :=
  match x with
  | .const c _ =>
    match c.asInt? with
    | some i =>
      if 0 ≤ i ∧ i ≤ Int64.maxValue.toInt then .ok (.const (.int (Int64.ofInt i)))
      else .error (.invalidOperation "[]" ("index " ++ c.text))
    | none => .error (.invalidOperation "[]" ("index " ++ c.text))
  | x => do
    let (e, ty) ← x.valueOf t
    match e.category with
    | .int => return e.expr
    | .uint => return .asIndex e.expr
    | _ => throw (.invalidOperation "[]" ty.text)

/-- An index given by an operand. -/
def indexOperand (t : TypeTable) (op : Operand) : Except Fault Code.Expr := do
  indexExpr t (← op.single)

/-- An element of the value of `e`. -/
def elementOf (t : TypeTable) (e : Code.Typed) (ty : Ty) (key : Operand) : Except Fault Term :=
  match t.kind ty, t.key? ty, t.elem? ty with
  | .map, some keyType, some elem => do
    let k ← key.valueFor t keyType
    return .ofExpr t (.mapGet e.expr k.expr (t.zero elem)) elem
  | .slice, _, some elem => do
    let i ← indexOperand t key
    return .ofExpr t (.sliceGet e.expr i) elem
  | .string, _, _ => do
    let i ← indexOperand t key
    return .code ⟨.uint, .byteAt e.expr i⟩ (.basic .uint8)
  | _, _, _ => .error (.invalidOperation "[]" ty.text)

/-- An index expression. -/
def index (container key : Compile Operand) : Compile Operand := do
  let c ← container
  let (e, ty) ← rule fun t => c.valueOf t
  let k ← key
  return .term (← rule fun t => elementOf t e ty k)

/-- A host function as an operand. -/
def hostOperand (f : HostFunc) : Operand :=
  .term (.reference (.const f.value) f.type)

/-- A member of the package that the name stands for, if it stands for one. -/
def packageMember? (base : Option Name) (field : Name) : Compile (Option HostFunc) := do
  match base.bind (← get).resolve with
  | some (.package p) =>
    match findHost p.members field with
    | some f => return some f
    | none => fail (.undefined (p.path ++ "." ++ field))
  | _ => return none

/-- A method with its receiver. -/
def methodValue (recv : Code.Expr) (method : Binding) (name : Name) : Compile Operand := do
  match (← types).signature? method.type with
  | none => fail (.notAnExpression name)
  | some s =>
    let ty ← signatureType none s.params s.results s.variadic
    let depth := (← get).globalsDepth
    return .term (.reference (.bindMethod name recv (.load depth method.slot)) ty)

/-- A field of the value of `e`. -/
def fieldOf (t : TypeTable) (e : Code.Expr) (ty : Ty) (name : Name) : Except Fault Term :=
  if t.isInterface ty && (t.method? ty name).isSome then
    .error (.unsupported ("method " ++ name ++ " of interface type " ++ ty.text))
  else
    match t.fieldByName? (Compiler.pointed ty) name with
    | some (i, f) => .ok (.ofExpr t (.field i e) f.type)
    | none => .error (.undefined (ty.text ++ "." ++ name))

/-- A method or field of the value of `e`. -/
def select (e : Code.Expr) (ty : Ty) (name : Name) : Compile Operand := do
  match (← get).method? ty name with
  | some m => methodValue e m name
  | none => return .term (← rule fun t => fieldOf t e ty name)

/-- A method hides a field of its name. -/
theorem select_method {c : Compiler} {ty : Ty} {name : Name} {m : Binding}
    (h : c.method? ty name = some m) (e : Code.Expr) :
    (select e ty name).run c = (methodValue e m name).run c := by
  simp [select, h]

/-- A selector; `baseName` is the name before the point if there is only a name. -/
def selector (baseName : Option Name) (base : Compile Operand) (field : Name) :
    Compile Operand := do
  match ← packageMember? baseName field with
  | some f => return hostOperand f
  | none =>
    let b ← base
    let (e, ty) ← rule fun t => b.valueOf t
    select e.expr ty field

/-- An element of a literal: its key, the name that the key is if it is one, and its value. -/
structure Element where
  keyName : Option Name
  key : Option (Compile Operand)
  value : Compile Operand

/-- Compile an operand as a value of a type. -/
def converted (operand : Compile Operand) (ty : Ty) : Compile Code.Expr := do
  let op ← operand
  return (← rule fun t => op.valueFor t ty).expr

/-- Elements of a slice literal. -/
def sliceElements (elem : Ty) : List Element → Compile (List Code.Expr)
  | [] => return []
  | e :: rest => do
    if e.key.isSome then fail (.unsupported "indexed slice literal")
    let v ← converted e.value elem
    return v :: (← sliceElements elem rest)

/-- Entries of a map literal. -/
def mapElements (key elem : Ty) : List Element → Compile (List (Code.Expr × Code.Expr))
  | [] => return []
  | e :: rest => do
    match e.key with
    | none => fail (.unsupported "missing key in map literal")
    | some k =>
      let k ← converted k key
      let v ← converted e.value elem
      return (k, v) :: (← mapElements key elem rest)

/-- Position of the field that an element of a struct literal at position `pos` gives. -/
def fieldPosition (t : TypeTable) (ty : Ty) (pos : Nat) (e : Element) : Except Fault Nat :=
  match e.key, e.keyName with
  | none, _ => .ok pos
  | some _, none => .error (.unsupported "struct literal key")
  | some _, some name =>
    match t.fieldByName? ty name with
    | some (i, _) => .ok i
    | none => .error (.undefined (ty.text ++ "." ++ name))

/-- Fields of a struct literal with the elements from position `pos` on filled in; `count` is the
number of elements in all. -/
def structElements (ty : Ty) (count : Nat) : Nat → List Code.Expr → List Element →
    Compile (List Code.Expr)
  | _, inits, [] => return inits
  | pos, inits, e :: rest => do
    let i ← rule fun t => fieldPosition t ty pos e
    let fields := (← types).fields ty
    match fields[i]? with
    | none => fail (.valueCount fields.length count)
    | some f =>
      let v ← converted e.value f.type
      structElements ty count (pos + 1) (inits.set i v) rest

/-- A literal of a slice, map or struct type. -/
def composite (ty : Ty) (elems : List Element) : Compile Operand := do
  let t ← types
  let build ← match t.kind ty, t.key? ty, t.elem? ty with
    | .slice, _, some elem => do pure (.sliceOf (← sliceElements elem elems))
    | .map, some key, some elem => do pure (.mapOf (← mapElements key elem elems))
    | .struct, _, _ => do
      let zeros := (t.fields ty).map fun f => Code.Expr.const (t.zero f.type)
      pure (.structOf (← structElements ty elems.length 0 zeros elems))
    | _, _, _ => fail (.unsupported ("composite literal of type " ++ ty.text))
  return .term (.reference build ty)

end ScriptCore.Compile
