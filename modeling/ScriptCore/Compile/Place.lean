import ScriptCore.Code.Basic
import ScriptCore.Compile.Constant

/-!
# Places

A place is an assignable location together with its type: a variable, an entry of a map, an
element of a slice, or a field of a struct at another place.  Assignments to a place are compiled
by the category of its type: numbers are narrowed, references and values of interfaces are checked
when the code runs, and some kinds of types cannot be stored at all.

Main statements: `setConst_bool` (a boolean constant is stored as it is) and
`setOp_undefined` (an operator that the type does not have is refused).
-/

namespace ScriptCore

/-- An assignable location. -/
structure Place where
  container : Code.Container
  key : Option Code.Expr
  type : Ty

namespace Place

/-- A variable. -/
def var (depth slot : Nat) (type : Ty) : Place :=
  ⟨.var depth slot, none, type⟩

/-- An entry of a map. -/
def mapEntry (map key : Code.Expr) (elem : Ty) : Place :=
  ⟨.map map, some key, elem⟩

/-- An element of a slice. -/
def sliceElem (slice index : Code.Expr) (elem : Ty) : Place :=
  ⟨.slice slice, some index, elem⟩

/-- A field of the struct at another place. -/
def field (t : TypeTable) (base : Place) (index : Nat) (type : Ty) : Place :=
  ⟨.field base.container base.key index (t.zero base.type), none, type⟩

/-- Kinds whose values cannot be stored. -/
def isUnsupported : Kind → Bool
  | .invalid | .array | .pointer => true
  | _ => false

/-- Store the value of an expression as it is. -/
def store (p : Place) (value : Code.Expr) : Code.Instr :=
  .store p.container p.key value

/-- Assign a constant. -/
def setConst (t : TypeTable) (p : Place) (c : Constant) : Except Fault Code.Instr := do
  match t.category p.type with
  | .bool =>
    match (← c.represent t p.type).asBool? with
    | some b => return p.store (.const (.bool b))
    | none => throw (.notAssignable c.text p.type.text)
  | .int | .uint | .float | .complex | .string =>
    return p.store (.const (← c.toValue t p.type))
  | category =>
    if isUnsupported (t.kind p.type) then
      throw (.unsupportedCategory "set_place_const" category p.type)
    else if c.isNil then return p.store (.const (t.zero p.type))
    else return p.store (.const (← c.toValue t p.type))

/-- Assign the value of an expression. -/
def setExpr (t : TypeTable) (p : Place) (e : Code.Typed) : Except Fault Code.Instr :=
  let kind := t.kind p.type
  match t.category p.type, e.category with
  | .bool, .bool | .string, .string => .ok (p.store e.expr)
  | .int, .int | .uint, .uint | .float, .float | .complex, .complex =>
    .ok (p.store (.narrow kind e.expr))
  | .func, _ | .unknown, _ =>
    if isUnsupported kind then
      .error (.unsupportedCategory "set_place_expr" (t.category p.type) p.type)
    else .ok (p.store (.ensure p.type (t.zero p.type) e.expr))
  | _, c => .error (.notAssignable c.text p.type.text)

/-- The operators that can be applied in place at a type of the given category. -/
def hasOperator (c : Category) (op : BinaryOp) : Bool :=
  match c with
  | .int | .uint => true
  | .float | .complex => op.isFloatArith
  | .string => op == .add
  | .bool | .func | .unknown => false

/-- Apply an operator in place. -/
def setOp (t : TypeTable) (p : Place) (op : BinaryOp) (e : Code.Typed) :
    Except Fault Code.Instr :=
  let category := t.category p.type
  let instr : Code.Instr := .update p.container p.key op (t.kind p.type) e.expr (t.zero p.type)
  if !hasOperator category op then .error (.invalidOperation op.symbol p.type.text)
  else if op.isShift then
    if e.category = .int ∨ e.category = .uint then .ok instr
    else .error (.invalidOperation op.symbol e.category.text)
  else if e.category = category then .ok instr
  else .error (.notAssignable e.category.text p.type.text)

/-- An operator that the type does not have is refused. -/
theorem setOp_undefined {t : TypeTable} {p : Place} {op : BinaryOp}
    (h : hasOperator (t.category p.type) op = false) (e : Code.Typed) :
    p.setOp t op e = .error (.invalidOperation op.symbol p.type.text) := by
  simp [setOp, h]

/-- A boolean constant is stored as it is. -/
theorem setConst_bool {t : TypeTable} {p : Place} (h : t.kind p.type = .bool) (b : Bool) :
    p.setConst t (.bool b) = .ok (p.store (.const (.bool b))) := by
  simp [setConst, TypeTable.category, h, Kind.category, Constant.represent, Constant.asBool?,
    bind, Except.bind, pure, Except.pure]

end Place

end ScriptCore
