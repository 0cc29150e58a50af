import ScriptCore.Compile.Call

/-!
# Assignments and declarations of variables

An assignment of several values evaluates all of them into new slots before it stores any.  Values
are compiled before the names they are declared for come into scope.  A short declaration assigns
to a name that the innermost block declares already and declares the others.  The blank name is
evaluated for and stores nothing.

Main statements: `store_const` (a constant is stored as the type of the place) and
`bindName_blank`.
-/

namespace ScriptCore.Compile

/-- Evaluate an operand for its effects; a constant has none. -/
def discard : Operand → List Code.Instr
  | .term (.const _ _) => []
  | .term (.code e _) => [.eval e.expr]
  | .results call _ => [.run call]

/-- Assign an operand to a place. -/
def store (place : Place) (op : Operand) : Compile Code.Instr :=
  rule fun t => place.set t op

/-- A constant is stored as the type of the place. -/
theorem store_const (place : Place) (c : Constant) :
    store place (.untyped c) = rule fun t => place.setConst t c := rfl

/-- The place that a name stands for, none for the blank name. -/
def namedPlace (name : Name) : Compile (Option Place) := do
  if name = blank then return none
  match ← resolve name with
  | .var depth slot ty => return some (.var depth slot ty)
  | _ => fail (.cannotAssign name)

/-- An entry of a map or an element of a slice as a place. -/
def elementPlace (t : TypeTable) (e : Code.Typed) (ty : Ty) (key : Operand) :
    Except Fault Place :=
  match t.key? ty, t.elem? ty with
  | some keyType, some elem => do
    let k ← key.valueFor t keyType
    return .mapEntry e.expr k.expr elem
  | none, some elem =>
    if t.kind ty = .slice then do
      return .sliceElem e.expr (← indexOperand t key) elem
    else .error (.cannotAssign ("index of " ++ ty.text))
  | _, _ => .error (.cannotAssign ("index of " ++ ty.text))

/-- An index expression as a place. -/
def indexPlace (container key : Compile Operand) : Compile (Option Place) := do
  let c ← container
  let (e, ty) ← rule fun t => c.valueOf t
  let k ← key
  return some (← rule fun t => elementPlace t e ty k)

/-- A field of the struct at a place. -/
def fieldPlace (t : TypeTable) (base : Place) (name : Name) : Except Fault Place :=
  match t.fieldByName? (Compiler.pointed base.type) name with
  | some (i, f) => .ok (base.field t i f.type)
  | none => .error (.undefined (base.type.text ++ "." ++ name))

/-- A selector as a place. -/
def selectorPlace (base : Compile (Option Place)) (name : Name) : Compile (Option Place) := do
  match ← base with
  | none => fail (.cannotAssign ("_." ++ name))
  | some b => return some (← rule fun t => fieldPlace t b name)

/-- Assign the value in a slot of the current body. -/
def assignSlot (target : Compile (Option Place)) (ty : Ty) (slot : Nat) :
    Compile (List Code.Instr) := do
  match ← target with
  | none => return []
  | some place => return [← store place (.term (.ofExpr (← types) (.load 0 slot) ty))]

/-- Assign the values in slots of the current body, from left to right. -/
def assignSlots : List (Compile (Option Place)) → List (Ty × Nat) → Compile (List Code.Instr)
  | target :: targets, (ty, slot) :: rest => do
    let first ← assignSlot target ty slot
    return first ++ (← assignSlots targets rest)
  | _, _ => return []

/-- A new slot for every type. -/
def allocEach : List Ty → Compile (List (Ty × Nat))
  | [] => return []
  | ty :: rest => do
    let slot ← alloc
    return (ty, slot) :: (← allocEach rest)

/-- Compile operands as values, each with a new slot to keep it in. -/
def stageEach : List (Compile Operand) → Compile (List (Code.Expr × Ty × Nat))
  | [] => return []
  | value :: rest => do
    let op ← value
    let (e, ty) ← rule fun t => op.valueOf t
    let slot ← alloc
    return (e.expr, ty, slot) :: (← stageEach rest)

/-- Assign one value. -/
def assignOne (target : Compile (Option Place)) (value : Compile Operand) :
    Compile (List Code.Instr) := do
  let place ← target
  let op ← value
  match place with
  | some place => return [← store place op]
  | none => return discard (.term (← check op.single))

/-- Assign the results of a call to several targets. -/
def assignResults (targets : List (Compile (Option Place))) (value : Compile Operand) :
    Compile (List Code.Instr) := do
  match ← value with
  | .term _ => fail (.valueCount targets.length 1)
  | .results call types =>
    if types.length ≠ targets.length then fail (.valueCount targets.length types.length)
    let slots ← allocEach types
    let stores ← assignSlots targets slots
    return .spread call 0 (slots.map fun s => some s.2) :: stores

/-- Assign as many values as there are targets. -/
def assignEach (targets : List (Compile (Option Place))) (values : List (Compile Operand)) :
    Compile (List Code.Instr) := do
  if targets.length ≠ values.length then fail (.valueCount targets.length values.length)
  let staged ← stageEach values
  let stores ← assignSlots targets (staged.map Prod.snd)
  return .setSlots (staged.map fun s => (some s.2.2, s.1)) :: stores

/-- An assignment. -/
def assign (targets : List (Compile (Option Place))) (values : List (Compile Operand)) :
    Compile (List Code.Instr) :=
  match targets, values with
  | [target], [value] => assignOne target value
  | targets, [value] => assignResults targets value
  | targets, values => assignEach targets values

/-- The place that an update needs. -/
def updatedPlace (target : Compile (Option Place)) : Compile Place := do
  match ← target with
  | some place => return place
  | none => fail (.cannotAssign blank)

/-- The constant one, as a value of a type. -/
def one (t : TypeTable) (ty : Ty) : Except Fault Code.Typed :=
  Term.fixed t (.int 1) ty

/-- Increment or decrement. -/
def step (target : Compile (Option Place)) (increment : Bool) : Compile Code.Instr := do
  let place ← updatedPlace target
  rule fun t => do
    place.setOp t (if increment then .add else .sub) (← one t place.type)

/-- Apply an operator in place; the count of a shift may have any type. -/
def update (op : BinaryOp) (target : Compile (Option Place)) (value : Compile Operand) :
    Compile Code.Instr := do
  let place ← updatedPlace target
  let v ← value
  rule fun t => do
    let e ← if op.isShift then Prod.fst <$> v.valueOf t else v.valueFor t place.type
    place.setOp t op e

/-- A new local variable, and its slot. -/
def declareLocal (name : Name) (ty : Ty) : Compile Nat :=
  onFrame fun f => f.declare name ty

/-- Slot for a declared name, none for the blank name.  With `redeclare`, a name of the innermost
block keeps its slot. -/
def bindName (redeclare : Bool) (name : Name) (ty : Ty) : Compile (Option Nat) := do
  if name = blank then return none
  match (← get).frame.findInnermost? name with
  | some v =>
    if redeclare then
      rule fun t => Term.requireAssignable t ty v.type
      return some v.slot
    else return some (← declareLocal name ty)
  | none => return some (← declareLocal name ty)

/-- The blank name needs no slot. -/
theorem bindName_blank (redeclare : Bool) (ty : Ty) (c : Compiler) :
    bindName redeclare blank ty c = .ok (none, c) := rfl

/-- Declare names for the results of a call. -/
def bindResults (declared : Option Ty) (redeclare : Bool) :
    List Name → List Ty → Compile (List (Option Nat))
  | name :: names, ty :: types => do
    let want := declared.getD ty
    rule fun t => Term.requireAssignable t ty want
    let slot ← bindName redeclare name want
    return slot :: (← bindResults declared redeclare names types)
  | _, _ => return []

/-- Values of the declared type, or each of its own type. -/
def stageDeclared (t : TypeTable) (declared : Option Ty) :
    List Operand → Except Fault (List (Ty × Code.Expr))
  | [] => .ok []
  | op :: rest => do
    let ty ← match declared with
      | some ty => pure ty
      | none => do (← op.single).type
    let e ← op.valueFor t ty
    return (ty, e.expr) :: (← stageDeclared t declared rest)

/-- Declare names for staged values. -/
def bindStaged (redeclare : Bool) :
    List Name → List (Ty × Code.Expr) → Compile (List (Option Nat × Code.Expr))
  | name :: names, (ty, e) :: rest => do
    let slot ← bindName redeclare name ty
    return (slot, e) :: (← bindStaged redeclare names rest)
  | _, _ => return []

/-- Declare variables with initial values. -/
def declareValues (names : List Name) (declared : Option Ty) (values : List (Compile Operand))
    (redeclare : Bool) : Compile Code.Instr := do
  let ops ← sequence values
  match ops, names with
  | [.results call types], _ :: _ :: _ =>
    if types.length ≠ names.length then fail (.valueCount names.length types.length)
    let slots ← bindResults declared redeclare names types
    return .spread call 0 slots
  | ops, names =>
    if ops.length ≠ names.length then fail (.valueCount names.length ops.length)
    let staged ← rule fun t => stageDeclared t declared ops
    return .setSlots (← bindStaged redeclare names staged)

/-- Declare variables that start at zero. -/
def declareZeros (names : List Name) (declared : Option Ty) : Compile Code.Instr := do
  match declared with
  | none => fail (.valueCount names.length 0)
  | some ty =>
    let zero := (← types).zero ty
    return .setSlots (← bindStaged false names (names.map fun _ => (ty, .const zero)))

end ScriptCore.Compile
