import ScriptCore.Compile.Operand

/-!
# Operators on operands

Operators on two constants are folded.  Any other binary operator converts both operands to one
type, except that the count of a shift may have any integer type.  Comparing needs values that can
be compared, unless one of them is nil.

Main statements: `binary_const` (constants are folded) and `commonType_same`.
-/

namespace ScriptCore.Term

/-- A constant of a type is checked against it. -/
def ofConst (t : TypeTable) (c : Constant) : Option Ty → Except Fault Term
  | none => .ok (.untyped c)
  | some ty => do return .const (← c.represent t ty) (some ty)

/-- A unary operator.  On an unsigned constant with a type, `^` flips the bits of the width of
the type. -/
def unary (t : TypeTable) (op : UnaryOp) : Term → Except Fault Term
  | .const c type => do
    let folded ← match op, c, type with
      | .bitNot, .int i, some ty =>
        if t.category ty = .uint then pure (.int ((t.kind ty).range.2 - i))
        else Constant.unary op (.int i)
      | op, c, _ => Constant.unary op c
    ofConst t folded type
  | .code e ty =>
    let applied : Term := .code ⟨e.category, .unary op (t.kind ty) e.expr⟩ ty
    match op, e.category with
    | .plus, .int | .plus, .uint | .plus, .float | .plus, .complex => .ok (.code e ty)
    | .neg, .int | .neg, .uint | .neg, .float | .neg, .complex => .ok applied
    | .not, .bool => .ok applied
    | .bitNot, .int | .bitNot, .uint => .ok applied
    | _, _ => .error (.invalidOperation op.symbol ty.text)

/-- A binary operator on two constants.  Two constants with types must have the same; a shift has
the type of what is shifted, and a comparison has none. -/
def fold (t : TypeTable) (op : BinaryOp) (a : Constant) (ta : Option Ty) (b : Constant)
    (tb : Option Ty) : Except Fault Term := do
  if op.isShift then ofConst t (← Constant.binary op a b) ta
  else
    match ta, tb with
    | some x, some y => if x ≠ y then throw (.mismatchedTypes op.symbol x.text y.text)
    | _, _ => pure ()
    let c ← Constant.binary op a b
    if op.isComparison then return .untyped c else ofConst t c (ta.or tb)

/-- The type to which both operands of an operator are converted: the type of one of them, such
that the other can be assigned to it. -/
def commonType (t : TypeTable) (op : BinaryOp) (x y : Term) : Except Fault Ty :=
  match x.type?, y.type? with
  | some a, some b =>
    if a = b then .ok a
    else if t.isInterface b && t.assignable a b then .ok b
    else if t.isInterface a && t.assignable b a then .ok a
    else .error (.mismatchedTypes op.symbol a.text b.text)
  | some ty, none | none, some ty => .ok ty
  | none, none => .error .untypedNil

/-- Operands of the same type have it in common. -/
theorem commonType_same (t : TypeTable) (op : BinaryOp) (e f : Code.Typed) (ty : Ty) :
    commonType t op (.code e ty) (.code f ty) = .ok ty := by
  simp [commonType, type?]

/-- Count of a shift: a constant that is not negative, or an integer. -/
def shiftCount (t : TypeTable) (op : BinaryOp) : Term → Except Fault Code.Expr
  | .const c _ =>
    match c.asInt? with
    | some n =>
      if 0 ≤ n ∧ n < UInt64.size then .ok (.const (.uint (UInt64.ofInt n)))
      else .error (.invalidOperation op.symbol ("shift count " ++ c.text))
    | none => .error (.invalidOperation op.symbol ("shift count " ++ c.text))
  | x => do
    let (e, ty) ← x.valueOf t
    if e.category = .int ∨ e.category = .uint then return e.expr
    else throw (.invalidOperation op.symbol ty.text)

/-- A shift has the type of its left operand. -/
def shift (t : TypeTable) (op : BinaryOp) (x y : Term) : Except Fault Term := do
  let count ← shiftCount t op y
  let (e, ty) ← x.valueOf t
  if e.category = .int ∨ e.category = .uint then
    return .code ⟨e.category, .binary op (t.kind ty) e.expr count⟩ ty
  else throw (.invalidOperation op.symbol ty.text)

/-- Categories whose values have an order. -/
def isOrdered : Category → Bool
  | .int | .uint | .float | .string => true
  | .bool | .complex | .func | .unknown => false

/-- A comparison of two values of the type `ty`. -/
def comparison (t : TypeTable) (op : BinaryOp) (ty : Ty) (x y : Code.Typed) : Except Fault Term :=
  if op.isEquality || (x.category == y.category && isOrdered x.category) then
    .ok (.code ⟨.bool, .binary op (t.kind ty) x.expr y.expr⟩ (.basic .bool))
  else .error (.invalidOperation op.symbol ty.text)

/-- Conjunction and disjunction evaluate their second operand only if it matters. -/
def logical (op : BinaryOp) (ty : Ty) (x y : Code.Typed) : Except Fault Term :=
  if x.category = .bool ∧ y.category = .bool then
    .ok (.code ⟨.bool, if op = .logAnd then .both x.expr y.expr else .either x.expr y.expr⟩ ty)
  else .error (.invalidOperation op.symbol ty.text)

/-- Arithmetic on two values of the type `ty`. -/
def arithmetic (t : TypeTable) (op : BinaryOp) (ty : Ty) (x y : Code.Typed) : Except Fault Term :=
  if x.category = y.category ∧ Place.hasOperator x.category op then
    .ok (.code ⟨x.category, .binary op (t.kind ty) x.expr y.expr⟩ ty)
  else .error (.invalidOperation op.symbol ty.text)

/-- An operator, other than a shift, on two operands that are not both constant. -/
def converted (t : TypeTable) (op : BinaryOp) (x y : Term) : Except Fault Term := do
  let ty ← commonType t op x y
  let a ← x.valueFor t ty
  let b ← y.valueFor t ty
  if op.isComparison then
    if t.isComparable ⟨packageHome, ty⟩ || x.isNil || y.isNil then comparison t op ty a b
    else throw (.invalidOperation op.symbol ty.text)
  else if op.isLogical then logical op ty a b
  else arithmetic t op ty a b

/-- A binary operator. -/
def binary (t : TypeTable) (op : BinaryOp) (x y : Term) : Except Fault Term :=
  match x, y with
  | .const a ta, .const b tb => fold t op a ta b tb
  | x, y => if op.isShift then shift t op x y else converted t op x y

/-- Constants are folded. -/
theorem binary_const (t : TypeTable) (op : BinaryOp) (a b : Constant)
    (ta tb : Option Ty) :
    binary t op (.const a ta) (.const b tb) = fold t op a ta b tb := rfl

end ScriptCore.Term
