import ScriptCore.Compile.Constant
import ScriptCore.Compile.Place

/-!
# Operands

What an expression compiles to: a constant, which keeps having no type until it is used; code for
one value of a known type; or a call with no result or several.  Where a value of a type is needed,
a constant without type takes that type and everything else must be assignable to it.

Main statements: `single_term` (an operand with one value is that value) and
`valueFor_of_not_assignable` (what cannot be assigned is refused).
-/

namespace ScriptCore

/-- Number of the universe in which a package builds its types. -/
def packageHome : Nat := 0

/-- A compiled expression with one value. -/
inductive Term where
  | const (value : Constant) (type : Option Ty)
  | code (e : Code.Typed) (type : Ty)
deriving Inhabited

/-- A compiled expression. -/
inductive Operand where
  | term (term : Term)
  | results (call : Code.Call) (types : List Ty)
deriving Inhabited

namespace Term

/-- A constant without type. -/
def untyped (c : Constant) : Term :=
  .const c none

/-- An expression of a type; a scalar is checked when it is read. -/
def ofExpr (t : TypeTable) (e : Code.Expr) (type : Ty) : Term :=
  .code (.ofCategory (t.category type) e) type

/-- A reference, a struct or a value of an interface. -/
def reference (e : Code.Expr) (type : Ty) : Term :=
  .code ⟨.unknown, e⟩ type

/-- The constant nil, whatever its type. -/
def isNil : Term → Bool
  | const c _ => c.isNil
  | code _ _ => false

/-- Type, if it has one already. -/
def type? : Term → Option Ty
  | const _ type => type
  | code _ type => some type

/-- Type of a term that is used as a value: a constant takes its default type. -/
def type : Term → Except Fault Ty
  | const c none =>
    match c.defaultType? with
    | some ty => .ok ty
    | none => .error .untypedNil
  | const _ (some ty) | code _ ty => .ok ty

/-- A fixed value of a type. -/
def fixed (t : TypeTable) (c : Constant) (type : Ty) : Except Fault Code.Typed := do
  return .constant (t.category type) (← c.toValue t type)

/-- Code for the term, and its type. -/
def valueOf (t : TypeTable) (x : Term) : Except Fault (Code.Typed × Ty) :=
  match x with
  | const c _ => do
    let ty ← x.type
    return (← fixed t c ty, ty)
  | code e ty => .ok (e, ty)

/-- Refuse a type that cannot be assigned to another. -/
def requireAssignable (t : TypeTable) (type target : Ty) : Except Fault Unit :=
  if t.assignable type target then .ok () else .error (.notAssignable type.text target.text)

/-- Code for the term as a value of the type `target`. -/
def valueFor (t : TypeTable) (x : Term) (target : Ty) : Except Fault Code.Typed :=
  match x with
  | const c none => fixed t c target
  | const c (some ty) => do
    requireAssignable t ty target
    fixed t c target
  | code e ty => do
    requireAssignable t ty target
    return if t.isInterface target then ⟨.unknown, e.expr⟩ else e

/-- Code of a type that cannot be assigned is refused. -/
theorem valueFor_of_not_assignable {t : TypeTable} {ty target : Ty}
    (h : t.assignable ty target = false) (e : Code.Typed) :
    valueFor t (.code e ty) target = .error (.notAssignable ty.text target.text) := by
  simp [valueFor, requireAssignable, h, bind, Except.bind]

end Term

namespace Operand

/-- A constant without type. -/
def untyped (c : Constant) : Operand :=
  .term (.untyped c)

/-- A call: one result is a value, any other number of results stays a call. -/
def ofCall (t : TypeTable) (call : Code.Call) : List Ty → Operand
  | [ty] => .term (.ofExpr t (.first call) ty)
  | types => .results call types

/-- The one value of an operand. -/
def single : Operand → Except Fault Term
  | term x => .ok x
  | results _ types => .error (.valueCount 1 types.length)

/-- An operand with one value is that value. -/
theorem single_term (x : Term) : single (.term x) = .ok x := rfl

/-- Code for the one value of an operand, and its type. -/
def valueOf (t : TypeTable) (op : Operand) : Except Fault (Code.Typed × Ty) := do
  (← op.single).valueOf t

/-- Code for the one value of an operand as a value of a type. -/
def valueFor (t : TypeTable) (op : Operand) (target : Ty) : Except Fault Code.Typed := do
  (← op.single).valueFor t target

end Operand

namespace Place

/-- Assign an operand. -/
def set (t : TypeTable) (p : Place) (op : Operand) : Except Fault Code.Instr :=
  match op with
  | .term (.const c none) => p.setConst t c
  | .term (.const c (some ty)) => do
    Term.requireAssignable t ty p.type
    p.setConst t c
  | op => do p.setExpr t (← op.valueFor t p.type)

end Place

end ScriptCore
