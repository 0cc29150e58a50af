import ScriptCore.Types.Table
import ScriptCore.Types.Error

/-!
# Signatures

Reading the parameters and results of function types.  Types of any other kind are refused under
the name of the operation.
-/

namespace ScriptCore

/-- Receiver, parameters, results and variadicity of a function type. -/
structure Signature where
  recv : Option Ty
  params : List Ty
  results : List Ty
  variadic : Bool
deriving Repr, DecidableEq, Inhabited

namespace TypeTable

/-- Signature of a function type. -/
def signature? (t : TypeTable) (ty : Ty) : Option Signature :=
  match t.underlying ty with
  | .func recv params results variadic => some ⟨recv, params, results, variadic⟩
  | _ => none

variable (t : TypeTable)

/-- Signature of a function type, for the operation `op`. -/
def signatureFor (op : String) (ty : Ty) : Except TypeError Signature :=
  match t.signature? ty with
  | some s => .ok s
  | none => .error (.notFunc op ty)

/-- The element at an index, for the operation `op`. -/
def elementFor (op : String) (types : List Ty) (i : Nat) : Except TypeError Ty :=
  match types[i]? with
  | some ty => .ok ty
  | none => .error (.indexOutOfRange op i types.length)

/-- Number of parameters, the receiver not counted. -/
def numIn (ty : Ty) : Except TypeError Nat := do
  return (← t.signatureFor "NumIn" ty).params.length

/-- A parameter. -/
def paramAt (ty : Ty) (i : Nat) : Except TypeError Ty := do
  elementFor "In" (← t.signatureFor "In" ty).params i

/-- Number of results. -/
def numOut (ty : Ty) : Except TypeError Nat := do
  return (← t.signatureFor "NumOut" ty).results.length

/-- A result. -/
def resultAt (ty : Ty) (i : Nat) : Except TypeError Ty := do
  elementFor "Out" (← t.signatureFor "Out" ty).results i

/-- Receiver of a method, none for plain functions. -/
def recv (ty : Ty) : Except TypeError (Option Ty) := do
  return (← t.signatureFor "Recv" ty).recv

/-- The last parameter collects the remaining arguments. -/
def isVariadic (ty : Ty) : Except TypeError Bool := do
  return (← t.signatureFor "IsVariadic" ty).variadic

/-- The function has a receiver. -/
def isMethod (ty : Ty) : Except TypeError Bool := do
  return (← t.signatureFor "IsMethod" ty).recv.isSome

end TypeTable

end ScriptCore
