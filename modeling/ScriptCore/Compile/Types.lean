import ScriptCore.Compile.State
import ScriptCore.Types.Signature

/-!
# Types of a package

How types are built from the types they are written with, and signatures with the names of their
parameters and results.

Main statement: `paramType_variadic`, the last parameter of a variadic function is a slice.
-/

namespace ScriptCore

/-- Parameters and results with their names.  The last parameter of a variadic heading is a
slice. -/
structure Heading where
  params : List (Option Name × Ty)
  results : List (Option Name × Ty)
  variadic : Bool
deriving Repr, DecidableEq, Inhabited

namespace Heading

/-- Types of the parameters. -/
def paramTypes (h : Heading) : List Ty :=
  h.params.map Prod.snd

/-- Types of the results. -/
def resultTypes (h : Heading) : List Ty :=
  h.results.map Prod.snd

end Heading

namespace Compile

/-- The type that a name stands for. -/
def namedType (name : Name) : Compile Ty := do
  match ← resolve name with
  | .type ty => return ty
  | _ => fail (.notAType name)

/-- The type that an identifier stands for, if it stands for one. -/
def identifiedType? (name : Name) : Compile (Option Ty) := do
  match (← get).resolve name with
  | some (.type ty) => return some ty
  | _ => return none

/-- Slices of a type. -/
def sliceType (elem : Ty) : Compile Ty :=
  build (Universe.slice packageHome (typeRef elem))

/-- Length of an array type: a constant. -/
def arrayLength (length : Operand) : Compile Nat :=
  match length with
  | .term (.const c _) =>
    match c.asInt? with
    | some n =>
      if 0 ≤ n ∧ n < UInt64.size then pure n.toNat
      else fail (.unsupported ("array length " ++ c.text))
    | none => fail (.unsupported ("array length " ++ c.text))
  | _ => fail (.notConstant "array length")

/-- Arrays of a type. -/
def arrayType (length : Nat) (elem : Ty) : Compile Ty :=
  build (Universe.array packageHome length (typeRef elem))

/-- Maps between types. -/
def mapType (key value : Ty) : Compile Ty :=
  build (Universe.map packageHome (typeRef key) (typeRef value))

/-- Pointers to a type. -/
def pointerType (elem : Ty) : Compile Ty :=
  build (Universe.pointer packageHome (typeRef elem))

/-- Structs with the given fields. -/
def structType (fields : List Field) : Compile Ty :=
  build (Universe.struct packageHome (fields.map fun f => ⟨f.name, typeRef f.type, f.embedded⟩))

/-- Interfaces with the given methods. -/
def interfaceType (methods : List Method) : Compile Ty :=
  build (Universe.interface packageHome (methods.map fun m => ⟨m.name, typeRef m.type⟩))

/-- The function type of a signature, with a receiver or without. -/
def signatureType (recv : Option Ty) (params results : List Ty) (variadic : Bool) : Compile Ty :=
  build (Universe.func packageHome (recv.map typeRef) (params.map typeRef) (results.map typeRef)
    variadic)

/-- The function type of a heading. -/
def headingType (recv : Option Ty) (h : Heading) : Compile Ty :=
  signatureType recv h.paramTypes h.resultTypes h.variadic

/-- A new named type that stands for nothing yet. -/
def newNamedType (name : Name) : Compile Ty :=
  build (Universe.named packageHome name none)

/-- Type of a parameter that is written with the type `ty`. -/
def paramType (collects : Bool) (ty : Ty) : Compile Ty :=
  if collects then sliceType ty else pure ty

/-- The last parameter of a variadic function is a slice. -/
theorem paramType_variadic (ty : Ty) : paramType true ty = sliceType ty := rfl

/-- Signature of a function type, which is needed for a call. -/
def calledSignature (ty : Ty) : Compile Signature := do
  match (← types).signature? ty with
  | some s => return s
  | none => fail (.notCallable ty)

end Compile

end ScriptCore
