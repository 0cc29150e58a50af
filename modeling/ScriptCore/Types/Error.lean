import ScriptCore.Types.Basic

/-!
# Errors of building and reading types
-/

namespace ScriptCore

/-- Why a type cannot be built, completed or read. -/
inductive TypeError where
  | notFunc (op : String) (type : Ty)
  | indexOutOfRange (op : String) (index len : Nat)
  | notComparable (type : Ty)
  | variadicNotSlice (last : Option Ty)
  | notNamed (type : Ty)
  | notMethod (type : Ty)
  | alreadyDefined (name : Name)
  | invalidRecursive (name : Name)
  | duplicateMethod (owner name : Name)
  | duplicateField (name : Name)
deriving Repr, DecidableEq

/-- Wording of an error. -/
def TypeError.message : TypeError → String
  | notFunc op type => op ++ " of non-func type " ++ type.text
  | indexOutOfRange op index len =>
    op ++ ": index " ++ toString index ++ " out of range [0, " ++ toString len ++ ")"
  | notComparable type => "invalid map key type " ++ type.text
  | variadicNotSlice last =>
    "last parameter of variadic func must be a slice, found "
      ++ last.elim "no parameters" Ty.text
  | notNamed type => type.text ++ " is not a named type"
  | notMethod type => type.text ++ " is not a method type"
  | alreadyDefined name => "underlying type of " ++ name ++ " already defined"
  | invalidRecursive name => "invalid recursive type " ++ name
  | duplicateMethod owner name => "method " ++ owner ++ "." ++ name ++ " already declared"
  | duplicateField name => "duplicate field " ++ name

end ScriptCore
