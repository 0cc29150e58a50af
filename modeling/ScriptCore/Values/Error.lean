import ScriptCore.Syntax.Basic

/-!
# Run-time errors
-/

namespace ScriptCore

/-- Why a computation fails. -/
inductive EvalError where
  | indexOutOfRange (index : Int) (len : Nat)
  | nilMapStore
  | divisionByZero
  | negativeShift
  | conversion (source target : String)
  | unhashableKey (type : String)
  | callDepthExceeded (limit : Nat)
  | nilFuncCall
  | host (text : String)
  | custom (text : String)
deriving Repr, DecidableEq

/-- Wording of an error. -/
def EvalError.message : EvalError → String
  | indexOutOfRange index len =>
    "index out of range: " ++ toString index
      ++ (if len = 0 then ", slice is empty" else " not in 0..." ++ toString (len - 1))
  | nilMapStore => "assignment to entry in nil map"
  | divisionByZero => "integer divide by zero"
  | negativeShift => "negative shift amount"
  | conversion source target => "cannot convert " ++ source ++ " to " ++ target
  | unhashableKey type => "hash of unhashable type " ++ type
  | callDepthExceeded limit => "maximum call depth of " ++ toString limit ++ " exceeded"
  | nilFuncCall => "call of nil function"
  | host text | custom text => text

/-- An operator that is not defined on the values it met. -/
def EvalError.invalidOperation (op : BinaryOp) (left right : String) : EvalError :=
  .custom ("invalid operation: " ++ left ++ " " ++ op.symbol ++ " " ++ right)

end ScriptCore
