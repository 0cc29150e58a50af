import ScriptCore.Declaration.Scope
import ScriptCore.Registers.Expr
import ScriptCore.Types.Error

/-!
# Compile-time errors

An error says what is wrong and, where known, at which span.  The innermost span wins: a span is
attached only to an error that has none.

Main statement: `at_at`, attaching a second span changes nothing.
-/

namespace ScriptCore

/-- What is wrong with a program. -/
inductive Fault where
  | unsupportedCategory (op : String) (category : Category) (type : Ty)
  | unsupported (what : String)
  | undefined (name : String)
  | notAssignable (source target : String)
  | mismatchedTypes (op left right : String)
  | invalidOperation (op type : String)
  | constantOverflow (value type : String)
  | truncated (value : String) (type : Ty)
  | divisionByZero
  | argCount (name : String) (want have' : Nat)
  | valueCount (want have' : Nat)
  | notCallable (type : Ty)
  | notAType (name : String)
  | notAnExpression (name : String)
  | notConstant (name : String)
  | nonBoolCondition (type : Ty)
  | branchOutsideLoop (keyword : String)
  | untypedNil
  | cannotAssign (what : String)
  | ordering (error : SortError)
  | typing (error : TypeError)
  | lowering (error : Registers.CodeError)
deriving Repr, DecidableEq

/-- Wording of a fault. -/
def Fault.message : Fault → String
  | unsupportedCategory op category type =>
    op ++ ": unsupported category " ++ category.text ++ " of type " ++ type.text
  | unsupported what => "unsupported: " ++ what
  | undefined name => "undefined: " ++ name
  | notAssignable source target => "cannot use " ++ source ++ " as " ++ target ++ " value"
  | mismatchedTypes op left right =>
    "invalid operation: " ++ op ++ " (mismatched types " ++ left ++ " and " ++ right ++ ")"
  | invalidOperation op type => "invalid operation: operator " ++ op ++ " not defined on " ++ type
  | constantOverflow value type => "constant " ++ value ++ " overflows " ++ type
  | truncated value type => "constant " ++ value ++ " truncated to " ++ type.text
  | divisionByZero => "division by zero"
  | argCount name want have' =>
    "wrong argument count in call to " ++ name ++ ": have " ++ toString have' ++ ", want "
      ++ toString want
  | valueCount want have' =>
    "assignment mismatch: " ++ toString want ++ " variables but " ++ toString have' ++ " values"
  | notCallable type => "cannot call non-function (type " ++ type.text ++ ")"
  | notAType name => name ++ " is not a type"
  | notAnExpression name => name ++ " is not an expression"
  | notConstant name => name ++ " is not constant"
  | nonBoolCondition type => "non-boolean condition of type " ++ type.text
  | branchOutsideLoop keyword => keyword ++ " is not in a loop"
  | untypedNil => "use of untyped nil"
  | cannotAssign what => "cannot assign to " ++ what
  | ordering error => error.message
  | typing error => error.message
  | lowering error => error.message

/-- A fault and where it is, if that is known. -/
structure CompileError where
  fault : Fault
  span : Option Span
deriving Repr, DecidableEq

namespace CompileError

/-- A fault whose place is not known yet. -/
def of (f : Fault) : CompileError := ⟨f, none⟩

/-- The error placed at a span, unless it has a place already. -/
def at' (e : CompileError) (s : Span) : CompileError :=
  { e with span := e.span.or (some s) }

/-- Only the first span counts. -/
theorem at_at (e : CompileError) (s s' : Span) : (e.at' s).at' s' = e.at' s := by
  cases e with
  | mk f o => cases o <;> rfl

/-- An error of loading or ordering declarations. -/
def ofSort (e : SortError) : CompileError := ⟨.ordering e, some e.span⟩

end CompileError

end ScriptCore
