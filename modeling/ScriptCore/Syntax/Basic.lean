/-!
# Spans and operators

The small parts that syntax trees are made of: source spans, names, and the unary and binary
operators with their symbols and classes.
-/

namespace ScriptCore

/-- An identifier as written in the source. -/
abbrev Name := String

/-- The name that binds nothing. -/
def blank : Name := "_"

/-- Source positions `[start, stop)`. -/
structure Span where
  start : Nat
  stop : Nat
deriving Repr, DecidableEq, Inhabited

namespace Span

/-- The span of generated code. -/
def none : Span := ⟨0, 0⟩

/-- The least span that covers both. -/
def merge (a b : Span) : Span :=
  ⟨min a.start b.start, max a.stop b.stop⟩

/-- The least span that covers all of a list, the empty span at zero for none. -/
def mergeAll : List Span → Span
  | [] => none
  | s :: rest => rest.foldl merge s

end Span

/-- Binary operators. -/
inductive BinaryOp where
  | add | sub | mul | div | rem | and | or | xor | andNot | shl | shr
  | logAnd | logOr | eq | notEq | lt | ltEq | gt | gtEq
deriving Repr, DecidableEq, Inhabited

namespace BinaryOp

/-- The operator as it is written. -/
def symbol : BinaryOp → String
  | add => "+" | sub => "-" | mul => "*" | div => "/" | rem => "%"
  | and => "&" | or => "|" | xor => "^" | andNot => "&^" | shl => "<<" | shr => ">>"
  | logAnd => "&&" | logOr => "||"
  | eq => "==" | notEq => "!=" | lt => "<" | ltEq => "<=" | gt => ">" | gtEq => ">="

/-- All operators, in the order of their declaration. -/
def all : List BinaryOp :=
  [add, sub, mul, div, rem, and, or, xor, andNot, shl, shr, logAnd, logOr,
   eq, notEq, lt, ltEq, gt, gtEq]

/-- The operator written as `s`. -/
def ofSymbol? (s : String) : Option BinaryOp :=
  all.find? fun op => op.symbol == s

/-- Comparisons give a boolean whatever they compare. -/
def isComparison : BinaryOp → Bool
  | eq | notEq | lt | ltEq | gt | gtEq => true
  | _ => false

/-- Equality and inequality, which need no order. -/
def isEquality : BinaryOp → Bool
  | eq | notEq => true
  | _ => false

/-- The operators that may leave their right operand unevaluated. -/
def isLogical : BinaryOp → Bool
  | logAnd | logOr => true
  | _ => false

/-- Shifts, whose count may be of any integer type. -/
def isShift : BinaryOp → Bool
  | shl | shr => true
  | _ => false

/-- Operators of integers that need operands of one type. -/
def isIntArith : BinaryOp → Bool
  | add | sub | mul | div | rem | and | or | xor | andNot => true
  | _ => false

/-- Operators of floating point and complex numbers. -/
def isFloatArith : BinaryOp → Bool
  | add | sub | mul | div => true
  | _ => false

end BinaryOp

/-- Unary operators. -/
inductive UnaryOp where
  | neg | plus | not | bitNot
deriving Repr, DecidableEq, Inhabited

namespace UnaryOp

/-- The operator as it is written. -/
def symbol : UnaryOp → String
  | neg => "-" | plus => "+" | not => "!" | bitNot => "^"

/-- The operator written as `s`. -/
def ofSymbol? (s : String) : Option UnaryOp :=
  [neg, plus, not, bitNot].find? fun op => op.symbol == s

end UnaryOp

end ScriptCore
