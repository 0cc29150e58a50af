import ScriptCore.Types.Table

/-!
# Flags of types

Facts about a type as a set of bits.  A named type has the flags of what it stands for besides its
own.
-/

namespace ScriptCore

/-- Facts about a type. -/
inductive Flag where
  | basic | numeric | integer | unsigned | float | complex | string
  | func | method | variadic | named | interface | container
  | comparable | nilable
deriving Repr, DecidableEq

/-- Position of a flag. -/
def Flag.bit : Flag → Nat
  | basic => 0 | numeric => 1 | integer => 2 | unsigned => 3 | float => 4 | complex => 5
  | string => 6
  | func => 8 | method => 9 | variadic => 10 | named => 11 | interface => 12 | container => 13
  | comparable => 16 | nilable => 17

/-- The set of flags as a number. -/
def Flag.bits (flags : List Flag) : Nat :=
  flags.foldl (fun n f => n ||| 1 <<< f.bit) 0

/-- Flags of a basic kind. -/
def Kind.flags (k : Kind) : List Flag :=
  match k.category with
  | .int => [.numeric, .integer]
  | .uint => [.numeric, .integer, .unsigned]
  | .float => [.numeric, .float]
  | .complex => [.numeric, .complex]
  | .string => [.string]
  | .bool | .func | .unknown => []

namespace TypeTable

/-- Flags of a type by its own shape. -/
def literalFlags (t : TypeTable) (r : TypeRef) : List Flag :=
  (match r.type with
    | .basic k => .basic :: k.flags
    | .slice _ | .map _ _ => [.container, .nilable]
    | .array _ _ => [.container]
    | .pointer _ => [.nilable]
    | .struct _ => []
    | .interface _ => [.interface, .nilable]
    | .func recv _ _ v =>
      [.func, .nilable] ++ (if recv.isSome then [.method] else [])
        ++ (if v then [.variadic] else [])
    | .named .. => [.named])
  ++ (if t.isLiteralComparable r then [.comparable] else [])

/-- Flags of a type and of what it stands for. -/
def flags (t : TypeTable) (r : TypeRef) : List Flag :=
  if t.resolve r = r then t.literalFlags r
  else t.literalFlags r ++ t.literalFlags (t.resolve r)

end TypeTable

end ScriptCore
