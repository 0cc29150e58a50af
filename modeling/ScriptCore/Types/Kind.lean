/-!
# Kinds and categories of types

The kind of a type is its shape; named types have the kind of what they stand for, and the kind
`invalid` as long as they stand for nothing.  The category groups the kinds by the way in which
their values are stored.

Main statement: `ofBasicName?_name`, every basic kind is found under its own name.
-/

namespace ScriptCore

/-- Ways in which values are stored. -/
inductive Category where
  | bool | int | uint | float | complex | string | func | unknown
deriving Repr, DecidableEq, Inhabited

/-- Name of a category. -/
def Category.text : Category → String
  | .bool => "bool" | .int => "int" | .uint => "uint" | .float => "float"
  | .complex => "complex" | .string => "string" | .func => "func" | .unknown => "unknown"

/-- Shapes of types. -/
inductive Kind where
  | invalid
  | bool
  | int | int8 | int16 | int32 | int64
  | uint | uint8 | uint16 | uint32 | uint64 | uintptr
  | float32 | float64
  | complex64 | complex128
  | string
  | slice | array | map | pointer | struct | interface | func
deriving Repr, DecidableEq, Inhabited

namespace Kind

/-- The basic kinds, in the order of their declaration. -/
def basics : List Kind :=
  [bool, int, int8, int16, int32, int64, uint, uint8, uint16, uint32, uint64, uintptr,
   float32, float64, complex64, complex128, string]

/-- All kinds. -/
def all : List Kind :=
  basics ++ [invalid, slice, array, map, pointer, struct, interface, func]

/-- Name of a kind. -/
def text : Kind → String
  | invalid => "invalid"
  | bool => "bool"
  | int => "int" | int8 => "int8" | int16 => "int16" | int32 => "int32" | int64 => "int64"
  | uint => "uint" | uint8 => "uint8" | uint16 => "uint16" | uint32 => "uint32"
  | uint64 => "uint64" | uintptr => "uintptr"
  | float32 => "float32" | float64 => "float64"
  | complex64 => "complex64" | complex128 => "complex128"
  | string => "string"
  | slice => "slice" | array => "array" | map => "map" | pointer => "ptr"
  | struct => "struct" | interface => "interface" | func => "func"

/-- The basic kind with a predeclared name; `byte` and `rune` are second names. -/
def ofBasicName? (name : String) : Option Kind :=
  if name = "byte" then some uint8
  else if name = "rune" then some int32
  else basics.find? fun k => k.text == name

/-- The category of a kind. -/
def category : Kind → Category
  | bool => .bool
  | int | int8 | int16 | int32 | int64 => .int
  | uint | uint8 | uint16 | uint32 | uint64 | uintptr => .uint
  | float32 | float64 => .float
  | complex64 | complex128 => .complex
  | string => .string
  | func => .func
  | invalid | slice | array | map | pointer | struct | interface => .unknown

/-- Predeclared types other than functions have basic kinds. -/
def isBasic (k : Kind) : Bool :=
  match k.category with
  | .bool | .int | .uint | .float | .complex | .string => true
  | .func | .unknown => false

/-- Width in bits of numbers, zero for everything else. -/
def bits : Kind → Nat
  | int8 | uint8 => 8
  | int16 | uint16 => 16
  | int32 | uint32 | float32 => 32
  | int | int64 | uint | uint64 | uintptr | float64 | complex64 => 64
  | complex128 => 128
  | _ => 0

/-- Size and alignment in bytes of the kinds whose layout does not depend on their parts. -/
def layout? : Kind → Option (UInt64 × UInt64)
  | bool | int8 | uint8 => some (1, 1)
  | int16 | uint16 => some (2, 2)
  | int32 | uint32 | float32 => some (4, 4)
  | int | int64 | uint | uint64 | uintptr | float64 | map | pointer | func => some (8, 8)
  | complex64 => some (8, 4)
  | complex128 | string | interface => some (16, 8)
  | slice => some (24, 8)
  | invalid | array | struct => none

/-- Every basic kind is found under its own name. -/
theorem ofBasicName?_name {k : Kind} (h : k.isBasic = true) : ofBasicName? k.text = some k := by
  cases k <;> first | rfl | cases h

end Kind

end ScriptCore
