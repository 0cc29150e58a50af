import ScriptCore.Number.Decimal

/-!
# Register kinds, registers and immediates

Register code works on numbered registers.  Each holds a value of one machine kind: a boolean, an
integer of a fixed width, a floating point number or a pointer.  An immediate is a kind together
with 64 bits: integers are extended to 64 bits by their sign or by zeros, floating point numbers
are kept as doubles.
-/

namespace ScriptCore.Registers

/-- What a register can hold. -/
inductive Kind where
  | bool
  | int | int8 | int16 | int32 | int64
  | uint | uint8 | uint16 | uint32 | uint64 | uintptr
  | float32 | float64
  | ptr
deriving Repr, DecidableEq, Inhabited

namespace Kind

/-- All kinds, in the order of their declaration. -/
def all : List Kind :=
  [bool, int, int8, int16, int32, int64, uint, uint8, uint16, uint32, uint64, uintptr,
   float32, float64, ptr]

/-- Name of a kind. -/
def text : Kind → String
  | bool => "bool"
  | int => "int" | int8 => "int8" | int16 => "int16" | int32 => "int32" | int64 => "int64"
  | uint => "uint" | uint8 => "uint8" | uint16 => "uint16" | uint32 => "uint32"
  | uint64 => "uint64" | uintptr => "uintptr"
  | float32 => "float32" | float64 => "float64"
  | ptr => "ptr"

/-- Size in bytes. -/
def size : Kind → Nat
  | bool | int8 | uint8 => 1
  | int16 | uint16 => 2
  | int32 | uint32 | float32 => 4
  | int | int64 | uint | uint64 | uintptr | float64 | ptr => 8

/-- Integers with a sign. -/
def isSigned : Kind → Bool
  | int | int8 | int16 | int32 | int64 => true
  | _ => false

/-- Integers without a sign. -/
def isUnsigned : Kind → Bool
  | uint | uint8 | uint16 | uint32 | uint64 | uintptr => true
  | _ => false

/-- Integers. -/
def isInteger (k : Kind) : Bool :=
  k.isSigned || k.isUnsigned

/-- Floating point numbers. -/
def isFloat : Kind → Bool
  | float32 | float64 => true
  | _ => false

/-- Kinds with arithmetic. -/
def isNumeric (k : Kind) : Bool :=
  k.isInteger || k.isFloat

end Kind

/-- A register: its number and what it holds. -/
structure Reg where
  id : Nat
  kind : Kind
deriving Repr, DecidableEq, Inhabited

/-- Text of a register number. -/
def regText (id : Nat) : String :=
  "r" ++ toString id

/-- Text of a register with its kind. -/
def Reg.text (r : Reg) : String :=
  regText r.id ++ ":" ++ r.kind.text

/-- An immediate: bits and what they stand for. -/
structure Imm where
  bits : UInt64
  kind : Kind
deriving Repr, DecidableEq, Inhabited

namespace Imm

/-- A signed integer. -/
def int (value : Int64) (kind : Kind) : Imm := ⟨value.toUInt64, kind⟩

/-- An unsigned integer. -/
def uint (value : UInt64) (kind : Kind) : Imm := ⟨value, kind⟩

/-- A boolean. -/
def bool (value : Bool) : Imm := ⟨if value then 1 else 0, .bool⟩

/-- Zero of an integer kind. -/
def zero (kind : Kind) : Imm := ⟨0, kind⟩

/-- The value as its kind reads the bits, followed by the kind; booleans stand alone. -/
def text (c : Imm) : String :=
  match c.kind with
  | .bool => if c.bits = 0 then "false" else "true"
  | k =>
    let value :=
      if k.isSigned then toString c.bits.toInt64.toInt
      else if k.isFloat then Decimal.text (Float.ofBits c.bits)
      else toString c.bits.toNat
    value ++ ":" ++ k.text

end Imm

end ScriptCore.Registers
