import ScriptCore.Compile.Error
import ScriptCore.Number.Decimal
import ScriptCore.Text.Quoted
import ScriptCore.Types.Flags
import ScriptCore.Values.Operators

/-!
# Constants

Constants without a type are folded exactly: integers in 128 bits, with an error where a result
does not fit, and floating point numbers as doubles.  A constant is checked against a type when it
is used as a value of that type.

Main statements: `binary_add_of_fits` (a sum that fits is the sum) and `represent_int_range`
(a constant represented in an integer kind lies in its range).
-/

namespace ScriptCore

/-- A compile-time constant. -/
inductive Constant where
  | nil
  | bool (b : Bool)
  | int (i : Int)
  | float (x : Float)
  | complex (re im : Float)
  | str (s : String)
deriving Repr, Inhabited

/-- Integers of 128 bits. -/
def fits128 (i : Int) : Bool :=
  decide (-0x80000000000000000000000000000000 ≤ i) &&
    decide (i ≤ 0x7FFFFFFFFFFFFFFFFFFFFFFFFFFFFFFF)

namespace Constant

/-- The constant is nil. -/
def isNil : Constant → Bool
  | nil => true
  | _ => false

/-- Text of a constant. -/
def text : Constant → String
  | nil => "nil"
  | bool b => if b then "true" else "false"
  | int i => toString i
  | float x => Decimal.text x
  | complex re im => "(" ++ Decimal.text re ++ " + " ++ Decimal.text im ++ "i)"
  | str s => Text.quote s

/-- Name of what a constant is. -/
def kindName : Constant → String
  | nil => "nil"
  | bool _ => "untyped bool"
  | int _ => "untyped int"
  | float _ => "untyped float"
  | complex _ _ => "untyped complex"
  | str _ => "untyped string"

/-- A floating point number without fraction as an integer, if it is not too large. -/
def floatInt? (x : Float) : Option Int :=
  if Binary64.isIntegral x && x.abs < 1.7e38 then Binary64.truncate? x else none

/-- Truth value. -/
def asBool? : Constant → Option Bool
  | bool b => some b
  | _ => none

/-- Integer, also from other numbers without fraction. -/
def asInt? : Constant → Option Int
  | int i => some i
  | float x => floatInt? x
  | complex re im => if im == 0.0 then floatInt? re else none
  | _ => none

/-- Floating point number, also from real numbers of other kinds. -/
def asFloat? : Constant → Option Float
  | int i => some (Binary64.ofInt i)
  | float x => some x
  | complex re im => if im == 0.0 then some re else none
  | _ => none

/-- Complex number, also from real numbers. -/
def asComplex? : Constant → Option (Float × Float)
  | complex re im => some (re, im)
  | c => c.asFloat?.map fun re => (re, 0.0)

/-- Numbers by generality: integers, floating point numbers, complex numbers. -/
def rank? : Constant → Option Nat
  | int _ => some 0
  | float _ => some 1
  | complex _ _ => some 2
  | _ => none

/-- Type of a constant that is used as a value without having a type; nil has none. -/
def defaultType? : Constant → Option Ty
  | nil => none
  | bool _ => some (.basic .bool)
  | int _ => some (.basic .int)
  | float _ => some (.basic .float64)
  | complex _ _ => some (.basic .complex128)
  | str _ => some (.basic .string)

/-- An integer, unless it does not fit 128 bits; then `expression` overflows. -/
def checked (expression : String) (i : Int) : Except Fault Constant :=
  if fits128 i then .ok (int i) else .error (.constantOverflow expression "untyped int")

/-- Bitwise operation on 128 bits. -/
def bitwise (f : BitVec 128 → BitVec 128 → BitVec 128) (a b : Int) : Constant :=
  int (f (BitVec.ofInt 128 a) (BitVec.ofInt 128 b)).toInt

/-- Operators on integers. -/
def intBinary (op : BinaryOp) (a b : Int) : Except Fault Constant :=
  let checked (i : Int) := checked (toString a ++ " " ++ op.symbol ++ " " ++ toString b) i
  match op with
  | .add => checked (a + b)
  | .sub => checked (a - b)
  | .mul => checked (a * b)
  | .div => if b = 0 then .error .divisionByZero else checked (a.tdiv b)
  | .rem =>
    if b = 0 then .error .divisionByZero
    else do
      let _ ← checked (a.tdiv b)
      return int (a.tmod b)
  | .and => .ok (bitwise (· &&& ·) a b)
  | .or => .ok (bitwise (· ||| ·) a b)
  | .xor => .ok (bitwise (· ^^^ ·) a b)
  | .andNot => .ok (bitwise (fun x y => x &&& ~~~y) a b)
  | _ =>
    if op.isComparison then .ok (bool (op.holds (some (compare a b))))
    else .error (.invalidOperation op.symbol "untyped int")

/-- Operators on floating point numbers. -/
def floatBinary (op : BinaryOp) (a b : Float) : Except Fault Constant :=
  match op with
  | .add => .ok (float (a + b))
  | .sub => .ok (float (a - b))
  | .mul => .ok (float (a * b))
  | .div => if b == 0.0 then .error .divisionByZero else .ok (float (a / b))
  | _ =>
    if op.isComparison then
      match floatOrder a b with
      | some o => .ok (bool (op.holds (some o)))
      | none => .error (.invalidOperation op.symbol "NaN")
    else .error (.invalidOperation op.symbol "untyped float")

/-- Operators on complex numbers. -/
def complexBinary (op : BinaryOp) (ar ai br bi : Float) : Except Fault Constant :=
  let pair (z : Float × Float) := complex z.1 z.2
  match op with
  | .add => .ok (complex (ar + br) (ai + bi))
  | .sub => .ok (complex (ar - br) (ai - bi))
  | .mul => .ok (pair (complexMul ar ai br bi))
  | .div =>
    if br * br + bi * bi == 0.0 then .error .divisionByZero else .ok (pair (complexDiv ar ai br bi))
  | .eq => .ok (bool (ar == br && ai == bi))
  | .notEq => .ok (bool (ar != br || ai != bi))
  | _ => .error (.invalidOperation op.symbol "untyped complex")

/-- Shifts: by a count that is not negative; a left shift by 127 or more always overflows. -/
def shift (op : BinaryOp) (x y : Constant) : Except Fault Constant :=
  match x.asInt?, y.asInt? with
  | some a, some s =>
    if s < 0 ∨ UInt32.size ≤ s then .error (.invalidOperation op.symbol "negative shift count")
    else if op = .shl then
      if s < 127 ∧ fits128 (a <<< s.toNat) then .ok (int (a <<< s.toNat))
      else .error (.constantOverflow (toString a ++ " << " ++ toString s) "untyped int")
    else .ok (int (a >>> min s.toNat 127))
  | _, _ => .error (.invalidOperation op.symbol x.kindName)

/-- A binary operator on two constants; numbers are promoted to the more general of the two. -/
def binary (op : BinaryOp) (x y : Constant) : Except Fault Constant :=
  let mismatch : Fault := .mismatchedTypes op.symbol x.kindName y.kindName
  if op.isShift then shift op x y
  else
    match x, y with
    | bool a, bool b =>
      match op with
      | .logAnd => .ok (bool (a && b))
      | .logOr => .ok (bool (a || b))
      | .eq => .ok (bool (a == b))
      | .notEq => .ok (bool (a != b))
      | _ => .error (.invalidOperation op.symbol "untyped bool")
    | str a, str b =>
      if op = .add then .ok (str (a ++ b))
      else if op.isComparison then .ok (bool (op.holds (some (compare a b))))
      else .error (.invalidOperation op.symbol "untyped string")
    | nil, nil => .error (.invalidOperation op.symbol "nil")
    | int a, int b => intBinary op a b
    | x, y =>
      match x.rank?, y.rank? with
      | some m, some n =>
        if m < 2 ∧ n < 2 then
          match x.asFloat?, y.asFloat? with
          | some a, some b => floatBinary op a b
          | _, _ => .error mismatch
        else
          match x.asComplex?, y.asComplex? with
          | some a, some b => complexBinary op a.1 a.2 b.1 b.2
          | _, _ => .error mismatch
      | _, _ => .error mismatch

/-- A unary operator on a constant. -/
def unary (op : UnaryOp) (x : Constant) : Except Fault Constant :=
  match op, x with
  | .plus, int i => .ok (int i)
  | .plus, float x => .ok (float x)
  | .plus, complex re im => .ok (complex re im)
  | .neg, int i => checked ("-" ++ toString i) (-i)
  | .neg, float x => .ok (float (-x))
  | .neg, complex re im => .ok (complex (-re) (-im))
  | .not, bool b => .ok (bool (!b))
  | .bitNot, int i => .ok (int (-i - 1))
  | op, x => .error (.invalidOperation op.symbol x.kindName)

/-- A sum that fits is the sum. -/
theorem binary_add_of_fits {a b : Int} (h : fits128 (a + b) = true) :
    binary .add (int a) (int b) = .ok (int (a + b)) := by
  simp [binary, BinaryOp.isShift, intBinary, checked, h]

end Constant

/-- Least and greatest number of an integer kind. -/
def Kind.range (k : Kind) : Int × Int :=
  match k with
  | .int8 => (-0x80, 0x7F)
  | .int16 => (-0x8000, 0x7FFF)
  | .int32 => (-0x80000000, 0x7FFFFFFF)
  | .uint8 => (0, 0xFF)
  | .uint16 => (0, 0xFFFF)
  | .uint32 => (0, 0xFFFFFFFF)
  | .uint | .uint64 | .uintptr => (0, 0xFFFFFFFFFFFFFFFF)
  | _ => (-0x8000000000000000, 0x7FFFFFFFFFFFFFFF)

namespace Constant

/-- The constant as a constant of an integer kind. -/
def representInt (c : Constant) (k : Kind) (ty : Ty) : Except Fault Constant :=
  match c.asInt? with
  | some i =>
    if i < k.range.1 ∨ k.range.2 < i then .error (.constantOverflow c.text ty.text)
    else .ok (int i)
  | none =>
    if c.rank?.isSome then .error (.truncated c.text ty)
    else .error (.notAssignable c.text ty.text)

/-- A constant represented in an integer kind lies in its range. -/
theorem represent_int_range {c : Constant} {k : Kind} {ty : Ty} {d : Constant}
    (h : c.representInt k ty = .ok d) : ∃ i, d = int i ∧ k.range.1 ≤ i ∧ i ≤ k.range.2 := by
  unfold representInt at h
  split at h
  · split at h
    · cases h
    · cases h
      exact ⟨_, rfl, by omega, by omega⟩
  · split at h <;> cases h

/-- The constant as a constant of a type: in range, and rounded to the precision of the type. -/
def represent (t : TypeTable) (c : Constant) (ty : Ty) : Except Fault Constant :=
  let k := t.kind ty
  let refused : Except Fault Constant := .error (.notAssignable c.text ty.text)
  match k.category with
  | .bool => match c with | bool _ => .ok c | _ => refused
  | .int | .uint => c.representInt k ty
  | .float =>
    match c.asFloat? with
    | some x =>
      let x := narrowFloat k x
      if x.isInf then .error (.constantOverflow c.text ty.text) else .ok (float x)
    | none => if c.rank?.isSome then .error (.truncated c.text ty) else refused
  | .complex =>
    match c.asComplex? with
    | some (re, im) =>
      let re := narrowFloat k re
      let im := narrowFloat k im
      if re.isInf || im.isInf then .error (.constantOverflow c.text ty.text)
      else .ok (complex re im)
    | none => refused
  | .string => match c with | str _ => .ok c | _ => refused
  | .func | .unknown =>
    match c with
    | nil =>
      if [Kind.slice, .map, .pointer, .interface, .func].contains k then .ok nil else refused
    | c => if t.isInterface ty then .ok c else refused

/-- The value of a constant in its own representation. -/
def value : Constant → Value
  | nil => .nil
  | bool b => .bool b
  | int i => .int (Int64.ofInt i)
  | float x => .float x
  | complex re im => .complex re im
  | str s => .str s

/-- The value of a constant that is used as a value of a type. -/
def toValue (t : TypeTable) (c : Constant) (ty : Ty) : Except Fault Value := do
  match t.category ty, ← c.represent t ty with
  | .uint, int i => return .uint (UInt64.ofInt i)
  | _, c => return c.value

end Constant

end ScriptCore
