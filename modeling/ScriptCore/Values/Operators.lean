import ScriptCore.Values.Heap
import ScriptCore.Number.Binary64
import ScriptCore.Text.Utf8

/-!
# Operators and conversions on values

Integer arithmetic is computed in 64 bits, wraps, and is narrowed to the width of its kind;
division by zero and negative shift counts are errors.  Shifts by more than the width leave zero,
or minus one for negative numbers shifted to the right.

Main statements: `narrowInt_of_wide` and `narrowUint_of_wide` (64-bit kinds keep every value),
`intBinary_div_zero`.
-/

namespace ScriptCore

/-- A signed value cut to the width of its kind. -/
def narrowInt (k : Kind) (v : Int64) : Int64 :=
  match k with
  | .int8 => v.toInt8.toInt64
  | .int16 => v.toInt16.toInt64
  | .int32 => v.toInt32.toInt64
  | _ => v

/-- An unsigned value cut to the width of its kind. -/
def narrowUint (k : Kind) (v : UInt64) : UInt64 :=
  match k with
  | .uint8 => v.toUInt8.toUInt64
  | .uint16 => v.toUInt16.toUInt64
  | .uint32 => v.toUInt32.toUInt64
  | _ => v

/-- A floating point number rounded to the precision of its kind. -/
def narrowFloat (k : Kind) (x : Float) : Float :=
  match k with
  | .float32 | .complex64 => Binary64.toSingle x
  | _ => x

/-- Kinds of 64 bits keep every signed value. -/
theorem narrowInt_of_wide {k : Kind} (h : k.bits = 64) (v : Int64) : narrowInt k v = v := by
  cases k <;> first | rfl | cases h

/-- Kinds of 64 bits keep every unsigned value. -/
theorem narrowUint_of_wide {k : Kind} (h : k.bits = 64) (v : UInt64) : narrowUint k v = v := by
  cases k <;> first | rfl | cases h

/-- What a comparison says about two values whose order, if they have one, is given. -/
def BinaryOp.holds (op : BinaryOp) (order : Option Ordering) : Bool :=
  match op, order with
  | .eq, o => o == some .eq
  | .notEq, o => o != some .eq
  | _, none => false
  | .lt, some o => o == .lt
  | .ltEq, some o => o != .gt
  | .gt, some o => o == .gt
  | _, some o => o != .lt

/-- Order of two floating point numbers; there is none if one of them is not a number. -/
def floatOrder (a b : Float) : Option Ordering :=
  if a < b then some .lt
  else if b < a then some .gt
  else if a == b then some .eq
  else none

/-- Arithmetic on signed integers. -/
def intBinary (op : BinaryOp) (k : Kind) (a b : Int64) : Except EvalError Int64 :=
  let narrow (v : Int64) : Except EvalError Int64 := .ok (narrowInt k v)
  match op with
  | .add => narrow (a + b)
  | .sub => narrow (a - b)
  | .mul => narrow (a * b)
  | .div => if b = 0 then .error .divisionByZero else narrow (a / b)
  | .rem => if b = 0 then .error .divisionByZero else narrow (a % b)
  | .and => narrow (a &&& b)
  | .or => narrow (a ||| b)
  | .xor => narrow (a ^^^ b)
  | .andNot => narrow (a &&& ~~~b)
  | _ => .error (.invalidOperation op k.text k.text)

/-- Division by zero is an error at every kind. -/
theorem intBinary_div_zero (k : Kind) (a : Int64) :
    intBinary .div k a 0 = .error .divisionByZero := by
  simp [intBinary]

/-- Arithmetic on unsigned integers. -/
def uintBinary (op : BinaryOp) (k : Kind) (a b : UInt64) : Except EvalError UInt64 :=
  let narrow (v : UInt64) : Except EvalError UInt64 := .ok (narrowUint k v)
  match op with
  | .add => narrow (a + b)
  | .sub => narrow (a - b)
  | .mul => narrow (a * b)
  | .div => if b = 0 then .error .divisionByZero else narrow (a / b)
  | .rem => if b = 0 then .error .divisionByZero else narrow (a % b)
  | .and => narrow (a &&& b)
  | .or => narrow (a ||| b)
  | .xor => narrow (a ^^^ b)
  | .andNot => narrow (a &&& ~~~b)
  | _ => .error (.invalidOperation op k.text k.text)

/-- Arithmetic on floating point numbers. -/
def floatBinary (op : BinaryOp) (k : Kind) (a b : Float) : Except EvalError Float :=
  match op with
  | .add => .ok (narrowFloat k (a + b))
  | .sub => .ok (narrowFloat k (a - b))
  | .mul => .ok (narrowFloat k (a * b))
  | .div => .ok (narrowFloat k (a / b))
  | _ => .error (.invalidOperation op k.text k.text)

/-- Product of two complex numbers. -/
def complexMul (ar ai br bi : Float) : Float × Float :=
  (ar * br - ai * bi, ar * bi + ai * br)

/-- Quotient of two complex numbers. -/
def complexDiv (ar ai br bi : Float) : Float × Float :=
  let denominator := br * br + bi * bi
  ((ar * br + ai * bi) / denominator, (ai * br - ar * bi) / denominator)

/-- Arithmetic on complex numbers. -/
def complexBinary (op : BinaryOp) (k : Kind) (ar ai br bi : Float) :
    Except EvalError (Float × Float) :=
  let narrow (z : Float × Float) : Except EvalError (Float × Float) :=
    .ok (narrowFloat k z.1, narrowFloat k z.2)
  match op with
  | .add => narrow (ar + br, ai + bi)
  | .sub => narrow (ar - br, ai - bi)
  | .mul => narrow (complexMul ar ai br bi)
  | .div => narrow (complexDiv ar ai br bi)
  | _ => .error (.invalidOperation op k.text k.text)

/-- Shift count held by a value. -/
def shiftCount : Value → Except EvalError UInt64
  | .uint n => .ok n
  | .int n => if n < 0 then .error .negativeShift else .ok n.toUInt64
  | v => .error (.conversion v.typeName "shift count")

/-- Shift of a signed integer. -/
def shiftInt (op : BinaryOp) (k : Kind) (a : Int64) (n : UInt64) : Int64 :=
  narrowInt k <|
    if op = .shl then (if n < 64 then a <<< n.toInt64 else 0)
    else if n < 64 then a >>> n.toInt64
    else if a < 0 then -1 else 0

/-- Shift of an unsigned integer. -/
def shiftUint (op : BinaryOp) (k : Kind) (a n : UInt64) : UInt64 :=
  narrowUint k <|
    if 64 ≤ n then 0 else if op = .shl then a <<< n else a >>> n

/-- Comparison of two values: equality of all values, order of numbers and strings. -/
def compareValues (op : BinaryOp) (a b : Value) : Except EvalError Bool :=
  match op with
  | .eq => .ok (a.same b)
  | .notEq => .ok (!a.same b)
  | _ =>
    match a, b with
    | .int x, .int y => .ok (op.holds (some (compare x y)))
    | .uint x, .uint y => .ok (op.holds (some (compare x y)))
    | .float x, .float y => .ok (op.holds (floatOrder x y))
    | .str x, .str y => .ok (op.holds (some (compare x y)))
    | _, _ => .error (.invalidOperation op a.typeName b.typeName)

/-- A binary operator on values of the kind `k`. -/
def binaryValues (op : BinaryOp) (k : Kind) (a b : Value) : Except EvalError Value :=
  if op.isComparison then return .bool (← compareValues op a b)
  else if op.isShift then do
    let n ← shiftCount b
    match a with
    | .int x => return .int (shiftInt op k x n)
    | .uint x => return .uint (shiftUint op k x n)
    | _ => throw (.invalidOperation op a.typeName b.typeName)
  else
    match a, b with
    | .int x, .int y => return .int (← intBinary op k x y)
    | .uint x, .uint y => return .uint (← uintBinary op k x y)
    | .float x, .float y => return .float (← floatBinary op k x y)
    | .complex ar ai, .complex br bi => do
      let z ← complexBinary op k ar ai br bi
      return .complex z.1 z.2
    | .str x, .str y =>
      if op = .add then return .str (x ++ y)
      else throw (.invalidOperation op a.typeName b.typeName)
    | .bool x, .bool y =>
      match op with
      | .logAnd => return .bool (x && y)
      | .logOr => return .bool (x || y)
      | _ => throw (.invalidOperation op a.typeName b.typeName)
    | _, _ => throw (.invalidOperation op a.typeName b.typeName)

/-- A unary operator on a value of the kind `k`. -/
def unaryValue (op : UnaryOp) (k : Kind) (v : Value) : Except EvalError Value :=
  match op, v with
  | .plus, v => .ok v
  | .neg, .int x => .ok (.int (narrowInt k (-x)))
  | .neg, .uint x => .ok (.uint (narrowUint k (-x)))
  | .neg, .float x => .ok (.float (-x))
  | .neg, .complex re im => .ok (.complex (-re) (-im))
  | .not, .bool b => .ok (.bool (!b))
  | .bitNot, .int x => .ok (.int (narrowInt k (~~~x)))
  | .bitNot, .uint x => .ok (.uint (narrowUint k (~~~x)))
  | op, v => .error (.custom ("invalid operation: " ++ op.symbol ++ v.typeName))

/-- A value cut to the width or rounded to the precision of a kind. -/
def narrowValue (k : Kind) : Value → Value
  | .int i => .int (narrowInt k i)
  | .uint u => .uint (narrowUint k u)
  | .float x => .float (narrowFloat k x)
  | .complex re im => .complex (narrowFloat k re) (narrowFloat k im)
  | v => v

/-- The string of one code point; U+FFFD for numbers that are none. -/
def codePointText (n : Int) : String :=
  String.singleton (if n < 0 then Utf8.replacement else Utf8.scalarOr n.toNat)

/-- Bytes held by the elements of a slice, if all of them are bytes. -/
def bytesOf? : List Value → Option (List UInt8)
  | [] => some []
  | .uint u :: rest => if u < 256 then (bytesOf? rest).map (u.toUInt8 :: ·) else none
  | _ => none

/-- A floating point number as a signed integer: the integer part, clamped. -/
def saturateInt (x : Float) : Int64 :=
  Int64.ofInt (Binary64.saturate Int64.minValue.toInt Int64.maxValue.toInt x)

/-- A floating point number as an unsigned integer: the integer part, clamped. -/
def saturateUint (x : Float) : UInt64 :=
  UInt64.ofNat (Binary64.saturate 0 (Int.ofNat (UInt64.size - 1)) x).toNat

/-- Conversion of a value to a type at run time. -/
def Heap.convert (t : TypeTable) (h : Heap) (v : Value) (ty : Ty) :
    Except EvalError (Value × Heap) :=
  let k := t.kind ty
  let failure : EvalError := .conversion v.typeName ty.text
  let other : Except EvalError (Value × Heap) :=
    if t.fits v ty then .ok (v, h) else .error failure
  match k.category, v with
  | .int, .int x => .ok (.int (narrowInt k x), h)
  | .int, .uint x => .ok (.int (narrowInt k x.toInt64), h)
  | .int, .float x => .ok (.int (narrowInt k (saturateInt x)), h)
  | .uint, .int x => .ok (.uint (narrowUint k x.toUInt64), h)
  | .uint, .uint x => .ok (.uint (narrowUint k x), h)
  | .uint, .float x => .ok (.uint (narrowUint k (saturateUint x)), h)
  | .float, .int x => .ok (.float (narrowFloat k (Binary64.ofInt x.toInt)), h)
  | .float, .uint x => .ok (.float (narrowFloat k (Binary64.ofInt (Int.ofNat x.toNat))), h)
  | .float, .float x => .ok (.float (narrowFloat k x), h)
  | .complex, .complex re im => .ok (.complex (narrowFloat k re) (narrowFloat k im), h)
  | .string, .int x => .ok (.str (codePointText x.toInt), h)
  | .string, .slice s =>
    match bytesOf? (h.elems s) with
    | some bytes => .ok (.str (Utf8.decodeLossy bytes), h)
    | none => .error failure
  | .unknown, .str s =>
    if k = .slice ∧ (t.elem? ty).any fun e => t.kind e == .uint8 then
      let r := h.sliceOf ((Utf8.encode s).map fun b => .uint b.toUInt64)
      .ok (.slice r.1, r.2)
    else other
  | _, _ => other

end ScriptCore
