/-!
# Double precision numbers as signed multiples of powers of two

A finite double is `± m · 2 ^ q`.  This file takes a double apart, puts the double nearest to a
given multiple of a power of two together again, and derives from these the conversions that need
exact rounding:

* `ofInt` rounds an integer of any size to the nearest double, ties to even;
* `truncate?` is the integer part of a finite double, `saturate` clamps it to a range;
* `toSingle` rounds to single precision and back.

Main statements: `roundTo_of_fits` (nothing is lost when the digits fit) and `saturate_mem`
(a saturated value lies in its range).
-/

namespace ScriptCore.Binary64

/-- The parts of a double; the magnitude of a finite one is `mantissa * 2 ^ exponent`. -/
inductive Parts where
  | nan
  | infinite (negative : Bool)
  | finite (negative : Bool) (mantissa : Nat) (exponent : Int)
deriving Repr, DecidableEq

/-- The weight of the sign bit. -/
def signBit : Nat := 0x8000000000000000

/-- The weight of the leading digit of a normal double, which is not stored. -/
def leadingBit : Nat := 0x10000000000000

/-- Split the sign, exponent and fraction fields of the 64 bits. -/
def partsOfBits (bits : UInt64) : Parts :=
  let n := bits.toNat
  let negative := decide (signBit ≤ n)
  let field := n / leadingBit % 2048
  let fraction := n % leadingBit
  if field = 2047 then
    if fraction = 0 then .infinite negative else .nan
  else if field = 0 then .finite negative fraction (-1074)
  else .finite negative (leadingBit + fraction) (Int.ofNat field - 1075)

/-- The parts of a double. -/
def parts (x : Float) : Parts :=
  partsOfBits x.toBits

/-- Quotient by `2 ^ shift` rounded to the nearest integer, a half going to the even one. -/
def shiftRound (m shift : Nat) : Nat :=
  let unit := 1 <<< shift
  let q := m / unit
  let r := 2 * (m % unit)
  if r < unit then q
  else if unit < r then q + 1
  else q + q % 2

/-- `m * 2 ^ e` rounded to at most `digits` binary digits with an exponent of at least `least`. -/
def roundTo (digits : Nat) (least : Int) (m : Nat) (e : Int) : Nat × Int :=
  let excess : Int := Int.ofNat (Nat.log2 m + 1) - Int.ofNat digits
  let shift := (max excess (least - e)).toNat
  if m = 0 ∨ shift = 0 then (m, e) else (shiftRound m shift, e + Int.ofNat shift)

/-- Nothing is rounded when the digits fit and the exponent is in range. -/
theorem roundTo_of_fits {digits m : Nat} {least e : Int}
    (hm : Nat.log2 m < digits) (he : least ≤ e) : roundTo digits least m e = (m, e) := by
  have hs : (max (Int.ofNat (Nat.log2 m + 1) - Int.ofNat digits) (least - e)).toNat = 0 := by
    simp only [Int.ofNat_eq_natCast]
    omega
  simp only [roundTo, hs]
  simp

/-- The 64 bits of `± m * 2 ^ e` where the number is a double or too large for one. -/
def bitsOfExact (negative : Bool) (m : Nat) (e : Int) : UInt64 :=
  let sign := if negative then signBit else 0
  let top := e + Int.ofNat (Nat.log2 m)
  if m = 0 then UInt64.ofNat sign
  else if 1023 < top then UInt64.ofNat (sign + 2047 * leadingBit)
  else if top < -1022 then
    let fraction :=
      if 0 ≤ e + 1074 then m <<< (e + 1074).toNat else m >>> (-(e + 1074)).toNat
    UInt64.ofNat (sign + fraction)
  else
    let fraction :=
      if Nat.log2 m ≤ 52 then m <<< (52 - Nat.log2 m) else m >>> (Nat.log2 m - 52)
    UInt64.ofNat (sign + (top + 1023).toNat * leadingBit + (fraction - leadingBit))

/-- The double nearest to `± m * 2 ^ e`, ties to even. -/
def nearest (negative : Bool) (m : Nat) (e : Int) : Float :=
  let r := roundTo 53 (-1074) m e
  Float.ofBits (bitsOfExact negative r.1 r.2)

/-- The double nearest to an integer, ties to even. -/
def ofInt (n : Int) : Float :=
  nearest (n < 0) n.natAbs 0

/-- The number `± m * 2 ^ e` without its fraction. -/
def truncateParts (negative : Bool) (m : Nat) (e : Int) : Int :=
  let magnitude := if 0 ≤ e then m <<< e.toNat else m >>> (-e).toNat
  if negative then -Int.ofNat magnitude else Int.ofNat magnitude

/-- Integer part of a finite double. -/
def truncate? (x : Float) : Option Int :=
  match parts x with
  | .finite negative m e => some (truncateParts negative m e)
  | _ => none

/-- A finite double without fraction. -/
def isIntegral (x : Float) : Bool :=
  match parts x with
  | .finite _ m e => decide (0 ≤ e) || decide (m % (1 <<< (-e).toNat) = 0)
  | _ => false

/-- Integer part clamped to `[low, high]`; zero for NaN. -/
def saturate (low high : Int) (x : Float) : Int :=
  match parts x with
  | .nan => max low (min high 0)
  | .infinite negative => if negative then min low high else max low high
  | .finite negative m e => max low (min high (truncateParts negative m e))

/-- A saturated value lies in its range. -/
theorem saturate_mem {low high : Int} (h : low ≤ high) (x : Float) :
    low ≤ saturate low high x ∧ saturate low high x ≤ high := by
  unfold saturate
  split
  · omega
  · split <;> omega
  · omega

/-- Rounded to single precision, ties to even, and widened again; from `2 ^ 128` on infinite. -/
def toSingle (x : Float) : Float :=
  match parts x with
  | .finite negative m e =>
    let r := roundTo 24 (-149) m e
    if r.1 ≠ 0 ∧ 127 < r.2 + Int.ofNat (Nat.log2 r.1) then
      Float.ofBits (bitsOfExact negative 1 1024)
    else Float.ofBits (bitsOfExact negative r.1 r.2)
  | _ => x

end ScriptCore.Binary64
