import ScriptCore.Number.Binary64

/-!
# Shortest decimal text of a double

A double prints with the fewest significant digits that read back as the same double, the nearest
such decimal if there are several, and always positionally: no exponent, and no point when there
is no fraction.

The search is exact.  A finite double `m · 2 ^ q` stands for all reals closer to it than to its
neighbours, the end points included when `m` is even.  For one digit, two digits, and so on up to
seventeen, the two decimals around the value are tried; the first that lies in the interval wins.

Main statement: `digitsAt?_within`, every decimal the search returns lies in the interval.
-/

namespace ScriptCore.Decimal

/-- A positive rational `num / den`. -/
structure Ratio where
  num : Nat
  den : Nat
deriving Repr, DecidableEq

/-- `m * 2 ^ e` as a ratio. -/
def Ratio.ofScaled (m : Nat) (e : Int) : Ratio :=
  if 0 ≤ e then ⟨m <<< e.toNat, 1⟩ else ⟨m, 1 <<< (-e).toNat⟩

/-- `d * 10 ^ k` as a ratio. -/
def Ratio.ofDecimal (d : Nat) (k : Int) : Ratio :=
  if 0 ≤ k then ⟨d * Nat.pow 10 k.toNat, 1⟩ else ⟨d, Nat.pow 10 (-k).toNat⟩

/-- Order of two ratios, by cross multiplication. -/
def Ratio.lt (a b : Ratio) : Bool :=
  decide (a.num * b.den < b.num * a.den)

/-- The reals that round to one double. -/
structure Interval where
  low : Ratio
  high : Ratio
  closed : Bool

/-- Membership of a ratio. -/
def Interval.contains (i : Interval) (r : Ratio) : Bool :=
  if i.closed then !(r.lt i.low) && !(i.high.lt r) else i.low.lt r && r.lt i.high

/-- The interval of the double `m * 2 ^ e`; below a power of two the neighbour is half as far. -/
def roundingInterval (m : Nat) (e : Int) : Interval :=
  let high := Ratio.ofScaled (2 * m + 1) (e - 1)
  let low :=
    if m = Binary64.leadingBit ∧ -1074 < e then Ratio.ofScaled (4 * m - 1) (e - 2)
    else Ratio.ofScaled (2 * m - 1) (e - 1)
  ⟨low, high, m % 2 == 0⟩

/-- Number of decimal digits of a natural number; zero has none. -/
def digitCount (n : Nat) : Nat :=
  if n = 0 then 0 else (Nat.toDigits 10 n).length

/-- Position of the leading digit: the `p` with `10 ^ (p - 1) ≤ r < 10 ^ p`. -/
def leadingPosition (r : Ratio) : Int :=
  let whole := r.num / r.den
  if whole ≠ 0 then Int.ofNat (digitCount whole)
  else
    let guess : Int := Int.ofNat (digitCount r.num) - Int.ofNat (digitCount r.den)
    if Ratio.lt r (Ratio.ofDecimal 1 guess) then guess else guess + 1

/-- `d * 10 ^ k` lies above `r` by at most as much as `c * 10 ^ k` lies below it: the midpoint of
the two decimals is not above `r`. -/
def upperNearer (r : Ratio) (c : Nat) (k : Int) : Bool :=
  !(r.lt ⟨(Ratio.ofDecimal (2 * c + 1) k).num, 2 * (Ratio.ofDecimal (2 * c + 1) k).den⟩)

/-- The largest `c` with `c * 10 ^ k` not above `r`. -/
def gridFloor (r : Ratio) (k : Int) : Nat :=
  if 0 ≤ k then r.num / (r.den * Nat.pow 10 k.toNat) else r.num * Nat.pow 10 (-k).toNat / r.den

/-- The decimal with unit `10 ^ k` in the interval that is nearest to `r`, if there is one; of two
equally near the larger. -/
def digitsAt? (i : Interval) (r : Ratio) (k : Int) : Option Nat :=
  let c := gridFloor r k
  if i.contains (Ratio.ofDecimal (c + 1) k) then
    if i.contains (Ratio.ofDecimal c k) && !upperNearer r c k then some c else some (c + 1)
  else if i.contains (Ratio.ofDecimal c k) then some c
  else none

/-- Every decimal the search returns lies in the interval. -/
theorem digitsAt?_within {i : Interval} {r : Ratio} {k : Int} {d : Nat}
    (h : digitsAt? i r k = some d) : i.contains (Ratio.ofDecimal d k) = true := by
  simp only [digitsAt?] at h
  split at h <;> split at h <;> simp_all

/-- Search with one digit more each time; seventeen digits always suffice. -/
def search (i : Interval) (r : Ratio) (position : Int) : Nat → Nat → Nat × Int
  | 0, n =>
    let k := position - Int.ofNat n
    ((digitsAt? i r k).getD 0, k)
  | fuel + 1, n =>
    let k := position - Int.ofNat n
    match digitsAt? i r k with
    | some d => (d, k)
    | none => search i r position fuel (n + 1)

/-- Digits `d` and unit exponent `k` of the shortest decimal `d * 10 ^ k` for `m * 2 ^ e`. -/
def shortest (m : Nat) (e : Int) : Nat × Int :=
  let r := Ratio.ofScaled m e
  search (roundingInterval m e) r (leadingPosition r) 17 1

/-- Drop zeros from the end of a digit list, as after a decimal point. -/
def dropTrailingZeros (digits : List Char) : List Char :=
  (digits.reverse.dropWhile (· == '0')).reverse

/-- `d * 10 ^ k` written positionally. -/
def positional (d : Nat) (k : Int) : String :=
  let digits := Nat.toDigits 10 d
  if 0 ≤ k then String.ofList (digits ++ List.replicate k.toNat '0')
  else
    let places := (-k).toNat
    let padded := List.replicate (places + 1 - digits.length) '0' ++ digits
    let whole := padded.take (padded.length - places)
    let fraction := dropTrailingZeros (padded.drop (padded.length - places))
    if fraction.isEmpty then String.ofList whole
    else String.ofList (whole ++ '.' :: fraction)

/-- Text of the magnitude of a number. -/
def magnitudeText : Binary64.Parts → String
  | .nan => "NaN"
  | .infinite _ => "inf"
  | .finite _ m e =>
    if m = 0 then "0"
    else
      let r := shortest m e
      positional r.1 r.2

/-- A sign bit is set on something other than NaN. -/
def isNegative : Binary64.Parts → Bool
  | .nan => false
  | .infinite negative => negative
  | .finite negative _ _ => negative

/-- Text of a double: `-` on negative numbers, negative zero included. -/
def text (x : Float) : String :=
  let p := Binary64.parts x
  if isNegative p then "-" ++ magnitudeText p else magnitudeText p

/-- Text with an explicit sign on everything but NaN. -/
def signedText (x : Float) : String :=
  match Binary64.parts x with
  | .nan => "NaN"
  | p => (if isNegative p then "-" else "+") ++ magnitudeText p

end ScriptCore.Decimal
