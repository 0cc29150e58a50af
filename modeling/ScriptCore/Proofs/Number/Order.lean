import Mathlib
import ScriptCore.Proofs.Number.Single

/-!
# The order of doubles

Doubles other than NaN are ordered as the integers that their bits are, read as a magnitude and a
sign: a larger exponent field outweighs every fraction, and for equal exponents the fractions
decide.  Both zeros have the same place in this order.

Main statements: `lt_iff` and `beq_iff`.
-/

namespace ScriptCore.Binary64

open Float.Model

/-! ### Places of unpacked numbers -/

/-- A magnitude with a sign. -/
def signed : UnpackedFloat.Sign → Int → Int
  | .negative, n => -n
  | .positive, n => n

/-- Place of an unpacked number in the order. -/
def unpackedPlace : UnpackedFloat → Int
  | .notANumber => 0
  | .zero _ => 0
  | .finite s m e _ => signed s (m + (e + 1074) * 2 ^ 52)
  | .infinity s => signed s (2047 * 2 ^ 52)

/-- The parts of a finite number are those of a double: all 53 digits are used, unless the exponent
is the least one. -/
def IsRegular : UnpackedFloat → Prop
  | .finite _ m e _ => m < 2 ^ 53 ∧ (2 ^ 52 ≤ m ∨ e = -1074) ∧ -1074 ≤ e ∧ e < 972
  | _ => True

/-- Finite magnitudes are compared by their exponents and then by their digits. -/
theorem compare_magnitude {m n : Nat} {e f : Int} (hm : m < 2 ^ 53) (hn : n < 2 ^ 53)
    (hm' : 2 ^ 52 ≤ m ∨ e = -1074) (hn' : 2 ^ 52 ≤ n ∨ f = -1074) (he : -1074 ≤ e)
    (hf : -1074 ≤ f) :
    (compare e f).then (compare m n) =
      compare (m + (e + 1074) * 2 ^ 52 : Int) (n + (f + 1074) * 2 ^ 52) := by
  rcases lt_trichotomy e f with h | rfl | h
  · rw [compare_lt_iff_lt.2 h]
    exact (compare_lt_iff_lt.2 (by omega)).symm
  · rw [compare_eq_iff_eq.2 rfl]
    change compare m n = _
    rcases lt_trichotomy m n with h | rfl | h
    · rw [compare_lt_iff_lt.2 h]
      exact (compare_lt_iff_lt.2 (by omega)).symm
    · rw [compare_eq_iff_eq.2 rfl, compare_eq_iff_eq.2 rfl]
    · rw [compare_gt_iff_gt.2 h]
      exact (compare_gt_iff_gt.2 (by omega)).symm
  · rw [compare_gt_iff_gt.2 h]
    exact (compare_gt_iff_gt.2 (by omega)).symm

/-- Negation turns the order round. -/
theorem compare_neg (a b : Int) : compare (-a) (-b) = (compare a b).swap := by
  rcases lt_trichotomy a b with h | rfl | h
  · rw [compare_lt_iff_lt.2 h]
    exact compare_gt_iff_gt.2 (by omega)
  · rw [compare_eq_iff_eq.2 rfl, compare_eq_iff_eq.2 rfl]
    rfl
  · rw [compare_gt_iff_gt.2 h]
    exact compare_lt_iff_lt.2 (by omega)

/-- Numbers with the same sign are ordered by their magnitudes, others by their signs. -/
theorem compare_signed (s t : UnpackedFloat.Sign) {a b : Int} (ha : 0 < a) (hb : 0 < b) :
    compare (signed s a) (signed t b) =
      match s, t with
      | .negative, .negative => (compare a b).swap
      | .negative, .positive => .lt
      | .positive, .negative => .gt
      | .positive, .positive => compare a b := by
  cases s <;> cases t
  case negative.negative => exact compare_neg a b
  case negative.positive => exact compare_lt_iff_lt.2 (by simp only [signed]; omega)
  case positive.negative => exact compare_gt_iff_gt.2 (by simp only [signed]; omega)
  case positive.positive => rfl

/-- Zero is between the negative and the positive numbers. -/
theorem compare_zero_signed (t : UnpackedFloat.Sign) {b : Int} (hb : 0 < b) :
    compare 0 (signed t b) = match t with
      | .negative => .gt
      | .positive => .lt := by
  cases t
  case negative => exact compare_gt_iff_gt.2 (by simp only [signed]; omega)
  case positive => exact compare_lt_iff_lt.2 hb

/-- **Unpacked numbers are compared by their places.** -/
theorem compare_unpacked {u v : UnpackedFloat} (hu : IsRegular u) (hv : IsRegular v)
    (hnu : u ≠ .notANumber) (hnv : v ≠ .notANumber) :
    u.compare v = some (compare (unpackedPlace u) (unpackedPlace v)) := by
  cases u with
  | notANumber => exact absurd rfl hnu
  | zero s =>
      cases v with
      | notANumber => exact absurd rfl hnv
      | zero t => rfl
      | infinity t =>
          rw [unpackedPlace, unpackedPlace, compare_zero_signed t (by decide)]
          cases t <;> rfl
      | finite t n f hn =>
          obtain ⟨-, -, hf, -⟩ := hv
          rw [unpackedPlace, unpackedPlace, compare_zero_signed t (by omega)]
          cases t <;> rfl
  | infinity s =>
      cases v with
      | notANumber => exact absurd rfl hnv
      | zero t => cases s <;> rfl
      | infinity t => cases s <;> cases t <;> rfl
      | finite t n f hn =>
          obtain ⟨hn', -, hf, hf'⟩ := hv
          rw [unpackedPlace, unpackedPlace, compare_signed s t (by decide) (by omega),
            compare_gt_iff_gt.2 (show (n + (f + 1074) * 2 ^ 52 : Int) < 2047 * 2 ^ 52 by omega)]
          cases s <;> cases t <;> rfl
  | finite s m e hm =>
      obtain ⟨hm', hnormal, he, he'⟩ := hu
      cases v with
      | notANumber => exact absurd rfl hnv
      | zero t =>
          rw [unpackedPlace, unpackedPlace,
            show compare (signed s (m + (e + 1074) * 2 ^ 52)) 0 = (compare 0 (signed s _)).swap from
              Std.OrientedCmp.eq_swap,
            compare_zero_signed s (by omega)]
          cases s <;> rfl
      | infinity t =>
          rw [unpackedPlace, unpackedPlace, compare_signed s t (by omega) (by decide),
            compare_lt_iff_lt.2 (show (m + (e + 1074) * 2 ^ 52 : Int) < 2047 * 2 ^ 52 by omega)]
          cases s <;> cases t <;> rfl
      | finite t n f hn =>
          obtain ⟨hn', hnormal', hf, -⟩ := hv
          rw [unpackedPlace, unpackedPlace, compare_signed s t (by omega) (by omega),
            ← compare_magnitude hm' hn' hnormal hnormal' he hf]
          cases s <;> cases t <;> rfl

/-! ### Places of doubles -/

section Bits

variable (b : BitVec Format.binary64.numBits)

/-- The sign field. -/
theorem ofBitVec_unpackSign : UnpackedFloat.Sign.ofBitVec (UnpackedFloat.unpackSign b) =
    if signBit ≤ b.toNat then .negative else .positive := by
  have hlt : b.toNat < 2 ^ 64 := b.isLt
  have hsign : (UnpackedFloat.unpackSign b).toNat = b.toNat / signBit % 2 := by
    simp [UnpackedFloat.unpackSign, BitVec.extractLsb, BitVec.extractLsb', signBit,
      Nat.shiftRight_eq_div_pow]
  have hpositive : UnpackedFloat.unpackSign b = 0#1 ↔ ¬ signBit ≤ b.toNat := by
    rw [← BitVec.toNat_inj, hsign]
    simp only [signBit, BitVec.toNat_ofNat]
    omega
  simp only [UnpackedFloat.Sign.ofBitVec, hpositive, ite_not]

/-- The magnitude is read off the exponent and the fraction. -/
theorem magnitude_eq : b.toNat % signBit =
    (UnpackedFloat.unpackExponent b).toNat * leadingBit +
      (UnpackedFloat.unpackMantissa b).toNat := by
  rw [toNat_unpackExponent, toNat_unpackMantissa]
  simp only [signBit, leadingBit]
  omega

/-- The parts of a double that is not a NaN are regular, and its place is its magnitude with its
sign. -/
theorem unpack_place (hnan : UnpackedFloat.unpack .binary64 b ≠ .notANumber) :
    IsRegular (UnpackedFloat.unpack .binary64 b) ∧
      unpackedPlace (UnpackedFloat.unpack .binary64 b) =
        signed (.ofBitVec (UnpackedFloat.unpackSign b)) (b.toNat % signBit : Nat) := by
  have hmantissa : (UnpackedFloat.unpackMantissa b).toNat < 2 ^ 52 :=
    (UnpackedFloat.unpackMantissa b).isLt
  have hexponent : (UnpackedFloat.unpackExponent b).toNat < 2 ^ 11 :=
    (UnpackedFloat.unpackExponent b).isLt
  have hbias : ((Format.binary64.exponentBias : Nat) : Int) = 1023 := rfl
  rw [magnitude_eq, UnpackedFloat.unpack] at *
  dsimp only at hnan ⊢
  split
  · rename_i hinf
    split
    · rename_i hzero
      rw [hinf, hzero]
      exact ⟨trivial, rfl⟩
    · rename_i hzero
      rw [if_pos hinf, if_neg hzero] at hnan
      exact absurd rfl hnan
  · rename_i hfinite
    split
    · rename_i hleast
      have hfield : (UnpackedFloat.unpackExponent b).toNat = 0 := by rw [hleast]; rfl
      split
      · rename_i hzero
        have hfraction : (UnpackedFloat.unpackMantissa b).toNat = 0 := by rw [hzero]; rfl
        rw [hfield, hfraction, Nat.zero_mul, unpackedPlace]
        refine ⟨trivial, ?_⟩
        cases UnpackedFloat.Sign.ofBitVec (UnpackedFloat.unpackSign b) <;> rfl
      · -- subnormal: the exponent is the least one, and the magnitude is the fraction
        have he : ((UnpackedFloat.unpackExponent b).toNat : Int) -
            (Format.binary64.exponentBias + (52 : Nat)) + 1 = -1074 := by
          rw [hfield, hbias]
          rfl
        refine ⟨⟨by omega, .inr he, by omega, by omega⟩, congrArg (signed _) ?_⟩
        rw [he, hfield]
        omega
    · -- normal: the leading digit counts as one more in the exponent field
      rename_i hleast
      have hsmall : (UnpackedFloat.unpackExponent b).toNat ≠ 2047 :=
        fun h0 => hfinite (BitVec.eq_of_toNat_eq h0)
      have hlarge : (UnpackedFloat.unpackExponent b).toNat ≠ 0 :=
        fun h0 => hleast (BitVec.eq_of_toNat_eq h0)
      have he : ((UnpackedFloat.unpackExponent b).toNat : Int) -
          (Format.binary64.exponentBias + (52 : Nat)) =
            (UnpackedFloat.unpackExponent b).toNat - 1075 := by
        rw [hbias]
        omega
      have happend : (1#1 ++ UnpackedFloat.unpackMantissa b).toNat =
          2 ^ 52 + (UnpackedFloat.unpackMantissa b).toNat := by
        rw [BitVec.toNat_append, ← Nat.shiftLeft_add_eq_or_of_lt hmantissa]
        rfl
      refine ⟨⟨by omega, .inl (by omega), by omega, by omega⟩, congrArg (signed _) ?_⟩
      simp only [leadingBit]
      omega

end Bits

/-! ### Comparison of doubles -/

/-- Place of a double in the order: the magnitude in its bits with their sign. -/
def place (x : Float) : Int :=
  if signBit ≤ x.toBits.toNat then -(x.toBits.toNat % signBit : Nat)
  else (x.toBits.toNat % signBit : Nat)

variable {x y : Float}

/-- A NaN is unpacked to one. -/
theorem isNaN_iff : x.isNaN = true ↔ x.toModel.unpack = .notANumber :=
  UnpackedFloat.isNaN_iff

/-- What is not a NaN is not unpacked to one. -/
theorem unpack_ne (hx : x.isNaN = false) : x.toModel.unpack ≠ .notANumber :=
  fun h => Bool.false_ne_true (hx.symm.trans (isNaN_iff.2 h))

/-- **Doubles that are not NaN are compared by their places.** -/
theorem compare_place (hx : x.isNaN = false) (hy : y.isNaN = false) :
    x.toModel.unpack.compare y.toModel.unpack = some (compare (place x) (place y)) := by
  have hplace {x : Float} (hx : x.isNaN = false) :
      IsRegular x.toModel.unpack ∧ unpackedPlace x.toModel.unpack = place x := by
    obtain ⟨hregular, heq⟩ := unpack_place x.toModel.toBits.toBitVec (unpack_ne hx)
    refine ⟨hregular, heq.trans ?_⟩
    rw [ofBitVec_unpackSign, place]
    change signed (if signBit ≤ x.toBits.toNat then _ else _) _ = _
    split <;> rfl
  obtain ⟨hregular, hxplace⟩ := hplace hx
  obtain ⟨hregular', hyplace⟩ := hplace hy
  rw [compare_unpacked hregular hregular' (unpack_ne hx) (unpack_ne hy), hxplace, hyplace]

/-- A double is less than another one if its place is. -/
theorem lt_iff (hx : x.isNaN = false) (hy : y.isNaN = false) : x < y ↔ place x < place y := by
  have hlt : x < y ↔
      (x.toModel.unpack.compare y.toModel.unpack == some Ordering.lt) = true := decide_eq_true_iff
  rw [hlt, compare_place hx hy, beq_iff_eq, Option.some_inj, compare_lt_iff_lt]

/-- Doubles are equal if their places are. -/
theorem beq_iff (hx : x.isNaN = false) (hy : y.isNaN = false) :
    (x == y) = true ↔ place x = place y := by
  have hbeq : (x == y) = (x.toModel.unpack.compare y.toModel.unpack == some Ordering.eq) := rfl
  rw [hbeq, compare_place hx hy, beq_iff_eq, Option.some_inj, compare_eq_iff_eq]

/-- A NaN is equal to nothing. -/
theorem beq_eq_false_of_isNaN (h : x.isNaN = true ∨ y.isNaN = true) : (x == y) = false := by
  have hbeq : (x == y) = (x.toModel.unpack.compare y.toModel.unpack == some Ordering.eq) := rfl
  rw [hbeq]
  rcases h with h | h <;> rw [isNaN_iff.1 h]
  · rfl
  · cases x.toModel.unpack <;> rfl

end ScriptCore.Binary64
