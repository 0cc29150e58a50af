import Mathlib
import ScriptCore.Number.Binary64

/-!
# Single precision

A double that was rounded to single precision is not changed when it is rounded again.

The bits of a double are read back as they were written unless they are those of a NaN
(`toBits_ofBits`).  A number of at most 24 digits, or a power of two, is a normal double, whose 53
digits end in zeros; these are cut off again when it is rounded.

Main statement: `toSingle_toSingle`.
-/

namespace ScriptCore.Binary64

open Float.Model

/-! ### Bits of doubles -/

section Bits

variable (b : BitVec Format.binary64.numBits)

/-- A sign is one bit. -/
theorem toBitVec_ofBitVec (s : BitVec 1) : (UnpackedFloat.Sign.ofBitVec s).toBitVec = s := by
  revert s
  decide

/-- The fields of a double, put together again. -/
theorem packComponents_unpack :
    UnpackedFloat.packComponents .binary64 (.ofBitVec (UnpackedFloat.unpackSign b))
      (UnpackedFloat.unpackExponent b) (UnpackedFloat.unpackMantissa b) = b := by
  rw [UnpackedFloat.packComponents, toBitVec_ofBitVec]
  simp only [UnpackedFloat.unpackSign, UnpackedFloat.unpackExponent,
    UnpackedFloat.unpackMantissa, BitVec.extractLsb]
  ext i hi
  grind

/-- The exponent field as a number. -/
theorem toNat_unpackExponent :
    (UnpackedFloat.unpackExponent b).toNat = b.toNat / leadingBit % 2048 := by
  simp [UnpackedFloat.unpackExponent, BitVec.extractLsb, BitVec.extractLsb', leadingBit,
    Nat.shiftRight_eq_div_pow]

/-- The fraction field as a number. -/
theorem toNat_unpackMantissa : (UnpackedFloat.unpackMantissa b).toNat = b.toNat % leadingBit := by
  simp [UnpackedFloat.unpackMantissa, BitVec.extractLsb, BitVec.extractLsb', leadingBit]

/-- Packing a finite number that is not too large. -/
theorem pack_finite (s : UnpackedFloat.Sign) {m : Nat} {e : Int} (hm : 0 < m) {biased : Nat}
    (he : (e + 1023 + 52).toNat = biased) (hbiased : biased < 2047) :
    UnpackedFloat.pack .binary64 (.finite s m e hm) =
      if m.log2 = 52 then
        UnpackedFloat.packComponents .binary64 s (BitVec.ofNat 11 biased) (BitVec.ofNat 52 m)
      else UnpackedFloat.packComponents .binary64 s 0#11 (BitVec.ofNat 52 m) := by
  have hbias : ((Format.binary64.exponentBias : Nat) : Int) = 1023 := rfl
  have hbits : ((Format.binary64.mantissaBitsWithoutImplicit : Nat) : Int) = 52 := rfl
  have hmantissa : (m.log2 + 1 = Format.binary64.mantissaBits) = (m.log2 = 52) := by
    rw [show Format.binary64.mantissaBits = 53 from rfl, Nat.add_right_cancel_iff]
  rw [UnpackedFloat.pack]
  simp only [hbias, hbits, he, hmantissa]
  rw [if_neg (show ¬ 2 ^ 11 ≤ biased + 1 by omega)]

/-- What is not a NaN is packed as it was unpacked. -/
theorem pack_unpack (h : b.toNat / leadingBit % 2048 = 2047 → b.toNat % leadingBit = 0) :
    UnpackedFloat.pack .binary64 (UnpackedFloat.unpack .binary64 b) = b := by
  have hfields := packComponents_unpack b
  have hmantissa : (UnpackedFloat.unpackMantissa b).toNat < 2 ^ 52 :=
    (UnpackedFloat.unpackMantissa b).isLt
  have hexponent : (UnpackedFloat.unpackExponent b).toNat < 2 ^ 11 :=
    (UnpackedFloat.unpackExponent b).isLt
  rw [UnpackedFloat.unpack]
  dsimp only
  split
  · rename_i hinf
    have hzero : UnpackedFloat.unpackMantissa b = 0#52 := by
      apply BitVec.eq_of_toNat_eq
      rw [toNat_unpackMantissa]
      refine h ?_
      rw [← toNat_unpackExponent, hinf]
      rfl
    rw [if_pos hzero]
    rwa [hinf, hzero] at hfields
  · split
    · rename_i hne hzero
      split
      · rename_i hmant
        rwa [hzero, hmant] at hfields
      · -- subnormal: the fraction has fewer digits than a normal mantissa
        rename_i hmant
        have hpos : (UnpackedFloat.unpackMantissa b).toNat ≠ 0 :=
          fun h0 => hmant (BitVec.eq_of_toNat_eq h0)
        have hdigits : (UnpackedFloat.unpackMantissa b).toNat.log2 ≠ 52 :=
          Nat.ne_of_lt ((Nat.log2_lt hpos).2 hmantissa)
        have hbiased : (((UnpackedFloat.unpackExponent b).toNat : Int) -
            (Format.binary64.exponentBias + (52 : Nat)) + 1 + 1023 + 52).toNat = 1 := by
          rw [hzero]
          rfl
        rw [pack_finite _ _ hbiased (by decide), if_neg hdigits, BitVec.ofNat_toNat,
          BitVec.setWidth_eq]
        rwa [hzero] at hfields
    · -- normal: the mantissa has its leading digit again
      rename_i hne hnezero
      have happend : (1#1 ++ UnpackedFloat.unpackMantissa b).toNat =
          2 ^ 52 + (UnpackedFloat.unpackMantissa b).toNat := by
        rw [BitVec.toNat_append, ← Nat.shiftLeft_add_eq_or_of_lt hmantissa]
        rfl
      have hdigits : (1#1 ++ UnpackedFloat.unpackMantissa b).toNat.log2 = 52 := by
        rw [happend]
        exact (Nat.log2_eq_iff (by omega)).2 ⟨by omega, by omega⟩
      have hsmall : (UnpackedFloat.unpackExponent b).toNat ≠ 2047 :=
        fun h0 => hne (BitVec.eq_of_toNat_eq h0)
      have hbias : ((Format.binary64.exponentBias : Nat) : Int) = 1023 := rfl
      have hbiased : (((UnpackedFloat.unpackExponent b).toNat : Int) -
          (Format.binary64.exponentBias + (52 : Nat)) + 1023 + 52).toNat =
            (UnpackedFloat.unpackExponent b).toNat := by
        rw [hbias]
        omega
      have hlow : BitVec.ofNat 52 (2 ^ 52 + (UnpackedFloat.unpackMantissa b).toNat) =
          UnpackedFloat.unpackMantissa b := by
        apply BitVec.eq_of_toNat_eq
        rw [BitVec.toNat_ofNat, Nat.add_mod_left, Nat.mod_eq_of_lt hmantissa]
      rw [pack_finite _ _ hbiased (by omega), if_pos hdigits, happend, hlow, BitVec.ofNat_toNat,
        BitVec.setWidth_eq]
      exact hfields

end Bits

/-- What is not a NaN is read back as it was written. -/
theorem toBits_ofBits (u : UInt64)
    (h : u.toNat / leadingBit % 2048 = 2047 → u.toNat % leadingBit = 0) :
    (Float.ofBits u).toBits = u := by
  apply UInt64.toBitVec_inj.1
  exact pack_unpack u.toBitVec h

/-! ### Numbers of few digits -/

/-- The number in the bits with a sign and given fields. -/
def word (negative : Bool) (exponent fraction : Nat) : Nat :=
  (if negative then signBit else 0) + exponent * leadingBit + fraction

/-- The parts of a number that is not a NaN are its fields. -/
theorem parts_word (negative : Bool) {exponent fraction : Nat} (he : exponent ≤ 2047)
    (hf : fraction < leadingBit) (hnan : exponent = 2047 → fraction = 0) :
    parts (Float.ofBits (UInt64.ofNat (word negative exponent fraction))) =
      if exponent = 2047 then .infinite negative
      else if exponent = 0 then .finite negative fraction (-1074)
      else .finite negative (leadingBit + fraction) (Int.ofNat exponent - 1075) := by
  have hn : (UInt64.ofNat (word negative exponent fraction)).toNat =
      word negative exponent fraction := by
    rw [UInt64.toNat_ofNat', Nat.mod_eq_of_lt]
    cases negative <;> simp only [word, signBit, leadingBit] at hf ⊢ <;> simp <;> omega
  have hexponent : word negative exponent fraction / leadingBit % 2048 = exponent := by
    cases negative <;> simp only [word, signBit, leadingBit] at hf ⊢ <;> simp <;> omega
  have hfraction : word negative exponent fraction % leadingBit = fraction := by
    cases negative <;> simp only [word, signBit, leadingBit] at hf ⊢ <;> simp <;> omega
  have hnegative : decide (signBit ≤ word negative exponent fraction) = negative := by
    cases negative <;> simp only [word, signBit, leadingBit] at hf ⊢ <;> simp <;> omega
  rw [parts, toBits_ofBits, partsOfBits, hn]
  · simp only [hexponent, hfraction, hnegative]
    split
    · rename_i hinf
      rw [if_pos (hnan hinf)]
    · rfl
  · rw [hn, hexponent, hfraction]
    exact hnan

/-- The fraction of a number of at most 53 digits, without the leading one. -/
def fractionOf (m : Nat) : Nat :=
  m * 2 ^ (52 - Nat.log2 m) - leadingBit

/-- Filled with zeros, a number of at most 53 digits has exactly 53. -/
theorem filled_bounds {m : Nat} (hm : m ≠ 0) (hlog : Nat.log2 m ≤ 52) :
    leadingBit ≤ m * 2 ^ (52 - Nat.log2 m) ∧ m * 2 ^ (52 - Nat.log2 m) < 2 * leadingBit := by
  obtain ⟨hlow, hhigh⟩ := (Nat.log2_eq_iff hm).1 rfl
  have hpow : 2 ^ Nat.log2 m * 2 ^ (52 - Nat.log2 m) = leadingBit := by
    rw [← Nat.pow_add, Nat.add_sub_cancel' hlog]
    rfl
  have hpos : 0 < 2 ^ (52 - Nat.log2 m) := Nat.two_pow_pos _
  constructor
  · rw [← hpow]
    exact Nat.mul_le_mul_right _ hlow
  · rw [← hpow, ← Nat.mul_assoc, ← Nat.pow_succ']
    exact Nat.mul_lt_mul_of_pos_right hhigh hpos

/-- The bits of a normal double of at most 53 digits. -/
theorem bitsOfExact_normal (negative : Bool) {m : Nat} {e : Int} (hm : m ≠ 0)
    (hlog : Nat.log2 m ≤ 52) (hlow : -1022 ≤ e + Nat.log2 m) (hhigh : e + Nat.log2 m ≤ 1023) :
    bitsOfExact negative m e =
      UInt64.ofNat (word negative (e + Nat.log2 m + 1023).toNat (fractionOf m)) := by
  rw [bitsOfExact, if_neg hm]
  simp only [Int.ofNat_eq_natCast]
  rw [if_neg (by omega), if_neg (by omega), if_pos hlog, Nat.shiftLeft_eq]
  rfl

/-- The parts of a normal double of at most 53 digits. -/
theorem parts_normal (negative : Bool) {m : Nat} {e : Int} (hm : m ≠ 0)
    (hlog : Nat.log2 m ≤ 52) (hlow : -1022 ≤ e + Nat.log2 m) (hhigh : e + Nat.log2 m ≤ 1023) :
    parts (Float.ofBits (bitsOfExact negative m e)) =
      .finite negative (m * 2 ^ (52 - Nat.log2 m)) (e + Nat.log2 m - 52) := by
  obtain ⟨hfill, hfill'⟩ := filled_bounds hm hlog
  rw [bitsOfExact_normal negative hm hlog hlow hhigh, parts_word]
  · rw [if_neg (by omega), if_neg (by omega), fractionOf, Nat.add_sub_cancel' hfill]
    congr 1
    simp only [Int.ofNat_eq_natCast]
    omega
  · omega
  · rw [fractionOf]
    omega
  · omega

/-! ### Rounding -/

/-- A multiple of the unit is not rounded. -/
theorem shiftRound_mul (q s : Nat) : shiftRound (q * 2 ^ s) s = q := by
  have hpos : 0 < 1 <<< s := by
    rw [Nat.one_shiftLeft]
    exact Nat.two_pow_pos s
  rw [shiftRound]
  simp only [← Nat.one_shiftLeft]
  rw [Nat.mul_div_cancel _ hpos, Nat.mul_mod_left, Nat.mul_zero, if_pos hpos]

/-- Rounding goes up to the next number at most. -/
theorem shiftRound_le (m s : Nat) : shiftRound m s ≤ m / 2 ^ s + 1 := by
  rw [shiftRound]
  simp only [Nat.one_shiftLeft]
  split
  · omega
  · split <;> omega

/-- What is rounded has at most the given number of digits or is the least number of more, and its
exponent is not too small. -/
theorem roundTo_bounds {digits : Nat} {least : Int} (m : Nat) (e : Int) :
    (roundTo digits least m e).1 ≤ 2 ^ digits ∧
      ((roundTo digits least m e).1 ≠ 0 → least ≤ (roundTo digits least m e).2) := by
  rw [roundTo]
  simp only [Int.ofNat_eq_natCast]
  split
  · rename_i h
    rcases h with rfl | h
    · exact ⟨Nat.zero_le _, fun h => absurd rfl h⟩
    · have hm : m < 2 ^ (Nat.log2 m + 1) := Nat.lt_log2_self
      have hle : 2 ^ (Nat.log2 m + 1) ≤ 2 ^ digits := Nat.pow_le_pow_right (by decide) (by omega)
      exact ⟨by omega, fun _ => by omega⟩
  · rename_i h
    refine ⟨?_, fun _ => by omega⟩
    generalize hs : (max (((Nat.log2 m + 1 : Nat) : Int) - digits) (least - e)).toNat = s at h ⊢
    have hm : m < 2 ^ (Nat.log2 m + 1) := Nat.lt_log2_self
    have hle : 2 ^ (Nat.log2 m + 1) ≤ 2 ^ (digits + s) :=
      Nat.pow_le_pow_right (by decide) (by omega)
    have hlt : m / 2 ^ s < 2 ^ digits := by
      rw [Nat.div_lt_iff_lt_mul (Nat.two_pow_pos s), ← Nat.pow_add]
      omega
    exact (shiftRound_le m s).trans hlt

/-- Each zero at the end is one more digit. -/
theorem log2_mul_two_pow {m : Nat} (hm : m ≠ 0) (s : Nat) :
    Nat.log2 (m * 2 ^ s) = Nat.log2 m + s := by
  obtain ⟨hlow, hhigh⟩ := (Nat.log2_eq_iff hm).1 rfl
  have hpos : 0 < 2 ^ s := Nat.two_pow_pos s
  refine (Nat.log2_eq_iff (Nat.mul_ne_zero hm hpos.ne')).2 ⟨?_, ?_⟩
  · rw [Nat.pow_add]
    exact Nat.mul_le_mul_right _ hlow
  · rw [Nat.add_right_comm, Nat.pow_add]
    exact Nat.mul_lt_mul_of_pos_right hhigh hpos

/-! ### Rounding twice -/

/-- Single precision has 24 digits and the least exponent -149. -/
theorem toSingle_finite {x : Float} {negative : Bool} {m : Nat} {e : Int}
    (hparts : parts x = .finite negative m e) {a : Nat} {f : Int}
    (hround : roundTo 24 (-149) m e = (a, f)) :
    toSingle x =
      if a ≠ 0 ∧ 127 < f + Nat.log2 a then Float.ofBits (bitsOfExact negative 1 1024)
      else Float.ofBits (bitsOfExact negative a f) := by
  rw [toSingle, hparts]
  dsimp only
  rw [hround]
  rfl

/-- An infinite number stays as it is. -/
theorem toSingle_infinite (negative : Bool) :
    toSingle (Float.ofBits (bitsOfExact negative 1 1024)) =
      Float.ofBits (bitsOfExact negative 1 1024) := by
  have hword : bitsOfExact negative 1 1024 = UInt64.ofNat (word negative 2047 0) := rfl
  rw [toSingle, hword, parts_word negative (by decide) (by decide) (fun _ => rfl)]
  rfl

/-- Zero stays as it is. -/
theorem toSingle_zero (negative : Bool) (e : Int) :
    toSingle (Float.ofBits (bitsOfExact negative 0 e)) =
      Float.ofBits (bitsOfExact negative 0 e) := by
  have hword : bitsOfExact negative 0 e = UInt64.ofNat (word negative 0 0) := by
    simp [bitsOfExact, word]
  rw [toSingle, hword, parts_word negative (by decide) (by decide) (fun _ => rfl)]
  cases negative <;> rfl

/-- A number of at most 24 digits, or the least one of more, stays as it is where its exponent is
in the range of single precision. -/
theorem toSingle_normal (negative : Bool) {a : Nat} {e : Int} (ha : a ≠ 0) (hle : a ≤ 2 ^ 24)
    (hlow : -149 ≤ e) (hhigh : e + Nat.log2 a ≤ 127) :
    toSingle (Float.ofBits (bitsOfExact negative a e)) =
      Float.ofBits (bitsOfExact negative a e) := by
  obtain ⟨hbelow, habove⟩ := (Nat.log2_eq_iff ha).1 rfl
  have hlog : Nat.log2 a ≤ 24 := by
    by_contra h
    have : 2 ^ 25 ≤ 2 ^ Nat.log2 a := Nat.pow_le_pow_right (by decide) (by omega)
    omega
  have hfilled : Nat.log2 (a * 2 ^ (52 - Nat.log2 a)) = 52 := by
    rw [log2_mul_two_pow ha]
    omega
  -- the digits that are cut off again are zeros
  obtain ⟨q, s, hq, hs⟩ : ∃ q s : Nat, q * 2 ^ s = a * 2 ^ (52 - Nat.log2 a) ∧
      (s : Int) = max 29 (-97 - e - Nat.log2 a) := by
    by_cases h24 : Nat.log2 a = 24
    · refine ⟨2 ^ 23, 29, ?_, by omega⟩
      rw [h24] at hbelow ⊢
      rw [Nat.le_antisymm hle hbelow, ← Nat.pow_add, ← Nat.pow_add]
    · obtain ⟨s, hs⟩ := Int.eq_ofNat_of_zero_le
        (show (0 : Int) ≤ max 29 (-97 - e - Nat.log2 a) by omega)
      refine ⟨a * 2 ^ (52 - Nat.log2 a - s), s, ?_, hs.symm⟩
      rw [Nat.mul_assoc, ← Nat.pow_add, Nat.sub_add_cancel (by omega)]
  have hne : q ≠ 0 := by
    rintro rfl
    rw [Nat.zero_mul] at hq
    exact Nat.mul_ne_zero ha (Nat.two_pow_pos _).ne' hq.symm
  have hqlog : Nat.log2 q + s = 52 := by
    rw [← log2_mul_two_pow hne, hq, hfilled]
  have hround : roundTo 24 (-149) (a * 2 ^ (52 - Nat.log2 a)) (e + Nat.log2 a - 52) =
      (q, e + Nat.log2 a - 52 + s) := by
    have hshift : (max (((52 + 1 : Nat) : Int) - (24 : Nat))
        (-149 - (e + Nat.log2 a - 52))).toNat = s := by omega
    rw [roundTo]
    simp only [Int.ofNat_eq_natCast, hfilled, hshift]
    rw [if_neg, ← hq, shiftRound_mul]
    rintro (h | h)
    · exact Nat.mul_ne_zero ha (Nat.two_pow_pos _).ne' h
    · omega
  have hsame : fractionOf q = fractionOf a := by
    rw [fractionOf, fractionOf, ← hq, ← hqlog, Nat.add_sub_cancel_left]
  have htop : e + Nat.log2 a - 52 + s + Nat.log2 q = e + Nat.log2 a := by omega
  rw [toSingle_finite (parts_normal negative ha (by omega) (by omega) (by omega)) hround,
    if_neg (by omega), bitsOfExact_normal negative ha (by omega) (by omega) (by omega),
    bitsOfExact_normal negative hne (by omega) (by omega) (by omega), hsame,
    htop]

/-- **Rounding to single precision twice** is rounding once. -/
theorem toSingle_toSingle (x : Float) : toSingle (toSingle x) = toSingle x := by
  cases hparts : parts x with
  | nan =>
    have hx : toSingle x = x := by rw [toSingle, hparts]
    rw [hx, hx]
  | infinite negative =>
    have hx : toSingle x = x := by rw [toSingle, hparts]
    rw [hx, hx]
  | finite negative m e =>
    cases hround : roundTo 24 (-149) m e with | mk a f =>
    obtain ⟨hle, hlow⟩ := @roundTo_bounds 24 (-149) m e
    rw [hround] at hle hlow
    rw [toSingle_finite hparts hround]
    split
    · exact toSingle_infinite negative
    · by_cases hzero : a = 0
      · rw [hzero]
        exact toSingle_zero negative f
      · exact toSingle_normal negative hzero hle (hlow hzero) (by omega)

end ScriptCore.Binary64
