import Mathlib.Algebra.Order.Ring.Int
import Mathlib.Tactic.Linarith
import ScriptCore.Compile.Constant
import ScriptCore.Proofs.Registers.Execution

/-!
# Folding and arithmetic of a fixed width

A constant subexpression is folded exactly by one compiler and computed at the width of a kind by
the other.  Sums, products and bitwise operators give the same residue either way, and so do shifts
to the left.  Quotients, remainders and shifts to the right do if their operands fit the kind.

Main statements: `unary_cast`, `binary_cast` and `shift_cast`.
-/

namespace ScriptCore

/-! ### Wide arithmetic and narrow arithmetic -/

/-- Operators for which only the residues of the operands matter. -/
def BinaryOp.isModular : BinaryOp → Bool
  | .add | .sub | .mul | .and | .or | .xor | .andNot => true
  | _ => false

/-- All others are quotients and remainders. -/
theorem BinaryOp.modular_or_divide (op : BinaryOp) (hop : op.isIntArith = true) :
    op.isModular = true ∨ op = .div ∨ op = .rem := by
  revert hop
  cases op <;> decide

/-- Narrowing the operands of a modular operator makes no difference. -/
theorem intBinary_narrow {op : BinaryOp} (hop : op.isModular = true) (k : Kind) (a b : Int64) :
    intBinary op k (narrowInt k a) (narrowInt k b) = intBinary op k a b := by
  cases op with
  | add | sub | mul | and | or | xor | andNot => cases k <;> simp [intBinary, narrowInt]
  | _ => cases hop

/-- Narrowing the operands of a modular operator makes no difference. -/
theorem uintBinary_narrow {op : BinaryOp} (hop : op.isModular = true) (k : Kind) (a b : UInt64) :
    uintBinary op k (narrowUint k a) (narrowUint k b) = uintBinary op k a b := by
  cases op with
  | add | sub | mul | and | or | xor | andNot =>
      cases k <;> simp [uintBinary, narrowUint, -UInt64.toUInt64_toUInt8,
        -UInt64.toUInt64_toUInt16, -UInt64.toUInt64_toUInt32]
  | _ => cases hop

/-- Bits of an unsigned residue. -/
theorem toBitVec_ofInt_uint (i : Int) : (UInt64.ofInt i).toBitVec = BitVec.ofInt 64 i := by
  apply BitVec.eq_of_toNat_eq
  simp only [UInt64.ofInt, BitVec.toNat_ofInt, UInt64.toNat_toBitVec, UInt64.toNat_ofNat']
  omega

/-- The low bits of a number of 128 bits. -/
theorem ofInt_toInt (x : BitVec 128) : BitVec.ofInt 64 x.toInt = x.setWidth 64 := by
  apply BitVec.eq_of_toNat_eq
  simp only [BitVec.toNat_ofInt, BitVec.toNat_setWidth, BitVec.toInt_eq_toNat_cond]
  split <;> omega

/-- The low bits of an integer. -/
theorem setWidth_ofInt (i : Int) : (BitVec.ofInt 128 i).setWidth 64 = BitVec.ofInt 64 i := by
  apply BitVec.eq_of_toNat_eq
  simp only [BitVec.toNat_ofInt, BitVec.toNat_setWidth]
  omega

/-- A modular operator computes the residue of the exact result. -/
theorem intBinary_ofInt {op : BinaryOp} (hop : op.isModular = true) {a b i : Int}
    (h : Constant.intBinary op a b = .ok (.int i)) (k : Kind) :
    intBinary op k (Int64.ofInt a) (Int64.ofInt b) = .ok (narrowInt k (Int64.ofInt i)) := by
  cases op with
  | add | sub | mul =>
      simp only [Constant.intBinary, Constant.checked] at h
      split at h
      · cases h
        simp [intBinary]
      · cases h
  | and | or | xor | andNot =>
      simp only [Constant.intBinary, Constant.bitwise] at h
      cases h
      simp only [intBinary, Except.ok.injEq]
      congr 1
      apply Int64.toBitVec.inj
      simp only [Int64.toBitVec_and, Int64.toBitVec_or, Int64.toBitVec_xor, Int64.toBitVec_not,
        Int64.toBitVec_ofInt, ofInt_toInt, BitVec.setWidth_and, BitVec.setWidth_or,
        BitVec.setWidth_xor, BitVec.setWidth_not (show 64 ≤ 128 by decide), setWidth_ofInt]
  | _ => cases hop

/-- A modular operator computes the residue of the exact result. -/
theorem uintBinary_ofInt {op : BinaryOp} (hop : op.isModular = true) {a b i : Int}
    (h : Constant.intBinary op a b = .ok (.int i)) (k : Kind) :
    uintBinary op k (UInt64.ofInt a) (UInt64.ofInt b) = .ok (narrowUint k (UInt64.ofInt i)) := by
  cases op with
  | add | sub | mul =>
      simp only [Constant.intBinary, Constant.checked] at h
      split at h
      · cases h
        simp [uintBinary, Int.sub_eq_add_neg, UInt64.sub_eq_add_neg]
      · cases h
  | and | or | xor | andNot =>
      simp only [Constant.intBinary, Constant.bitwise] at h
      cases h
      simp only [uintBinary, Except.ok.injEq]
      congr 1
      apply UInt64.toBitVec_inj.1
      simp only [UInt64.toBitVec_and, UInt64.toBitVec_or, UInt64.toBitVec_xor,
        UInt64.toBitVec_not, toBitVec_ofInt_uint, ofInt_toInt, BitVec.setWidth_and,
        BitVec.setWidth_or, BitVec.setWidth_xor, BitVec.setWidth_not (show 64 ≤ 128 by decide),
        setWidth_ofInt]
  | _ => cases hop

/-! ### Operators that need operands in range -/

/-- An integer fits a kind. -/
def Registers.Kind.Holds (k : Registers.Kind) (i : Int) : Prop :=
  k.scalar.range.1 ≤ i ∧ i ≤ k.scalar.range.2

/-- Whether an integer fits a kind is a matter of two comparisons. -/
instance (k : Registers.Kind) (i : Int) : Decidable (k.Holds i) :=
  inferInstanceAs (Decidable (_ ∧ _))

/-- What fits a kind is not changed by it. -/
theorem narrowInt_ofInt {k : Registers.Kind} {i : Int} (h : k.Holds i) :
    narrowInt k.scalar (Int64.ofInt i) = Int64.ofInt i := by
  obtain ⟨hlow, hhigh⟩ := h
  cases k with
  | int8 =>
      simp only [Registers.Kind.scalar, narrowInt, Int64.toInt8_ofInt]
      exact Int8.toInt64_ofInt hlow hhigh
  | int16 =>
      simp only [Registers.Kind.scalar, narrowInt, Int64.toInt16_ofInt]
      exact Int16.toInt64_ofInt hlow hhigh
  | int32 =>
      simp only [Registers.Kind.scalar, narrowInt, Int64.toInt32_ofInt]
      exact Int32.toInt64_ofInt hlow hhigh
  | _ => rfl

/-- What fits a kind is not changed by it. -/
theorem narrowUint_ofInt {k : Registers.Kind} {i : Int} (h : k.Holds i) :
    narrowUint k.scalar (UInt64.ofInt i) = UInt64.ofInt i := by
  obtain ⟨hlow, hhigh⟩ := h
  cases k with
  | uint8 | uint16 | uint32 =>
      simp only [Registers.Kind.scalar, Kind.range] at hlow hhigh
      simp only [Registers.Kind.scalar, narrowUint]
      apply UInt64.toNat_inj.1
      simp [UInt64.ofInt]
      omega
  | _ => rfl

/-- What fits a signed kind fits 64 bits with a sign. -/
theorem Registers.Kind.Holds.signed {k : Registers.Kind} (hk : k.isSigned = true) {i : Int}
    (h : k.Holds i) : -2 ^ 63 ≤ i ∧ i < 2 ^ 63 := by
  obtain ⟨hlow, hhigh⟩ := h
  cases k with
  | int | int8 | int16 | int32 | int64 =>
      simp only [Registers.Kind.scalar, Kind.range] at hlow hhigh
      omega
  | _ => cases hk

/-- What fits an unsigned kind fits 64 bits without a sign. -/
theorem Registers.Kind.Holds.unsigned {k : Registers.Kind} (hk : k.isUnsigned = true) {i : Int}
    (h : k.Holds i) : 0 ≤ i ∧ i < 2 ^ 64 := by
  obtain ⟨hlow, hhigh⟩ := h
  cases k with
  | uint | uint8 | uint16 | uint32 | uint64 | uintptr =>
      simp only [Registers.Kind.scalar, Kind.range] at hlow hhigh
      omega
  | _ => cases hk

/-- A natural number of 64 bits stands for itself. -/
theorem toNat_ofInt {i : Int} (h : 0 ≤ i ∧ i < 2 ^ 64) : (UInt64.ofInt i).toNat = i.toNat := by
  simp [UInt64.ofInt]
  omega

/-- A quotient or remainder is folded if the divisor is not zero. -/
theorem fold_divide {op : BinaryOp} (hop : op = .div ∨ op = .rem) {a b i : Int}
    (h : Constant.intBinary op a b = .ok (.int i)) :
    b ≠ 0 ∧ i = if op = .div then a.tdiv b else a.tmod b := by
  rcases hop with rfl | rfl <;> simp only [Constant.intBinary, Constant.checked] at h
  · split at h
    · cases h
    · rename_i hb
      split at h
      · cases h
        exact ⟨hb, rfl⟩
      · cases h
  · split at h
    · cases h
    · rename_i hb
      split at h
      · cases h
        exact ⟨hb, rfl⟩
      · cases h

/-- A quotient or remainder of what fits 64 bits is the exact one. -/
theorem intBinary_divide {op : BinaryOp} (hop : op = .div ∨ op = .rem) {a b i : Int}
    (h : Constant.intBinary op a b = .ok (.int i)) (ha : -2 ^ 63 ≤ a ∧ a < 2 ^ 63)
    (hb : -2 ^ 63 ≤ b ∧ b < 2 ^ 63) (k : Kind) :
    intBinary op k (Int64.ofInt a) (Int64.ofInt b) = .ok (narrowInt k (Int64.ofInt i)) := by
  obtain ⟨hne, rfl⟩ := fold_divide hop h
  have hzero : Int64.ofInt b ≠ 0 := by
    intro h0
    have htoInt := congrArg Int64.toInt h0
    rw [Int64.toInt_ofInt_of_le hb.1 hb.2] at htoInt
    exact hne htoInt
  have hmin : Int64.minValue.toInt = -2 ^ 63 := rfl
  have hmax : Int64.maxValue.toInt = 2 ^ 63 - 1 := rfl
  rcases hop with rfl | rfl
  · rw [if_pos rfl, Int64.ofInt_tdiv (by omega) (by omega) (by omega) (by omega)]
    simp [intBinary, hzero]
  · rw [if_neg (by decide), Int64.ofInt_tmod (by omega) (by omega) (by omega) (by omega)]
    simp [intBinary, hzero]

/-- A quotient or remainder of what fits 64 bits is the exact one. -/
theorem uintBinary_divide {op : BinaryOp} (hop : op = .div ∨ op = .rem) {a b i : Int}
    (h : Constant.intBinary op a b = .ok (.int i)) (ha : 0 ≤ a ∧ a < 2 ^ 64)
    (hb : 0 ≤ b ∧ b < 2 ^ 64) (k : Kind) :
    uintBinary op k (UInt64.ofInt a) (UInt64.ofInt b) = .ok (narrowUint k (UInt64.ofInt i)) := by
  obtain ⟨hne, rfl⟩ := fold_divide hop h
  have hzero : UInt64.ofInt b ≠ 0 := by
    intro h0
    have htoNat := congrArg UInt64.toNat h0
    rw [toNat_ofInt hb, UInt64.toNat_zero] at htoNat
    omega
  obtain ⟨m, rfl⟩ := Int.eq_ofNat_of_zero_le ha.1
  obtain ⟨n, rfl⟩ := Int.eq_ofNat_of_zero_le hb.1
  rcases hop with rfl | rfl
  · have hdiv : UInt64.ofInt m / UInt64.ofInt n = UInt64.ofInt ((m : Int).tdiv n) := by
      apply UInt64.toNat_inj.1
      rw [UInt64.toNat_div, toNat_ofInt ha, toNat_ofInt hb, ← Int.ofNat_tdiv, toNat_ofInt]
      · rfl
      · have hle := Nat.div_le_self m n
        exact ⟨Int.natCast_nonneg _, by omega⟩
    simp [uintBinary, hzero, hdiv]
  · have hmod : UInt64.ofInt m % UInt64.ofInt n = UInt64.ofInt ((m : Int).tmod n) := by
      apply UInt64.toNat_inj.1
      rw [UInt64.toNat_mod, toNat_ofInt ha, toNat_ofInt hb, ← Int.ofNat_tmod, toNat_ofInt]
      · rfl
      · have hle := Nat.mod_le m n
        omega
    simp [uintBinary, hzero, hmod]

/-! ### Shifts -/

/-- A count below 64 is kept. -/
theorem count_smod {n : Nat} (hn : n < 64) :
    (UInt64.ofNat n).toInt64.toBitVec.smod 64 = BitVec.ofNat 64 n := by
  have h : ∀ n : Fin 64, (UInt64.ofNat n).toInt64.toBitVec.smod 64 = BitVec.ofNat 64 n := by
    decide
  exact h ⟨n, hn⟩

/-- A left shift computes the residue of the exact result. -/
theorem bits_shiftLeft (a : Int) (n : Nat) :
    BitVec.ofInt 64 a <<< n = BitVec.ofInt 64 (a <<< n) := by
  rw [BitVec.shiftLeft_eq_mul_twoPow, Int.shiftLeft_eq, BitVec.ofInt_mul]
  congr 1
  apply BitVec.eq_of_toNat_eq
  rw [BitVec.toNat_twoPow, BitVec.toNat_ofInt]
  norm_cast

/-- A left shift by a count below the width is a product. -/
theorem shiftLeft_eq_mul (x : Int64) {n : Nat} (hn : n < 64) :
    x <<< (UInt64.ofNat n).toInt64 = x * Int64.ofInt (2 ^ n) := by
  have h : Int64.ofInt x.toInt <<< (UInt64.ofNat n).toInt64 =
      Int64.ofInt (x.toInt * 2 ^ n) := by
    apply Int64.toBitVec.inj
    rw [Int64.toBitVec_shiftLeft, count_smod hn, Int64.toBitVec_ofInt, Int64.toBitVec_ofInt,
      BitVec.shiftLeft_eq', BitVec.toNat_ofNat, Nat.mod_eq_of_lt (by omega), bits_shiftLeft,
      Int.shiftLeft_eq]
  rwa [Int64.ofInt_mul, Int64.ofInt_toInt] at h

/-- A left shift by a count below the width is a product. -/
theorem shiftLeft_eq_mul_uint (x : UInt64) {n : Nat} (hn : n < 64) :
    x <<< UInt64.ofNat n = x * UInt64.ofInt (2 ^ n) := by
  have hcount : (UInt64.ofNat n).toBitVec % 64 = BitVec.ofNat 64 n := by
    have h : ∀ n : Fin 64, (UInt64.ofNat n).toBitVec % 64 = BitVec.ofNat 64 n := by decide
    exact h ⟨n, hn⟩
  apply UInt64.toBitVec_inj.1
  rw [UInt64.toBitVec_shiftLeft]
  rw [hcount, BitVec.shiftLeft_eq', BitVec.toNat_ofNat, Nat.mod_eq_of_lt (by omega),
    BitVec.shiftLeft_eq_mul_twoPow, UInt64.toBitVec_mul, toBitVec_ofInt_uint]
  congr 1
  apply BitVec.eq_of_toNat_eq
  rw [BitVec.toNat_twoPow, BitVec.toNat_ofInt]
  norm_cast

/-- The width or more shifts everything out. -/
theorem ofInt_pow_wide {n : Nat} (hn : 64 ≤ n) : BitVec.ofInt 64 (2 ^ n) = 0 := by
  have h := bits_shiftLeft 1 n
  rw [BitVec.shiftLeft_eq_zero hn, Int.shiftLeft_eq, one_mul] at h
  exact h.symm

/-- A count of 64 bits is compared as a number. -/
theorem ofNat_lt_64 {n : Nat} (hn : n < 2 ^ 64) : UInt64.ofNat n < 64 ↔ n < 64 := by
  rw [UInt64.lt_iff_toNat_lt, UInt64.toNat_ofNat', Nat.mod_eq_of_lt hn]
  rfl

/-- A left shift computes the residue of the exact result. -/
theorem shiftInt_shl (k : Kind) (a : Int) {n : Nat} (hn : n < 2 ^ 64) :
    shiftInt .shl k (narrowInt k (Int64.ofInt a)) (UInt64.ofNat n) =
      narrowInt k (Int64.ofInt (a <<< n)) := by
  have hmul (x y : Int64) : narrowInt k (narrowInt k x * y) = narrowInt k (x * y) := by
    cases k <;> simp [narrowInt]
  simp only [shiftInt, if_true, ofNat_lt_64 hn, Int.shiftLeft_eq, Int64.ofInt_mul]
  split
  · rename_i hlt
    rw [shiftLeft_eq_mul _ hlt, hmul]
  · rename_i hge
    have hzero : Int64.ofInt (2 ^ n) = 0 :=
      Int64.toBitVec.inj (ofInt_pow_wide (by omega))
    rw [hzero, Int64.mul_zero]

/-- A left shift computes the residue of the exact result. -/
theorem shiftUint_shl (k : Kind) (a : Int) {n : Nat} (hn : n < 2 ^ 64) :
    shiftUint .shl k (narrowUint k (UInt64.ofInt a)) (UInt64.ofNat n) =
      narrowUint k (UInt64.ofInt (a <<< n)) := by
  have hmul (x y : UInt64) : narrowUint k (narrowUint k x * y) = narrowUint k (x * y) := by
    cases k <;> simp [narrowUint, -UInt64.toUInt64_toUInt8, -UInt64.toUInt64_toUInt16,
      -UInt64.toUInt64_toUInt32]
  have hle : 64 ≤ UInt64.ofNat n ↔ ¬ n < 64 := by
    rw [← ofNat_lt_64 hn, UInt64.not_lt]
  simp only [shiftUint, hle, Int.shiftLeft_eq, UInt64.ofInt_mul]
  split
  · rename_i hge
    have hzero : UInt64.ofInt (2 ^ n) = 0 := by
      apply UInt64.toBitVec_inj.1
      rw [toBitVec_ofInt_uint]
      exact ofInt_pow_wide (by omega)
    rw [hzero, UInt64.mul_zero]
  · rename_i hlt
    rw [if_pos trivial, shiftLeft_eq_mul_uint _ (by omega), hmul]

/-- A right shift comes closer to zero, or to minus one. -/
theorem shiftRight_bounds (a : Int) (n : Nat) :
    (0 ≤ a → 0 ≤ a >>> n ∧ a >>> n ≤ a) ∧ (a < 0 → a ≤ a >>> n ∧ a >>> n < 0) := by
  have hpos : (0 : Int) < 2 ^ n := Int.pow_pos (by decide)
  rw [Int.shiftRight_eq_div_pow, Int.natCast_pow, Int.cast_ofNat_Int]
  refine ⟨fun h => ⟨Int.ediv_nonneg h hpos.le, Int.ediv_le_self _ h⟩, fun h => ⟨?_, ?_⟩⟩
  · refine (Int.le_ediv_iff_mul_le hpos).2 ?_
    nlinarith
  · exact Int.ediv_neg_of_neg_of_pos h hpos

/-- A right shift by the width or more leaves the sign. -/
theorem shiftRight_wide {a : Int} {n : Nat} (hlow : -2 ^ n ≤ a) (hhigh : a < 2 ^ n) :
    a >>> n = if a < 0 then -1 else 0 := by
  have hpos : (0 : Int) < 2 ^ n := Int.pow_pos (by decide)
  rw [Int.shiftRight_eq_div_pow, Int.natCast_pow, Int.cast_ofNat_Int]
  split
  · rename_i hneg
    have hlt := Int.ediv_neg_of_neg_of_pos hneg hpos
    have hge : -1 ≤ a / 2 ^ n := (Int.le_ediv_iff_mul_le hpos).2 (by simpa using hlow)
    omega
  · exact Int.ediv_eq_zero_of_lt (by omega) hhigh

/-- A right shift of what fits 64 bits is the exact one. -/
theorem shiftInt_shr (k : Kind) {a : Int} (ha : -2 ^ 63 ≤ a ∧ a < 2 ^ 63) {n : Nat}
    (hn : n < 2 ^ 64) :
    shiftInt .shr k (Int64.ofInt a) (UInt64.ofNat n) =
      narrowInt k (Int64.ofInt (a >>> min n 127)) := by
  have hbounds := shiftRight_bounds a (min n 127)
  have htoInt := Int64.toInt_ofInt_of_le ha.1 ha.2
  rw [shiftInt, if_neg (by decide)]
  simp only [ofNat_lt_64 hn]
  congr 1
  split
  · rename_i hlt
    rw [Nat.min_eq_left (by omega)] at hbounds ⊢
    apply Int64.toInt_inj.1
    rw [Int64.toInt_ofInt_of_le (by omega) (by omega), ← Int64.toInt_toBitVec,
      Int64.toBitVec_shiftRight, count_smod hlt, BitVec.sshiftRight', BitVec.toInt_sshiftRight,
      Int64.toInt_toBitVec, htoInt, BitVec.toNat_ofNat, Nat.mod_eq_of_lt (by omega)]
  · rename_i hge
    have hpow : (2 : Int) ^ 63 ≤ 2 ^ min n 127 :=
      pow_le_pow_right₀ (by decide) (by omega)
    rw [shiftRight_wide (by omega) (by omega)]
    have hneg : Int64.ofInt a < 0 ↔ a < 0 := by
      rw [Int64.lt_iff_toInt_lt, htoInt]
      rfl
    by_cases h : a < 0
    · rw [if_pos h, if_pos (hneg.2 h)]
      rfl
    · rw [if_neg h, if_neg (fun h' => h (hneg.1 h'))]
      rfl

/-- A right shift of what fits 64 bits is the exact one. -/
theorem shiftUint_shr (k : Kind) {a : Int} (ha : 0 ≤ a ∧ a < 2 ^ 64) {n : Nat}
    (hn : n < 2 ^ 64) :
    shiftUint .shr k (UInt64.ofInt a) (UInt64.ofNat n) =
      narrowUint k (UInt64.ofInt (a >>> min n 127)) := by
  have hbounds := (shiftRight_bounds a (min n 127)).1 ha.1
  have hle : 64 ≤ UInt64.ofNat n ↔ ¬ n < 64 := by
    rw [← ofNat_lt_64 hn, UInt64.not_lt]
  rw [shiftUint]
  simp only [hle]
  congr 1
  split
  · rename_i hge
    have hpow : (2 : Int) ^ 64 ≤ 2 ^ min n 127 :=
      pow_le_pow_right₀ (by decide) (by omega)
    rw [shiftRight_wide (by omega) (by omega), if_neg (by omega)]
    rfl
  · rename_i hlt
    rw [if_neg (by decide)]
    rw [Nat.min_eq_left (by omega)] at hbounds ⊢
    apply UInt64.toNat_inj.1
    rw [UInt64.toNat_shiftRight, toNat_ofInt ha, toNat_ofInt (by omega), UInt64.toNat_ofNat',
      Nat.mod_eq_of_lt (by omega), Nat.mod_eq_of_lt (by omega)]
    obtain ⟨m, rfl⟩ := Int.eq_ofNat_of_zero_le ha.1
    rfl

/-! ### Values of a kind -/

namespace Registers.Kind

/-- Integers have a sign or not. -/
theorem isUnsigned_of_not_signed {k : Kind} (hk : k.isInteger = true) (h : k.isSigned = false) :
    k.isUnsigned = true := by
  simpa [isInteger, h] using hk

/-- A value of a signed kind. -/
theorem cast_signed {k : Kind} (h : k.isSigned = true) (i : Int) :
    k.cast i = .int (narrowInt k.scalar (Int64.ofInt i)) := by
  rw [cast, if_pos h]

/-- A value of an unsigned kind. -/
theorem cast_unsigned {k : Kind} (h : k.isSigned = false) (i : Int) :
    k.cast i = .uint (narrowUint k.scalar (UInt64.ofInt i)) := by
  rw [cast, h]
  rfl

end Registers.Kind

/-- Flipped bits are a difference. -/
theorem not_ofInt (a : Int) : ~~~Int64.ofInt a = Int64.ofInt (-a - 1) := by
  rw [Int64.not_eq_neg_add, Int64.ofInt_sub, Int64.ofInt_neg]
  rfl

/-- Flipped bits are a difference. -/
theorem not_ofInt_uint (a : Int) : ~~~UInt64.ofInt a = UInt64.ofInt (-a - 1) := by
  have h : ~~~UInt64.ofInt a = -UInt64.ofInt a + -1 := by
    apply UInt64.toBitVec_inj.1
    simpa [BitVec.sub_eq_add_neg] using BitVec.not_eq_neg_add (UInt64.ofInt a).toBitVec
  rw [h, Int.sub_eq_add_neg, UInt64.ofInt_add, UInt64.ofInt_neg, UInt64.ofInt_neg_one]

/-- **A folded unary operator** gives the residue of what it gives exactly. -/
theorem unary_cast (k : Registers.Kind) {op : UnaryOp} {a i : Int}
    (h : Constant.unary op (.int a) = .ok (.int i)) :
    unaryValue op k.scalar (k.cast a) = .ok (k.cast i) := by
  cases op with
  | plus =>
      cases h
      rfl
  | not => cases h
  | neg =>
      simp only [Constant.unary, Constant.checked] at h
      split at h
      · cases h
        cases hsigned : k.isSigned with
        | true =>
            rw [k.cast_signed hsigned, k.cast_signed hsigned, Int64.ofInt_neg, unaryValue]
            cases k <;> simp [Registers.Kind.scalar, narrowInt]
        | false =>
            rw [k.cast_unsigned hsigned, k.cast_unsigned hsigned, UInt64.ofInt_neg, unaryValue]
            cases k <;> simp [Registers.Kind.scalar, narrowUint, -UInt64.toUInt64_toUInt8,
              -UInt64.toUInt64_toUInt16, -UInt64.toUInt64_toUInt32]
      · cases h
  | bitNot =>
      cases h
      cases hsigned : k.isSigned with
      | true =>
          rw [k.cast_signed hsigned, k.cast_signed hsigned, ← not_ofInt, unaryValue]
          cases k <;> simp [Registers.Kind.scalar, narrowInt]
      | false =>
          rw [k.cast_unsigned hsigned, k.cast_unsigned hsigned, ← not_ofInt_uint, unaryValue]
          cases k <;> simp [Registers.Kind.scalar, narrowUint, -UInt64.toUInt64_toUInt8,
            -UInt64.toUInt64_toUInt16, -UInt64.toUInt64_toUInt32]

/-- Arithmetic on two integers is arithmetic on their kind. -/
theorem binaryValues_arith {op : BinaryOp} (hop : op.isIntArith = true) (k : Kind) :
    (∀ a b, binaryValues op k (.int a) (.int b) = Value.int <$> intBinary op k a b) ∧
      ∀ a b, binaryValues op k (.uint a) (.uint b) = Value.uint <$> uintBinary op k a b := by
  cases op with
  | add | sub | mul | div | rem | and | or | xor | andNot => exact ⟨fun _ _ => rfl, fun _ _ => rfl⟩
  | _ => cases hop

/-- **A folded operator** gives the residue of what it gives exactly; quotients and remainders need
operands that fit the kind. -/
theorem binary_cast {k : Registers.Kind} (hk : k.isInteger = true) {op : BinaryOp}
    (hop : op.isIntArith = true) {a b i : Int}
    (h : Constant.binary op (.int a) (.int b) = .ok (.int i))
    (hexact : op = .div ∨ op = .rem → k.Holds a ∧ k.Holds b) :
    binaryValues op k.scalar (k.cast a) (k.cast b) = .ok (k.cast i) := by
  have hshift : op.isShift = false := by cases op <;> first | rfl | cases hop
  rw [Constant.binary, if_neg (by simp [hshift])] at h
  have hcases := op.modular_or_divide hop
  cases hsigned : k.isSigned with
  | true =>
      rw [k.cast_signed hsigned, k.cast_signed hsigned, k.cast_signed hsigned,
        (binaryValues_arith hop _).1]
      rcases hcases with hmodular | hdivide
      · rw [intBinary_narrow hmodular, intBinary_ofInt hmodular h]
        rfl
      · obtain ⟨ha, hb⟩ := hexact hdivide
        rw [narrowInt_ofInt ha, narrowInt_ofInt hb,
          intBinary_divide hdivide h (ha.signed hsigned) (hb.signed hsigned)]
        rfl
  | false =>
      have hunsigned := Registers.Kind.isUnsigned_of_not_signed hk hsigned
      rw [k.cast_unsigned hsigned, k.cast_unsigned hsigned, k.cast_unsigned hsigned,
        (binaryValues_arith hop _).2]
      rcases hcases with hmodular | hdivide
      · rw [uintBinary_narrow hmodular, uintBinary_ofInt hmodular h]
        rfl
      · obtain ⟨ha, hb⟩ := hexact hdivide
        rw [narrowUint_ofInt ha, narrowUint_ofInt hb,
          uintBinary_divide hdivide h (ha.unsigned hunsigned) (hb.unsigned hunsigned)]
        rfl

/-- A shift of an integer by an unsigned count. -/
theorem binaryValues_shift {op : BinaryOp} (hop : op.isShift = true) (k : Kind) :
    (∀ a n, binaryValues op k (.int a) (.uint n) = .ok (.int (shiftInt op k a n))) ∧
      ∀ a n, binaryValues op k (.uint a) (.uint n) = .ok (.uint (shiftUint op k a n)) := by
  cases op with
  | shl | shr => exact ⟨fun _ _ => rfl, fun _ _ => rfl⟩
  | _ => cases hop

/-- **A folded shift** gives the residue of what it gives exactly; a shift to the right needs an
operand that fits the kind. -/
theorem shift_cast {k : Registers.Kind} (hk : k.isInteger = true) {op : BinaryOp}
    (hop : op.isShift = true) {a s i : Int}
    (h : Constant.binary op (.int a) (.int s) = .ok (.int i))
    (hexact : op = .shr → k.Holds a) :
    binaryValues op k.scalar (k.cast a) (Registers.Kind.uint.cast s) = .ok (k.cast i) := by
  rw [Constant.binary, if_pos hop] at h
  simp only [Constant.shift, Constant.asInt?] at h
  split at h
  · cases h
  · rename_i hs
    have hsize : UInt32.size = 2 ^ 32 := rfl
    obtain ⟨n, rfl⟩ := Int.eq_ofNat_of_zero_le (show 0 ≤ s by omega)
    have hn : n < 2 ^ 64 := by omega
    have hcount : Registers.Kind.uint.cast n = .uint (UInt64.ofNat n) := by
      rw [Registers.Kind.cast_unsigned rfl]
      congr 1
      apply UInt64.toNat_inj.1
      change (UInt64.ofInt n).toNat = _
      rw [toNat_ofInt (by omega), UInt64.toNat_ofNat', Nat.mod_eq_of_lt hn]
      rfl
    rw [hcount]
    by_cases hshl : op = .shl
    · subst hshl
      rw [if_pos rfl] at h
      split at h
      · cases h
        cases hsigned : k.isSigned with
        | true =>
            rw [k.cast_signed hsigned, k.cast_signed hsigned, (binaryValues_shift hop _).1,
              shiftInt_shl _ _ hn]
            rfl
        | false =>
            rw [k.cast_unsigned hsigned, k.cast_unsigned hsigned, (binaryValues_shift hop _).2,
              shiftUint_shl _ _ hn]
            rfl
      · cases h
    · have hshr : op = .shr := by
        cases op with
        | shl => exact absurd rfl hshl
        | shr => rfl
        | _ => cases hop
      subst hshr
      rw [if_neg hshl] at h
      cases h
      have ha := hexact rfl
      cases hsigned : k.isSigned with
      | true =>
          rw [k.cast_signed hsigned, k.cast_signed hsigned, (binaryValues_shift hop _).1,
            narrowInt_ofInt ha, shiftInt_shr _ (ha.signed hsigned) hn]
          rfl
      | false =>
          have hunsigned := Registers.Kind.isUnsigned_of_not_signed hk hsigned
          rw [k.cast_unsigned hsigned, k.cast_unsigned hsigned, (binaryValues_shift hop _).2,
            narrowUint_ofInt ha, shiftUint_shr _ (ha.unsigned hunsigned) hn]
          rfl

end ScriptCore
