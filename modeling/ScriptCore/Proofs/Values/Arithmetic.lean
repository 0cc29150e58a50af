import Mathlib.Data.Int.ModEq
import ScriptCore.Proofs.Number.Digits
import ScriptCore.Proofs.Straight.Folding

/-!
# Arithmetic of a fixed width

Integer kinds of `w` bits hold the integers of a range of `2 ^ w` numbers, so each residue modulo
`2 ^ w` has one representative in the range.  Operators are computed in 64 bits and then cut to the
width.  Either step keeps the residue modulo `2 ^ w`, and the second one ends in the range; so what
comes out is the representative of the mathematical result, also where the computation in 64 bits
wraps or a shift leaves nothing.

Main statement: `binaryValues_exact`.
-/

namespace ScriptCore

/-! ### Ranges -/

namespace Kind

/-- The integer is in the range of the kind. -/
def InRange (k : Kind) (i : Int) : Prop :=
  k.range.1 ≤ i ∧ i ≤ k.range.2

/-- Being in range is a matter of two comparisons. -/
instance (k : Kind) (i : Int) : Decidable (k.InRange i) :=
  inferInstanceAs (Decidable (_ ∧ _))

/-- The value stands for an integer in the range of an integer kind. -/
inductive Stands (k : Kind) : Value → Int → Prop
  | signed {x : Int64} (hk : k.category = .int) (hx : k.InRange x.toInt) : Stands k (.int x) x.toInt
  | unsigned {x : UInt64} (hk : k.category = .uint) (hx : k.InRange x.toNat) :
      Stands k (.uint x) x.toNat

variable {k : Kind} {i j : Int}

/-- A range has as many numbers as there are words of its width. -/
theorem range_width (hk : k.category = .int ∨ k.category = .uint) :
    k.range.2 = k.range.1 + 2 ^ k.bits - 1 := by
  cases k <;> first | rfl | simp [category] at hk

/-- Residues have at most one representative in range. -/
theorem InRange.eq_of_modEq (hk : k.category = .int ∨ k.category = .uint) (hi : k.InRange i)
    (hj : k.InRange j) (h : i ≡ j [ZMOD 2 ^ k.bits]) : i = j := by
  have hwidth := range_width hk
  obtain ⟨hlow, hhigh⟩ := hi
  obtain ⟨hlow', hhigh'⟩ := hj
  have hclose : |j - i| < 2 ^ k.bits := abs_lt.2 ⟨by omega, by omega⟩
  have hzero := Int.eq_zero_of_abs_lt_dvd h.dvd hclose
  omega

/-- No kind is wider than 64 bits. -/
theorem bits_dvd (hk : k.category = .int ∨ k.category = .uint) :
    ((2 : Int) ^ k.bits) ∣ 2 ^ 64 := by
  refine pow_dvd_pow 2 ?_
  cases k <;> first | decide | simp [category] at hk

/-- Signed kinds have the range of words with a sign, or a part of it. -/
theorem InRange.signed (hk : k.category = .int) (h : k.InRange i) : -2 ^ 63 ≤ i ∧ i < 2 ^ 63 := by
  obtain ⟨hlow, hhigh⟩ := h
  cases k with
  | int | int8 | int16 | int32 | int64 =>
      simp only [range] at hlow hhigh
      omega
  | _ => cases hk

/-- Unsigned kinds have the range of words without a sign, or a part of it. -/
theorem InRange.unsigned (hk : k.category = .uint) (h : k.InRange i) : 0 ≤ i ∧ i < 2 ^ 64 := by
  obtain ⟨hlow, hhigh⟩ := h
  cases k with
  | uint | uint8 | uint16 | uint32 | uint64 | uintptr =>
      simp only [range] at hlow hhigh
      omega
  | _ => cases hk

end Kind

/-! ### Narrowing -/

variable {k : Kind}

/-- What is cut to a signed kind is in its range and keeps its residue. -/
theorem narrowInt_residue (hk : k.category = .int) (v : Int64) :
    k.InRange (narrowInt k v).toInt ∧ (narrowInt k v).toInt ≡ v.toInt [ZMOD 2 ^ k.bits] := by
  have hlow := v.le_toInt
  have hhigh := v.toInt_lt
  cases k with
  | int8 | int16 | int32 =>
      simp only [Kind.InRange, Kind.range, Kind.bits, narrowInt, Int8.toInt_toInt64,
        Int16.toInt_toInt64, Int32.toInt_toInt64, Int64.toInt_toInt8, Int64.toInt_toInt16,
        Int64.toInt_toInt32, Int.ModEq, Int.bmod_def]
      split <;> omega
  | int | int64 =>
      simp only [Kind.InRange, Kind.range, narrowInt]
      exact ⟨by omega, rfl⟩
  | _ => cases hk

/-- What is cut to an unsigned kind is in its range and keeps its residue. -/
theorem narrowUint_residue (hk : k.category = .uint) (v : UInt64) :
    k.InRange (narrowUint k v).toNat ∧ (narrowUint k v).toNat ≡ v.toNat [ZMOD 2 ^ k.bits] := by
  have hlt := v.toNat_lt
  cases k with
  | uint8 | uint16 | uint32 =>
      simp only [Kind.InRange, Kind.range, Kind.bits, narrowUint, UInt8.toNat_toUInt64,
        UInt16.toNat_toUInt64, UInt32.toNat_toUInt64, UInt64.toNat_toUInt8, UInt64.toNat_toUInt16,
        UInt64.toNat_toUInt32, Int.ModEq]
      omega
  | uint | uint64 | uintptr =>
      simp only [Kind.InRange, Kind.range, narrowUint]
      exact ⟨by omega, rfl⟩
  | _ => cases hk

/-- What is in the range of a signed kind is not changed by it. -/
theorem narrowInt_of_inRange (hk : k.category = .int) {x : Int64} (h : k.InRange x.toInt) :
    narrowInt k x = x := by
  obtain ⟨hrange, hmod⟩ := narrowInt_residue hk x
  exact Int64.toInt_inj.1 (hrange.eq_of_modEq (.inl hk) h hmod)

/-- What is in the range of an unsigned kind is not changed by it. -/
theorem narrowUint_of_inRange (hk : k.category = .uint) {x : UInt64} (h : k.InRange x.toNat) :
    narrowUint k x = x := by
  obtain ⟨hrange, hmod⟩ := narrowUint_residue hk x
  exact UInt64.toNat_inj.1 (Int.ofNat_inj.1 (hrange.eq_of_modEq (.inr hk) h hmod))

/-- An integer that is put into a word with a sign keeps its residue. -/
theorem toInt_ofInt_modEq (i : Int) : (Int64.ofInt i).toInt ≡ i [ZMOD 2 ^ 64] := by
  rw [Int64.toInt_ofInt]
  exact Int.bmod_emod

/-- An integer that is put into a word without a sign keeps its residue. -/
theorem toNat_ofInt_modEq (i : Int) : (UInt64.ofInt i).toNat ≡ i [ZMOD 2 ^ 64] := by
  simp only [UInt64.ofInt, UInt64.toNat_ofNat', Int.ModEq]
  omega

/-- The value of an integer kind that an integer is cut to. -/
def Kind.wrap (k : Kind) (z : Int) : Value :=
  if k.category = .int then .int (narrowInt k (Int64.ofInt z))
  else .uint (narrowUint k (UInt64.ofInt z))

/-- **An integer is cut to its representative.** -/
theorem stands_wrap (hk : k.category = .int ∨ k.category = .uint) (z : Int) :
    ∃ r, k.Stands (k.wrap z) r ∧ ∀ i, i = r ↔ k.InRange i ∧ i ≡ z [ZMOD 2 ^ k.bits] := by
  have hunique {r : Int} (hr : k.InRange r ∧ r ≡ z [ZMOD 2 ^ k.bits]) (i : Int) :
      i = r ↔ k.InRange i ∧ i ≡ z [ZMOD 2 ^ k.bits] := by
    refine ⟨?_, fun ⟨hi, h⟩ => hi.eq_of_modEq hk hr.1 (h.trans hr.2.symm)⟩
    rintro rfl
    exact hr
  by_cases hint : k.category = .int
  · obtain ⟨hrange, hmod⟩ := narrowInt_residue hint (Int64.ofInt z)
    rw [Kind.wrap, if_pos hint]
    exact ⟨_, .signed hint hrange,
      hunique ⟨hrange, hmod.trans ((toInt_ofInt_modEq z).of_dvd (Kind.bits_dvd hk))⟩⟩
  · have huint := hk.resolve_left hint
    obtain ⟨hrange, hmod⟩ := narrowUint_residue huint (UInt64.ofInt z)
    rw [Kind.wrap, if_neg hint]
    exact ⟨_, .unsigned huint hrange,
      hunique ⟨hrange, hmod.trans ((toNat_ofInt_modEq z).of_dvd (Kind.bits_dvd hk))⟩⟩

/-! ### Arithmetic in 64 bits -/

/-- A word with a sign is the word for what it stands for. -/
theorem eq_ofInt {v : Int64} {z : Int} (h : v.toInt ≡ z [ZMOD 2 ^ 64]) : v = Int64.ofInt z := by
  have hk : Kind.int64.category = .int := rfl
  have hrange := (narrowInt_residue hk v).1
  have hrange' := (narrowInt_residue hk (Int64.ofInt z)).1
  exact Int64.toInt_inj.1
    (hrange.eq_of_modEq (.inl hk) hrange' (h.trans (toInt_ofInt_modEq z).symm))

/-- A word without a sign is the word for what it stands for. -/
theorem eq_ofInt_uint {v : UInt64} {z : Int} (h : v.toNat ≡ z [ZMOD 2 ^ 64]) :
    v = UInt64.ofInt z := by
  have hk : Kind.uint64.category = .uint := rfl
  have hrange := (narrowUint_residue hk v).1
  have hrange' := (narrowUint_residue hk (UInt64.ofInt z)).1
  exact UInt64.toNat_inj.1 (Int.ofNat_inj.1
    (hrange.eq_of_modEq (.inr hk) hrange' (h.trans (toNat_ofInt_modEq z).symm)))

/-- **Arithmetic on words with a sign** gives the word for the mathematical result, cut to the
kind. -/
theorem intBinary_exact {op : BinaryOp} (hop : op.isIntArith = true) (k : Kind) (a b : Int64) :
    intBinary op k a b = match op.fault? b.toInt with
      | some e => .error e
      | none => .ok (narrowInt k (Int64.ofInt (op.exact a.toInt b.toInt))) := by
  have hzero : b.toInt = 0 ↔ b = 0 := by
    rw [← Int64.toInt_inj]
    rfl
  have hbits {v : Int64} {z : Int} (h : v.toBitVec.toInt = z) : v = Int64.ofInt z :=
    eq_ofInt (by rw [← Int64.toInt_toBitVec, h])
  cases op with
  | add | sub | mul =>
      simp only [intBinary, BinaryOp.fault?, BinaryOp.exact, Int64.ofInt_add, Int64.ofInt_sub,
        Int64.ofInt_mul, Int64.ofInt_toInt]
  | div =>
      have hdiv : a / b = Int64.ofInt (a.toInt.tdiv b.toInt) :=
        eq_ofInt (by rw [Int64.toInt_div]; exact Int.bmod_emod)
      simp only [intBinary, BinaryOp.fault?, BinaryOp.exact, hzero, hdiv]
      split <;> rfl
  | rem =>
      have hrem : a % b = Int64.ofInt (a.toInt.tmod b.toInt) :=
        eq_ofInt (by rw [Int64.toInt_mod])
      simp only [intBinary, BinaryOp.fault?, BinaryOp.exact, hzero, hrem]
      split <;> rfl
  | and =>
      have hand : a &&& b = Int64.ofInt (Int.land a.toInt b.toInt) :=
        hbits (Word.toInt_and a.toBitVec b.toBitVec)
      simp only [intBinary, BinaryOp.fault?, BinaryOp.exact, hand]
  | or =>
      have hor : a ||| b = Int64.ofInt (Int.lor a.toInt b.toInt) :=
        hbits (Word.toInt_or a.toBitVec b.toBitVec)
      simp only [intBinary, BinaryOp.fault?, BinaryOp.exact, hor]
  | xor =>
      have hxor : a ^^^ b = Int64.ofInt (Int.xor a.toInt b.toInt) :=
        hbits (Word.toInt_xor a.toBitVec b.toBitVec)
      simp only [intBinary, BinaryOp.fault?, BinaryOp.exact, hxor]
  | andNot =>
      have handNot : a &&& ~~~b = Int64.ofInt (Int.ldiff a.toInt b.toInt) :=
        hbits (Word.toInt_andNot a.toBitVec b.toBitVec (by decide))
      simp only [intBinary, BinaryOp.fault?, BinaryOp.exact, handNot]
  | _ => cases hop

/-- **Arithmetic on words without a sign** gives the word for the mathematical result, cut to the
kind. -/
theorem uintBinary_exact {op : BinaryOp} (hop : op.isIntArith = true) (k : Kind) (a b : UInt64) :
    uintBinary op k a b = match op.fault? b.toNat with
      | some e => .error e
      | none => .ok (narrowUint k (UInt64.ofInt (op.exact a.toNat b.toNat))) := by
  have hself (v : UInt64) : UInt64.ofInt v.toNat = v := (eq_ofInt_uint rfl).symm
  have hzero : (b.toNat : Int) = 0 ↔ b = 0 := by
    rw [Int.natCast_eq_zero, ← UInt64.toNat_inj]
    rfl
  cases op with
  | add | mul =>
      simp only [uintBinary, BinaryOp.fault?, BinaryOp.exact, UInt64.ofInt_add, UInt64.ofInt_mul,
        hself]
  | sub =>
      simp only [uintBinary, BinaryOp.fault?, BinaryOp.exact, Int.sub_eq_add_neg, UInt64.ofInt_add,
        UInt64.ofInt_neg, UInt64.sub_eq_add_neg, hself]
  | div =>
      have hdiv : a / b = UInt64.ofInt ((a.toNat : Int).tdiv b.toNat) :=
        eq_ofInt_uint (by rw [UInt64.toNat_div]; rfl)
      simp only [uintBinary, BinaryOp.fault?, BinaryOp.exact, hzero, hdiv]
      split <;> rfl
  | rem =>
      have hrem : a % b = UInt64.ofInt ((a.toNat : Int).tmod b.toNat) :=
        eq_ofInt_uint (by rw [UInt64.toNat_mod]; rfl)
      simp only [uintBinary, BinaryOp.fault?, BinaryOp.exact, hzero, hrem]
      split <;> rfl
  | and =>
      have hand : a &&& b = UInt64.ofInt (Int.land a.toNat b.toNat) :=
        eq_ofInt_uint (by rw [UInt64.toNat_and]; rfl)
      simp only [uintBinary, BinaryOp.fault?, BinaryOp.exact, hand]
  | or =>
      have hor : a ||| b = UInt64.ofInt (Int.lor a.toNat b.toNat) :=
        eq_ofInt_uint (by rw [UInt64.toNat_or]; rfl)
      simp only [uintBinary, BinaryOp.fault?, BinaryOp.exact, hor]
  | xor =>
      have hxor : a ^^^ b = UInt64.ofInt (Int.xor a.toNat b.toNat) :=
        eq_ofInt_uint (by rw [UInt64.toNat_xor]; rfl)
      simp only [uintBinary, BinaryOp.fault?, BinaryOp.exact, hxor]
  | andNot =>
      have handNot : a &&& ~~~b = UInt64.ofInt (Int.ldiff a.toNat b.toNat) :=
        eq_ofInt_uint (congrArg (· % 2 ^ 64) (Word.toNat_andNot a.toBitVec b.toBitVec))
      simp only [uintBinary, BinaryOp.fault?, BinaryOp.exact, handNot]
  | _ => cases hop

/-! ### Shifts -/

/-- A shift to the right by as many digits as there are leaves the sign, as any longer one does. -/
theorem shiftRight_min {a : Int} (ha : -2 ^ 127 ≤ a ∧ a < 2 ^ 127) (n : Nat) :
    a >>> min n 127 = a.fdiv (2 ^ n) := by
  have hfloor (n : Nat) : a >>> n = a.fdiv (2 ^ n) := by
    rw [Int.fdiv_eq_ediv_of_nonneg _ (by positivity), Int.shiftRight_eq_div_pow]
    norm_cast
  rw [← hfloor n]
  rcases Nat.le_total n 127 with hn | hn
  · rw [Nat.min_eq_left hn]
  · have hpow : (2 : Int) ^ 127 ≤ 2 ^ n := pow_le_pow_right₀ (by decide) hn
    rw [Nat.min_eq_right hn, shiftRight_wide (by omega) (by omega),
      shiftRight_wide (by omega) (by omega)]

/-- **Shifts of what fits a signed kind** give the word for the mathematical result, cut to the
kind. -/
theorem shiftInt_exact {op : BinaryOp} (hop : op.isShift = true) (hk : k.category = .int)
    {a : Int64} (ha : k.InRange a.toInt) {n : Nat} (hn : n < 2 ^ 64) :
    shiftInt op k a (UInt64.ofNat n) = narrowInt k (Int64.ofInt (op.exact a.toInt n)) := by
  cases op with
  | shl =>
      have h := shiftInt_shl k a.toInt hn
      rw [Int64.ofInt_toInt, narrowInt_of_inRange hk ha, Int.shiftLeft_eq] at h
      exact h
  | shr =>
      have hwide := ha.signed hk
      have h := shiftInt_shr k hwide hn
      rw [Int64.ofInt_toInt, shiftRight_min (by omega)] at h
      exact h
  | _ => cases hop

/-- **Shifts of what fits an unsigned kind** give the word for the mathematical result, cut to the
kind. -/
theorem shiftUint_exact {op : BinaryOp} (hop : op.isShift = true) (hk : k.category = .uint)
    {a : UInt64} (ha : k.InRange a.toNat) {n : Nat} (hn : n < 2 ^ 64) :
    shiftUint op k a (UInt64.ofNat n) = narrowUint k (UInt64.ofInt (op.exact a.toNat n)) := by
  have hself : UInt64.ofInt a.toNat = a := (eq_ofInt_uint rfl).symm
  cases op with
  | shl =>
      have h := shiftUint_shl k a.toNat hn
      rw [hself, narrowUint_of_inRange hk ha, Int.shiftLeft_eq] at h
      exact h
  | shr =>
      have hwide := ha.unsigned hk
      have h := shiftUint_shr k hwide hn
      rw [hself, shiftRight_min (by omega)] at h
      exact h
  | _ => cases hop

/-- A count is an integer that is not negative. -/
theorem shiftCount_stands {k : Kind} {v : Value} {n : Int} (h : k.Stands v n) :
    shiftCount v = if n < 0 then .error .negativeShift else .ok (UInt64.ofNat n.toNat) := by
  cases h with
  | signed hk hx =>
      rename_i x
      have hneg : x < 0 ↔ x.toInt < 0 := Int64.lt_iff_toInt_lt
      rw [shiftCount]
      simp only [hneg]
      split
      · rfl
      · have hword : x.toUInt64 = UInt64.ofNat x.toInt.toNat := by
          have hbits := BitVec.toInt_eq_toNat_cond x.toBitVec
          have hlt := x.toBitVec.isLt
          rw [Int64.toInt_toBitVec] at hbits
          apply UInt64.toNat_inj.1
          rw [UInt64.toNat_ofNat', ← UInt64.toNat_toBitVec, Int64.toBitVec_toUInt64]
          split at hbits <;> omega
        rw [hword]
  | unsigned hk hx =>
      rename_i x
      rw [shiftCount, if_neg (by omega), Int.toNat_natCast, UInt64.ofNat_toNat]

/-! ### Operators on values -/

namespace Kind.Stands

variable {k' : Kind} {op : BinaryOp} {a b : Value} {x y : Int}

/-- Only integer kinds have values that stand for integers. -/
theorem category (h : k.Stands a x) : k.category = .int ∨ k.category = .uint := by
  cases h with
  | signed hk => exact .inl hk
  | unsigned hk => exact .inr hk

/-- Values of integer kinds fit words. -/
theorem lt (h : k.Stands a x) : x < 2 ^ 64 := by
  cases h with
  | signed hk hx => exact (hx.signed hk).2.trans (by decide)
  | unsigned hk hx => exact (hx.unsigned hk).2

/-- Arithmetic cuts the mathematical result to the kind. -/
theorem arithmetic (ha : k.Stands a x) (hb : k.Stands b y) (hop : op.isIntArith = true) :
    binaryValues op k a b = match op.fault? y with
      | some e => .error e
      | none => .ok (k.wrap (op.exact x y)) := by
  cases ha with
  | signed hk hx =>
      cases hb with
      | signed =>
          rw [(binaryValues_arith hop k).1, intBinary_exact hop, wrap, if_pos hk]
          cases op.fault? _ <;> rfl
      | unsigned hk' =>
          rw [hk] at hk'
          cases hk'
  | unsigned hk hx =>
      cases hb with
      | signed hk' =>
          rw [hk] at hk'
          cases hk'
      | unsigned =>
          rw [(binaryValues_arith hop k).2, uintBinary_exact hop, wrap, if_neg (by simp [hk])]
          cases op.fault? _ <;> rfl

/-- Shifts by a count of any integer kind cut the mathematical result to the kind. -/
theorem shift (ha : k.Stands a x) (hb : k'.Stands b y) (hop : op.isShift = true) :
    binaryValues op k a b = match op.fault? y with
      | some e => .error e
      | none => .ok (k.wrap (op.exact x y)) := by
  have hfault : op.fault? y = if y < 0 then some .negativeShift else none := by
    cases op with
    | shl | shr => rfl
    | _ => cases hop
  have hcomparison : op.isComparison = false := by
    cases op with
    | shl | shr => rfl
    | _ => cases hop
  have hlt := hb.lt
  simp only [hfault, binaryValues, hcomparison, hop, Bool.false_eq_true, if_false, if_true,
    shiftCount_stands hb]
  split
  · rfl
  · obtain ⟨n, rfl⟩ := Int.eq_ofNat_of_zero_le (show 0 ≤ y by omega)
    have hn : n < 2 ^ 64 := by omega
    cases ha with
    | signed hk hx =>
        change Except.ok (Value.int (shiftInt op k _ (UInt64.ofNat n))) = _
        rw [shiftInt_exact hop hk hx hn, wrap, if_pos hk]
    | unsigned hk hx =>
        change Except.ok (Value.uint (shiftUint op k _ (UInt64.ofNat n))) = _
        rw [shiftUint_exact hop hk hx hn, wrap, if_neg (by simp [hk])]

end Kind.Stands

/-- **Integer operators are exact modulo the width.**  On operands in the range of their kind, the
count of a shift being of any integer kind, an operator fails when the divisor is zero or the count
negative.  Otherwise it gives the one value in range whose residue is that of the mathematical
result. -/
theorem binaryValues_exact {k k' : Kind} {op : BinaryOp} {a b : Value} {x y : Int}
    (hop : op.isIntArith = true ∧ k' = k ∨ op.isShift = true) (ha : k.Stands a x)
    (hb : k'.Stands b y) :
    match op.fault? y with
    | some e => binaryValues op k a b = .error e
    | none => ∃ c r, binaryValues op k a b = .ok c ∧ k.Stands c r ∧
        ∀ i, i = r ↔ k.InRange i ∧ i ≡ op.exact x y [ZMOD 2 ^ k.bits] := by
  have hresult : binaryValues op k a b = match op.fault? y with
      | some e => .error e
      | none => .ok (k.wrap (op.exact x y)) := by
    rcases hop with ⟨harith, rfl⟩ | hshift
    · exact ha.arithmetic hb harith
    · exact ha.shift hb hshift
  cases hfault : op.fault? y with
  | some e => rw [hresult, hfault]
  | none =>
      obtain ⟨r, hr⟩ := stands_wrap ha.category (op.exact x y)
      exact ⟨_, r, by rw [hresult, hfault], hr⟩

/-- The least number of eight bits has no quotient by minus one in range: it is its own residue. -/
theorem leastQuotient_exact :
    Kind.int8.Stands (.int (-128)) (-128) ∧ Kind.int8.Stands (.int (-1)) (-1) ∧
      ∃ c r, binaryValues .div .int8 (.int (-128)) (.int (-1)) = .ok c ∧ Kind.int8.Stands c r ∧
        ∀ i, i = r ↔ Kind.int8.InRange i ∧ i ≡ 128 [ZMOD 2 ^ Kind.int8.bits] := by
  have hleast : Kind.int8.Stands (.int (-128)) (-128) := .signed rfl (by decide)
  have hminus : Kind.int8.Stands (.int (-1)) (-1) := .signed rfl (by decide)
  have hdiv : BinaryOp.div.isIntArith = true ∧ Kind.int8 = Kind.int8 := ⟨rfl, rfl⟩
  exact ⟨hleast, hminus, binaryValues_exact (.inl hdiv) hleast hminus⟩

example : binaryValues .div .int8 (.int (-128)) (.int (-1)) = .ok (.int (-128)) := by rfl

end ScriptCore
