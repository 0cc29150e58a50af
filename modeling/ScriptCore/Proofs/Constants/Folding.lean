import ScriptCore.Proofs.Values.Arithmetic

/-!
# Folding of integer constants

Constants without a type are integers of 128 bits with a sign.  An operator on them should give the
mathematical result where it fits 128 bits, and an overflow where it does not.  That is so but for
three slips, which `BinaryOp.Slips` lists: the remainder whose quotient overflows, shifts of zero
(or of minus one) to the left by a count that is refused before the result is looked at, and counts
of 2 ^ 32 or more, which are taken for negative ones.

Main statement: `Constant.folding_exact`, which shows that the list is complete and that every entry
is needed.
-/

namespace ScriptCore

namespace Constant

/-- The integer fits 128 bits with a sign. -/
def InRange (i : Int) : Prop :=
  -2 ^ 127 ≤ i ∧ i < 2 ^ 127

/-- Fitting is a matter of two comparisons. -/
instance (i : Int) : Decidable (InRange i) :=
  inferInstanceAs (Decidable (_ ∧ _))

/-- An integer constant if the integer fits, and otherwise an overflow of the expression. -/
def outcome (expression : String) (i : Int) : Except Fault Constant :=
  if InRange i then .ok (int i) else .error (.constantOverflow expression "untyped int")

/-- Text of an operation on two integers. -/
def operation (op : BinaryOp) (a b : Int) : String :=
  toString a ++ " " ++ op.symbol ++ " " ++ toString b

end Constant

/-- Operations whose result is lost although it is in range, or whose error is the wrong one. -/
def BinaryOp.Slips (op : BinaryOp) (a b : Int) : Prop :=
  op = .rem ∧ a = -2 ^ 127 ∧ b = -1 ∨
    op = .shl ∧ 127 ≤ b ∧ (a = 0 ∨ a = -1 ∧ b = 127) ∨
    op.isShift = true ∧ 2 ^ 32 ≤ b

namespace Constant

variable {op : BinaryOp} {a b i : Int}

/-! ### The check of results -/

/-- Results are checked for 128 bits. -/
theorem fits128_iff : fits128 i = true ↔ InRange i := by
  rw [fits128, Bool.and_eq_true, decide_eq_true_iff, decide_eq_true_iff, InRange]
  omega

/-- A checked result is the outcome. -/
theorem checked_eq (expression : String) (i : Int) :
    checked expression i = outcome expression i := by
  rw [checked, outcome]
  simp only [fits128_iff]

/-- The outcome that is in range. -/
theorem outcome_of_inRange (h : InRange i) (expression : String) :
    outcome expression i = .ok (int i) :=
  if_pos h

/-! ### Bitwise operators -/

/-- A word for what fits it. -/
theorem toInt_ofInt (h : InRange i) : (BitVec.ofInt 128 i).toInt = i := by
  obtain ⟨hlow, hhigh⟩ := h
  exact BitVec.toInt_ofInt_eq_self (by decide) hlow hhigh

/-- What a word stands for fits. -/
theorem inRange_toInt (x : BitVec 128) : InRange x.toInt :=
  ⟨BitVec.le_toInt x, BitVec.toInt_lt⟩

/-- A bitwise operator that computes the result on words gives it for integers that fit. -/
theorem bitwise_exact {f : BitVec 128 → BitVec 128 → BitVec 128} (ha : InRange a) (hb : InRange b)
    (hf : ∀ x y, (f x y).toInt = op.exact x.toInt y.toInt) (expression : String) :
    .ok (bitwise f a b) = outcome expression (op.exact a b) := by
  have hresult := hf (BitVec.ofInt 128 a) (BitVec.ofInt 128 b)
  rw [toInt_ofInt ha, toInt_ofInt hb] at hresult
  rw [bitwise, hresult, outcome_of_inRange]
  exact hresult ▸ inRange_toInt _

/-! ### Quotients and remainders -/

/-- A quotient fits unless it is that of the least integer by minus one. -/
theorem inRange_tdiv (ha : InRange a) (hne : ¬(a = -2 ^ 127 ∧ b = -1)) : InRange (a.tdiv b) := by
  obtain ⟨hlow, hhigh⟩ := ha
  by_cases hb : 2 ≤ b.natAbs
  · have hhalf : (a.tdiv b).natAbs ≤ a.natAbs / 2 := by
      rw [Int.natAbs_tdiv]
      exact Nat.div_le_div_left hb (by decide)
    exact ⟨by omega, by omega⟩
  · obtain rfl | rfl | rfl : b = 0 ∨ b = 1 ∨ b = -1 := by omega
    · rw [Int.tdiv_zero]
      decide
    · rw [Int.tdiv_one]
      exact ⟨hlow, hhigh⟩
    · rw [Int.tdiv_neg, Int.tdiv_one]
      exact ⟨by omega, by omega⟩

/-- A remainder fits. -/
theorem inRange_tmod (ha : InRange a) : InRange (a.tmod b) := by
  obtain ⟨hlow, hhigh⟩ := ha
  have hle : (a.tmod b).natAbs ≤ a.natAbs := by
    rw [Int.natAbs_tmod]
    exact Nat.mod_le _ _
  -- it has the sign of the dividend
  rcases Int.le_total 0 a with hnonneg | hneg
  · have hsign := Int.tmod_nonneg b hnonneg
    exact ⟨by omega, by omega⟩
  · have hsign := Int.tmod_nonneg b (Int.neg_nonneg_of_nonpos hneg)
    rw [Int.neg_tmod] at hsign
    exact ⟨by omega, by omega⟩

/-! ### Operators -/

/-- Arithmetic but for remainders has the mathematical outcome. -/
theorem intBinary_exact (hop : op.isIntArith = true) (hrem : op ≠ .rem) (ha : InRange a)
    (hb : InRange b) (hdefined : op.fault? b = none) :
    intBinary op a b = outcome (operation op a b) (op.exact a b) := by
  cases op with
  | add | sub | mul => exact checked_eq _ _
  | and => exact bitwise_exact ha hb Word.toInt_and _
  | or => exact bitwise_exact ha hb Word.toInt_or _
  | xor => exact bitwise_exact ha hb Word.toInt_xor _
  | andNot => exact bitwise_exact ha hb (fun x y => Word.toInt_andNot x y (by decide)) _
  | div =>
      have hne : b ≠ 0 := by simpa [BinaryOp.fault?] using hdefined
      rw [intBinary, if_neg hne]
      exact checked_eq _ _
  | rem => exact absurd rfl hrem
  | _ => cases hop

/-- A remainder is found unless its quotient overflows. -/
theorem intBinary_rem (ha : InRange a) (hb : b ≠ 0) :
    intBinary .rem a b = if a = -2 ^ 127 ∧ b = -1
      then .error (.constantOverflow (operation .rem a b) "untyped int")
      else .ok (int (a.tmod b)) := by
  rw [intBinary, if_neg hb]
  change (do let _ ← checked (operation .rem a b) (a.tdiv b); return int (a.tmod b)) = _
  rw [checked_eq]
  split
  · rename_i hleast
    obtain ⟨rfl, rfl⟩ := hleast
    rfl
  · rename_i hleast
    rw [outcome_of_inRange (inRange_tdiv ha hleast)]
    rfl

/-- **Arithmetic** has the mathematical outcome, with the exception of one remainder. -/
theorem arithmetic_exact_iff (hop : op.isIntArith = true) (ha : InRange a) (hb : InRange b)
    (hdefined : op.fault? b = none) :
    binary op (int a) (int b) = outcome (operation op a b) (op.exact a b) ↔ ¬ op.Slips a b := by
  have hshift : op.isShift = false := by
    cases op <;> first | rfl | cases hop
  have hshl : op ≠ .shl := by
    rintro rfl
    cases hop
  rw [binary, if_neg (by simp [hshift])]
  by_cases hrem : op = .rem
  · subst hrem
    have hne : b ≠ 0 := by simpa [BinaryOp.fault?] using hdefined
    simp only [intBinary_rem ha hne, BinaryOp.exact, outcome_of_inRange (inRange_tmod ha),
      BinaryOp.Slips, hshift, Bool.false_eq_true, reduceCtorEq, false_and, or_false, true_and]
    split <;> simp_all
  · rw [intBinary_exact hop hrem ha hb hdefined]
    simp [BinaryOp.Slips, hrem, hshl, hshift]

/-- A shift to the left by 127 or more fits only if nothing is shifted out. -/
theorem inRange_shl_iff {n : Nat} (hn : 127 ≤ n) :
    InRange (a * 2 ^ n) ↔ a = 0 ∨ a = -1 ∧ n = 127 := by
  have hpow : (2 : Int) ^ 127 ≤ 2 ^ n := pow_le_pow_right₀ (by decide) hn
  constructor
  · rintro ⟨hlow, hhigh⟩
    have hneg : -1 ≤ a := by
      by_contra hlt
      nlinarith
    have hpos : a ≤ 0 := by
      by_contra hlt
      nlinarith
    rcases (by omega : a = 0 ∨ a = -1) with rfl | rfl
    · exact .inl rfl
    · refine .inr ⟨rfl, ?_⟩
      by_contra hne
      have hpow' : (2 : Int) ^ 128 ≤ 2 ^ n := pow_le_pow_right₀ (by decide) (by omega)
      omega
  · rintro (rfl | ⟨rfl, rfl⟩)
    · rw [Int.zero_mul]
      decide
    · decide

/-- Text of a shift to the left. -/
theorem operation_shl (a b : Int) :
    operation .shl a b = toString a ++ " << " ++ toString b := by
  have hsymbol : " " ++ BinaryOp.shl.symbol ++ " " = " << " := rfl
  rw [operation, ← hsymbol]
  simp only [String.append_assoc]

/-- A shift by a count that is not negative. -/
theorem shift_count (op : BinaryOp) (a : Int) (n : Nat) :
    shift op (int a) (int n) =
      if 2 ^ 32 ≤ n then .error (.invalidOperation op.symbol "negative shift count")
      else if op = .shl then
        if n < 127 then outcome (operation .shl a n) (a * 2 ^ n)
        else .error (.constantOverflow (operation .shl a n) "untyped int")
      else .ok (int (a >>> min n 127)) := by
  have hsize : ((n : Int) < 0 ∨ (UInt32.size : Int) ≤ n) ↔ 2 ^ 32 ≤ n := by
    have h : UInt32.size = 2 ^ 32 := rfl
    omega
  have hsmall : (n : Int) < 127 ↔ n < 127 := by omega
  simp only [shift, asInt?, hsize, hsmall, fits128_iff, Int.toNat_natCast, Int.shiftLeft_eq,
    operation_shl, outcome]
  split
  · rfl
  · split
    · by_cases hn : n < 127
      · simp only [hn, true_and, if_true]
      · rw [if_neg hn, if_neg (fun h => hn h.1)]
    · rfl

/-- **Shifts** have the mathematical outcome unless the count is in the way. -/
theorem shift_exact_iff (hop : op.isShift = true) (ha : InRange a)
    (hdefined : op.fault? b = none) :
    binary op (int a) (int b) = outcome (operation op a b) (op.exact a b) ↔ ¬ op.Slips a b := by
  have hnonneg : 0 ≤ b := by
    cases op with
    | shl | shr => simpa [BinaryOp.fault?] using hdefined
    | _ => cases hop
  obtain ⟨n, rfl⟩ := Int.eq_ofNat_of_zero_le hnonneg
  rw [binary, if_pos hop, shift_count]
  by_cases hlarge : 2 ^ 32 ≤ n
  · -- the error is that of a negative count, whatever the result
    have hslips : op.Slips a n := .inr (.inr ⟨hop, by omega⟩)
    rw [if_pos hlarge]
    simp only [hslips, not_true_eq_false, iff_false]
    unfold outcome
    split <;> simp
  · rw [if_neg hlarge]
    cases op with
    | shl =>
        have hslips : BinaryOp.shl.Slips a n ↔ 127 ≤ n ∧ (a = 0 ∨ a = -1 ∧ n = 127) := by
          simp only [BinaryOp.Slips, reduceCtorEq, false_and, true_and, false_or]
          omega
        rw [if_pos rfl, BinaryOp.exact, Int.toNat_natCast, hslips]
        by_cases hn : n < 127
        · rw [if_pos hn]
          exact iff_of_true rfl (by omega)
        · rw [if_neg hn, ← inRange_shl_iff (by omega), outcome]
          split <;> simp_all
    | shr =>
        have hslips : ¬ BinaryOp.shr.Slips a n := by
          simp only [BinaryOp.Slips, reduceCtorEq, false_and, false_or]
          omega
        have hfits : InRange (a.fdiv (2 ^ n)) := by
          have hbounds := shiftRight_bounds a (min n 127)
          rw [shiftRight_min ha] at hbounds
          have hlow := ha.1
          have hhigh := ha.2
          exact ⟨by omega, by omega⟩
        rw [if_neg (by decide), BinaryOp.exact, Int.toNat_natCast, shiftRight_min ha,
          outcome_of_inRange hfits]
        exact iff_of_true rfl hslips
    | _ => cases hop

/-- **Unary operators** have the mathematical outcome. -/
theorem unary_exact {op : UnaryOp} (hop : op ≠ .not) (ha : InRange a) :
    unary op (int a) = outcome (op.symbol ++ toString a) (op.exact a) := by
  cases op with
  | plus => exact (outcome_of_inRange ha _).symm
  | neg => exact checked_eq _ _
  | bitNot =>
      have hlnot : InRange (Int.lnot a) := by
        rw [lnot_eq]
        exact ⟨by have := ha.2; omega, by have := ha.1; omega⟩
      rw [UnaryOp.exact, outcome_of_inRange hlnot, lnot_eq, unary]
  | not => exact absurd rfl hop

/-- **Folding is exact, but for the operations that slip.**  On integers of 128 bits, a binary
operator that is defined there has the mathematical outcome exactly when the operation is none of
those that slip, and every unary operator has it. -/
theorem folding_exact (ha : InRange a) (hb : InRange b) :
    (∀ op : BinaryOp, op.isIntegral = true → op.fault? b = none →
      (binary op (int a) (int b) = outcome (operation op a b) (op.exact a b) ↔ ¬ op.Slips a b)) ∧
    ∀ op : UnaryOp, op ≠ .not →
      unary op (int a) = outcome (op.symbol ++ toString a) (op.exact a) := by
  refine ⟨fun op hop hdefined => ?_, fun op hop => unary_exact hop ha⟩
  rcases Bool.or_eq_true _ _ ▸ hop with harith | hshift
  · exact arithmetic_exact_iff harith ha hb hdefined
  · exact shift_exact_iff hshift ha hdefined

/-- The quotient of the least integer by minus one overflows, and so does its remainder, which
slips. -/
theorem leastInteger_folding :
    InRange (-2 ^ 127) ∧ InRange (-1) ∧
      binary .div (int (-2 ^ 127)) (int (-1)) =
        outcome (operation .div (-2 ^ 127) (-1)) (2 ^ 127) ∧
      binary .rem (int (-2 ^ 127)) (int (-1)) ≠ outcome (operation .rem (-2 ^ 127) (-1)) 0 ∧
      unary .neg (int (-2 ^ 127)) = outcome ("-" ++ toString (-2 ^ 127 : Int)) (2 ^ 127) := by
  have hleast : InRange (-2 ^ 127) := by decide
  have hminus : InRange (-1) := by decide
  obtain ⟨hbinary, hunary⟩ := folding_exact hleast hminus
  have hslips : BinaryOp.rem.Slips (-2 ^ 127) (-1) := .inl ⟨rfl, rfl, rfl⟩
  refine ⟨hleast, hminus, (hbinary .div rfl rfl).2 ?_, fun h => (hbinary .rem rfl rfl).1 h hslips,
    hunary .neg (by decide)⟩
  simp [BinaryOp.Slips, BinaryOp.isShift]

/-- Three results that are zero, and so in range, but are refused: the remainder of the least
integer by minus one, zero shifted to the left by 127, and one shifted to the right by `2 ^ 32`. -/
theorem zero_refused :
    (BinaryOp.rem.exact (-2 ^ 127) (-1) = 0 ∧ binary .rem (int (-2 ^ 127)) (int (-1)) =
      .error (.constantOverflow (operation .rem (-2 ^ 127) (-1)) "untyped int")) ∧
    (BinaryOp.shl.exact 0 127 = 0 ∧ binary .shl (int 0) (int 127) =
      .error (.constantOverflow (operation .shl 0 127) "untyped int")) ∧
    BinaryOp.shr.exact 1 (2 ^ 32) = 0 ∧ binary .shr (int 1) (int (2 ^ 32)) =
      .error (.invalidOperation ">>" "negative shift count") := by
  refine ⟨⟨by decide, ?_⟩, ⟨by decide, ?_⟩, ?_, ?_⟩
  · exact (intBinary_rem (by decide) (by decide)).trans (if_pos ⟨rfl, rfl⟩)
  · exact shift_count .shl 0 127
  · have hpow : (1 : Int) < 2 ^ (2 ^ 32 : Int).toNat := one_lt_pow₀ (by decide) (by decide)
    rw [BinaryOp.exact, Int.fdiv_eq_ediv_of_nonneg _ (by positivity)]
    exact Int.ediv_eq_zero_of_lt (by decide) hpow
  · exact (shift_count .shr 1 (2 ^ 32)).trans (if_pos (Nat.le_refl _))

end Constant

end ScriptCore
