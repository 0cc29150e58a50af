import Mathlib.Data.Int.Bitwise
import ScriptCore.Values.Error

/-!
# What operators on integers mean

The mathematical result of an operator on integers: quotients are cut towards zero and have the
remainder that belongs to them, shifts are products with powers of two and floors of quotients by
them, and bitwise operators work on two's complement, in which an integer has a binary digit at
every position.

The bits of a word are the digits of the integer that it stands for, and its sign is the digit at
all further positions.  So an operator on the bits of two words gives the word for the result.

Main statements: `Word.testBit_toInt` and `Word.toInt_and` with the lemmas for the other operators.
-/

namespace ScriptCore

/-! ### Results and faults -/

/-- The operators that integers have, apart from comparisons. -/
def BinaryOp.isIntegral (op : BinaryOp) : Bool :=
  op.isIntArith || op.isShift

/-- The mathematical result of an operator on integers. -/
def BinaryOp.exact (op : BinaryOp) (x y : Int) : Int :=
  match op with
  | .add => x + y
  | .sub => x - y
  | .mul => x * y
  | .div => x.tdiv y
  | .rem => x.tmod y
  | .and => Int.land x y
  | .or => Int.lor x y
  | .xor => Int.xor x y
  | .andNot => Int.ldiff x y
  | .shl => x * 2 ^ y.toNat
  | .shr => x.fdiv (2 ^ y.toNat)
  | _ => 0

/-- Why an operator has no result for a second operand. -/
def BinaryOp.fault? (op : BinaryOp) (y : Int) : Option EvalError :=
  match op with
  | .div | .rem => if y = 0 then some .divisionByZero else none
  | .shl | .shr => if y < 0 then some .negativeShift else none
  | _ => none

/-- The mathematical result of an operator on an integer. -/
def UnaryOp.exact (op : UnaryOp) (x : Int) : Int :=
  match op with
  | .plus => x
  | .neg => -x
  | .bitNot => Int.lnot x
  | .not => 0

/-! ### Digits of integers -/

namespace Word

/-- The digits of an integer far enough to the left are those of its sign. -/
theorem testBit_of_large (i : Int) {n : Nat} (h : i.natAbs < 2 ^ n) :
    i.testBit n = decide (i < 0) := by
  cases i with
  | ofNat m =>
      have hm : m < 2 ^ n := h
      have hsign : ¬ Int.ofNat m < 0 := Int.not_lt.2 (Int.natCast_nonneg m)
      rw [decide_eq_false hsign]
      exact Nat.testBit_lt_two_pow hm
  | negSucc m =>
      have hm : m + 1 < 2 ^ n := h
      rw [decide_eq_true (Int.negSucc_lt_zero m)]
      change (!m.testBit n) = true
      rw [Nat.testBit_lt_two_pow (by omega), Bool.not_false]

/-- Integers with the same digits are equal. -/
theorem eq_of_testBit_eq {i j : Int} (h : ∀ n, i.testBit n = j.testBit n) : i = j := by
  -- their signs agree, as digits far to the left show
  have hsign : i < 0 ↔ j < 0 := by
    have hlarge (a b : Nat) : a < 2 ^ (a + b) :=
      a.lt_two_pow_self.trans_le (Nat.pow_le_pow_right (by decide) (by omega))
    have hn := h (i.natAbs + j.natAbs)
    rwa [testBit_of_large i (hlarge _ _),
      testBit_of_large j (Nat.add_comm i.natAbs j.natAbs ▸ hlarge _ _), decide_eq_decide] at hn
  cases i with
  | ofNat m =>
      cases j with
      | ofNat n => exact congrArg Int.ofNat (Nat.eq_of_testBit_eq h)
      | negSucc n => exact absurd (hsign.2 (Int.negSucc_lt_zero n)) (by simp)
  | negSucc m =>
      cases j with
      | ofNat n => exact absurd (hsign.1 (Int.negSucc_lt_zero m)) (by simp)
      | negSucc n =>
          refine congrArg Int.negSucc (Nat.eq_of_testBit_eq fun k => ?_)
          simpa [Int.testBit] using h k

variable {w : Nat} (x y : BitVec w)

/-- **The bits of a word are the digits of the integer it stands for.** -/
theorem testBit_toInt (n : Nat) :
    x.toInt.testBit n = if n < w then x.getLsbD n else x.msb := by
  have hlt := x.isLt
  rw [BitVec.toInt_eq_msb_cond]
  cases hmsb : x.msb with
  | false =>
      rw [if_neg (by decide)]
      split
      · rfl
      · rename_i hn
        exact x.getLsbD_of_ge n (by omega)
  | true =>
      -- the digits of a negative number are the flipped bits of its complement
      have hneg : (x.toNat : Int) - (2 ^ w : Nat) = Int.negSucc (~~~x).toNat := by
        rw [BitVec.toNat_not, Int.negSucc_eq]
        omega
      rw [if_pos rfl, hneg]
      change (!(~~~x).getLsbD n) = _
      rw [BitVec.getLsbD_not]
      split <;> simp_all

/-- Words with the digits of an integer stand for it. -/
theorem toInt_eq {i : Int} (hlow : ∀ n < w, x.getLsbD n = i.testBit n)
    (hhigh : ∀ n ≥ w, x.msb = i.testBit n) : x.toInt = i := by
  refine eq_of_testBit_eq fun n => ?_
  rw [testBit_toInt]
  split
  · exact hlow n ‹_›
  · exact hhigh n (by omega)

/-- Both bits. -/
theorem toInt_and : (x &&& y).toInt = Int.land x.toInt y.toInt := by
  refine toInt_eq _ (fun n hn => ?_) fun n hn => ?_
  · rw [Int.testBit_land, testBit_toInt, testBit_toInt, if_pos hn, if_pos hn, BitVec.getLsbD_and]
  · rw [Int.testBit_land, testBit_toInt, testBit_toInt, if_neg (by omega), if_neg (by omega),
      BitVec.msb_and]

/-- One of the bits. -/
theorem toInt_or : (x ||| y).toInt = Int.lor x.toInt y.toInt := by
  refine toInt_eq _ (fun n hn => ?_) fun n hn => ?_
  · rw [Int.testBit_lor, testBit_toInt, testBit_toInt, if_pos hn, if_pos hn, BitVec.getLsbD_or]
  · rw [Int.testBit_lor, testBit_toInt, testBit_toInt, if_neg (by omega), if_neg (by omega),
      BitVec.msb_or]

/-- Exactly one of the bits. -/
theorem toInt_xor : (x ^^^ y).toInt = Int.xor x.toInt y.toInt := by
  refine toInt_eq _ (fun n hn => ?_) fun n hn => ?_
  · rw [Int.testBit_lxor, testBit_toInt, testBit_toInt, if_pos hn, if_pos hn, BitVec.getLsbD_xor]
  · rw [Int.testBit_lxor, testBit_toInt, testBit_toInt, if_neg (by omega), if_neg (by omega),
      BitVec.msb_xor]

/-- The first bit without the second. -/
theorem toInt_andNot (hw : 0 < w) : (x &&& ~~~y).toInt = Int.ldiff x.toInt y.toInt := by
  refine toInt_eq _ (fun n hn => ?_) fun n hn => ?_
  · rw [Int.testBit_ldiff, testBit_toInt, testBit_toInt, if_pos hn, if_pos hn, BitVec.getLsbD_and,
      BitVec.getLsbD_not, decide_eq_true hn, Bool.true_and]
  · rw [Int.testBit_ldiff, testBit_toInt, testBit_toInt, if_neg (by omega), if_neg (by omega),
      BitVec.msb_and, BitVec.msb_not, decide_eq_true hw, Bool.true_and]

/-- The first bit without the second, for words without a sign. -/
theorem toNat_andNot : ((x &&& ~~~y).toNat : Int) = Int.ldiff x.toNat y.toNat := by
  refine congrArg Int.ofNat (Nat.eq_of_testBit_eq fun n => ?_)
  rw [Nat.testBit_ldiff]
  change (x &&& ~~~y).getLsbD n = (x.getLsbD n && !y.getLsbD n)
  rw [BitVec.getLsbD_and, BitVec.getLsbD_not]
  by_cases hn : n < w
  · rw [decide_eq_true hn, Bool.true_and]
  · rw [x.getLsbD_of_ge n (by omega), Bool.false_and, Bool.false_and]

end Word

/-- Flipped digits are a difference. -/
theorem lnot_eq (x : Int) : Int.lnot x = -x - 1 := by
  cases x with
  | ofNat m =>
      change Int.negSucc m = -(m : Int) - 1
      rw [Int.negSucc_eq]
      omega
  | negSucc m =>
      change (m : Int) = _
      rw [Int.negSucc_eq]
      omega

end ScriptCore
