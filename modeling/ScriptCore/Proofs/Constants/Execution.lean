import ScriptCore.Proofs.Straight.Expression

/-!
# Constants and variables that hold them

An expression over constants of an integer type is folded to a constant, in 128 bits and with a
check of every result.  The same expression over variables of that type is compiled to code, which
computes in 64 bits and cuts every result to the width of the type.  Where the first succeeds the
second gives the same value, without an error.

The invariant is `Tracks`: a folded operand and the code for its counterpart are an integer that
fits the type and code with the value of that integer, or a truth value and code with that value.

Main statement: `folded_evaluates`.
-/

namespace ScriptCore

namespace StraightLine

/-- Every integer kind is a kind of registers. -/
theorem exists_ofKind? {k : Kind} (h : k.category = .int ∨ k.category = .uint) :
    ∃ rk, ofKind? k = some rk := by
  cases k <;> first | exact ⟨_, rfl⟩ | simp [Kind.category] at h

/-- Integers can be compared. -/
theorem isComparable_of_ofKind? {t : TypeTable} {ty : Ty} {k : Registers.Kind}
    (h : ofKind? (t.kind ty) = some k) (home : Nat) : t.isComparable ⟨home, ty⟩ = true := by
  have hu := underlying_basic h
  cases ty with
  | basic => rfl
  | named id n p =>
      rw [TypeTable.underlying] at hu
      change (t.definition? id).all t.isLiteralComparable = true
      cases hd : t.definition? id with
      | none => rfl
      | some r =>
          rw [hd, Option.elim_some] at hu
          rw [Option.all_some, TypeTable.isLiteralComparable, hu]
  | _ => cases hu

end StraightLine

/-! ### Values that stand for integers -/

/-- Signed numbers are compared as integers. -/
theorem compare_toInt (x y : Int64) : compare x y = compare x.toInt y.toInt := by
  simp only [compare, compareOfLessAndEq, Int64.lt_iff_toInt_lt, Int64.toInt_inj]

/-- Unsigned numbers are compared as natural numbers. -/
theorem compare_toNat (x y : UInt64) : compare x y = compare x.toNat y.toNat := by
  simp only [compare, compareOfLessAndEq, UInt64.lt_iff_toNat_lt, UInt64.toNat_inj]

/-- Signed numbers are compared by their order. -/
theorem compareValues_int {op : BinaryOp} (hop : op.isComparison = true) (x y : Int64) :
    compareValues op (.int x) (.int y) = .ok (op.holds (some (compare x y))) := by
  have heq : (x == y) = (some (compare x y) == some .eq) := by
    rw [Bool.eq_iff_iff, beq_iff_eq, beq_iff_eq, Option.some.injEq, compare_toInt,
      compare_eq_iff_eq, Int64.toInt_inj]
  cases op with
  | eq => rw [compareValues, Value.same, BinaryOp.holds, heq]
  | notEq => rw [compareValues, Value.same, BinaryOp.holds, heq, bne]
  | lt | ltEq | gt | gtEq => rfl
  | _ => cases hop

/-- Unsigned numbers are compared by their order. -/
theorem compareValues_uint {op : BinaryOp} (hop : op.isComparison = true) (x y : UInt64) :
    compareValues op (.uint x) (.uint y) = .ok (op.holds (some (compare x y))) := by
  have heq : (x == y) = (some (compare x y) == some .eq) := by
    rw [Bool.eq_iff_iff, beq_iff_eq, beq_iff_eq, Option.some.injEq, compare_toNat,
      compare_eq_iff_eq, UInt64.toNat_inj]
  cases op with
  | eq => rw [compareValues, Value.same, BinaryOp.holds, heq]
  | notEq => rw [compareValues, Value.same, BinaryOp.holds, heq, bne]
  | lt | ltEq | gt | gtEq => rfl
  | _ => cases hop

namespace Registers.Kind

variable {k : Kind} {a b : Int}

/-- Integers that fit are compared as they are. -/
theorem compareValues_cast (hk : k.isInteger = true) {op : BinaryOp}
    (hop : op.isComparison = true) (ha : k.Holds a) (hb : k.Holds b) :
    compareValues op (k.cast a) (k.cast b) = .ok (op.holds (some (compare a b))) := by
  cases hsigned : k.isSigned with
  | true =>
      obtain ⟨hlowA, hhighA⟩ := ha.signed hsigned
      obtain ⟨hlowB, hhighB⟩ := hb.signed hsigned
      rw [k.cast_signed hsigned, k.cast_signed hsigned, narrowInt_ofInt ha, narrowInt_ofInt hb,
        compareValues_int hop, compare_toInt, Int64.toInt_ofInt_of_le hlowA hhighA,
        Int64.toInt_ofInt_of_le hlowB hhighB]
  | false =>
      have hunsigned := isUnsigned_of_not_signed hk hsigned
      obtain ⟨x, rfl⟩ := Int.eq_ofNat_of_zero_le (ha.unsigned hunsigned).1
      obtain ⟨y, rfl⟩ := Int.eq_ofNat_of_zero_le (hb.unsigned hunsigned).1
      have hcompare : compare x y = compare (x : Int) (y : Int) := by
        simp only [compare, compareOfLessAndEq, Int.ofNat_lt, Int.ofNat_inj]
      rw [k.cast_unsigned hsigned, k.cast_unsigned hsigned, narrowUint_ofInt ha,
        narrowUint_ofInt hb, compareValues_uint hop, compare_toNat,
        toNat_ofInt (ha.unsigned hunsigned), toNat_ofInt (hb.unsigned hunsigned),
        Int.toNat_natCast, Int.toNat_natCast, hcompare]

/-- A count that fits and is not negative. -/
theorem shiftCount_cast (ha : k.Holds a) (hnonneg : 0 ≤ a) :
    shiftCount (k.cast a) = .ok (UInt64.ofInt a) := by
  cases hsigned : k.isSigned with
  | true =>
      obtain ⟨hlow, hhigh⟩ := ha.signed hsigned
      have hneg : ¬ Int64.ofInt a < 0 := by
        rw [Int64.lt_iff_toInt_lt, Int64.toInt_ofInt_of_le hlow hhigh]
        exact Int.not_lt.2 hnonneg
      rw [k.cast_signed hsigned, narrowInt_ofInt ha, shiftCount, if_neg hneg]
      congr 1
      apply UInt64.toBitVec_inj.1
      rw [toBitVec_ofInt_uint]
      exact Int64.toBitVec_ofInt a
  | false =>
      rw [k.cast_unsigned hsigned, narrowUint_ofInt ha, shiftCount]

/-- Only the count matters for a shift. -/
theorem binaryValues_count {op : BinaryOp} (hop : op.isShift = true) {v w : Value}
    (h : shiftCount v = shiftCount w) :
    binaryValues op k.scalar (k.cast a) v = binaryValues op k.scalar (k.cast a) w := by
  have hcomparison : op.isComparison = false := by
    cases op with
    | shl | shr => rfl
    | _ => cases hop
  simp only [binaryValues, hcomparison, hop, Bool.false_eq_true, if_false, if_true, h]
  cases hsigned : k.isSigned with
  | true => rw [k.cast_signed hsigned]
  | false => rw [k.cast_unsigned hsigned]

/-- Flipping the bits of an unsigned kind. -/
theorem cast_flip (hk : k.isUnsigned = true) (a : Int) :
    k.cast (k.scalar.range.2 - a) = k.cast (-a - 1) := by
  have hsigned : k.isSigned = false := by cases k <;> first | rfl | cases hk
  rw [k.cast_unsigned hsigned, k.cast_unsigned hsigned]
  congr 1
  apply UInt64.toNat_inj.1
  cases k with
  | uint | uint8 | uint16 | uint32 | uint64 | uintptr =>
      simp [Registers.Kind.scalar, Kind.range, narrowUint, UInt64.ofInt]
      omega
  | _ => cases hk

end Registers.Kind

/-! ### Folded operands and their counterparts -/

namespace StraightLine

/-- Code of a category that has a value and leaves the machine alone. -/
structure Computes (r : Nat) (m : Machine) (e : Code.Typed) (category : Category) (v : Value) :
    Prop where
  category : e.category = category
  value : ∀ x, eval x r e.expr m = .ok v m

/-- A constant, folded at the type `ty` of the kind `k`, and code for the same value: an integer
that fits, or the truth value of a comparison. -/
inductive Tracks (k : Registers.Kind) (ty : Ty) (r : Nat) (m : Machine) : Term → Term → Prop where
  | int {i : Int} {e : Code.Typed} : k.Holds i →
    Computes r m e (if k.isSigned then .int else .uint) (k.cast i) →
      Tracks k ty r m (.const (.int i) (some ty)) (.code e ty)
  | bool {b : Bool} {e : Code.Typed} : Computes r m e .bool (.bool b) →
    Tracks k ty r m (.const (.bool b) none) (.code e (.basic .bool))

variable {t : TypeTable} {k : Registers.Kind} {ty : Ty} {r : Nat} {m : Machine}

/-- An integer that is checked against its type. -/
theorem ofConst_int (hty : ofKind? (t.kind ty) = some k) {i : Int} {w : Term}
    (h : Term.ofConst t (.int i) (some ty) = .ok w) :
    k.Holds i ∧ w = .const (.int i) (some ty) := by
  obtain ⟨d, hd, h⟩ := Compile.rules_ok h
  obtain ⟨rfl, hholds⟩ := represent_ok hty hd
  cases h
  exact ⟨hholds, rfl⟩

/-- Integers are folded to integers. -/
theorem unary_int {op : UnaryOp} {i : Int} {d : Constant}
    (h : Constant.unary op (.int i) = .ok d) : op ≠ .not ∧ ∃ j, d = .int j := by
  cases op with
  | not => cases h
  | plus | bitNot =>
      cases h
      exact ⟨by decide, _, rfl⟩
  | neg =>
      simp only [Constant.unary, Constant.checked] at h
      split at h
      · cases h
        exact ⟨by decide, _, rfl⟩
      · cases h

/-- A unary operator on a constant that is an integer of a type. -/
theorem unary_typed (hty : ofKind? (t.kind ty) = some k) {op : UnaryOp} {i : Int} {w : Term}
    (h : Term.unary t op (.const (.int i) (some ty)) = .ok w) :
    op ≠ .not ∧ ∃ j, k.Holds j ∧ w = .const (.int j) (some ty) ∧
      unaryValue op k.scalar (k.cast i) = .ok (k.cast j) := by
  have hfold (h : (Constant.unary op (.int i) >>= fun d => Term.ofConst t d (some ty)) = .ok w) :
      op ≠ .not ∧ ∃ j, k.Holds j ∧ w = .const (.int j) (some ty) ∧
        unaryValue op k.scalar (k.cast i) = .ok (k.cast j) := by
    obtain ⟨d, hd, h⟩ := Compile.rules_ok h
    obtain ⟨hop, j, rfl⟩ := unary_int hd
    obtain ⟨hholds, rfl⟩ := ofConst_int hty h
    exact ⟨hop, j, hholds, rfl, unary_cast k hd⟩
  cases op with
  | bitNot =>
      simp only [Term.unary] at h
      split at h
      · -- flipped within the width of the type, not in 128 bits
        rename_i hcategory
        have hunsigned : k.isUnsigned = true := by
          rw [category_eq hty] at hcategory
          refine Registers.Kind.isUnsigned_of_not_signed (ofKind?_isInteger hty) ?_
          cases hsigned : k.isSigned with
          | true => rw [hsigned] at hcategory; cases hcategory
          | false => rfl
        obtain ⟨hholds, rfl⟩ := ofConst_int hty h
        refine ⟨by decide, _, hholds, rfl, ?_⟩
        rw [← ofKind?_scalar hty, k.cast_flip hunsigned]
        exact unary_cast k rfl
      · exact hfold h
  | _ => exact hfold h

/-- The sign of a kind decides the category of its values. -/
theorem code_category {e : Code.Typed} {v : Value}
    (h : Computes r m e (if k.isSigned then .int else .uint) v) :
    e.category = .int ∨ e.category = .uint := by
  rw [h.category]
  cases k.isSigned
  · exact .inr rfl
  · exact .inl rfl

/-- A unary operator on code with a value. -/
theorem Computes.unary {e : Code.Typed} {category : Category} {v w : Value} {op : UnaryOp}
    {kind : Kind} (h : Computes r m e category v) (hw : unaryValue op kind v = .ok w) :
    Computes r m ⟨e.category, .unary op kind e.expr⟩ category w := by
  refine ⟨h.category, fun x => ?_⟩
  have hv : eval x r e.expr m = Run.check (.ok v) m := h.value x
  rw [eval, Run.bind_checked hv]
  change Run.check (unaryValue op kind v) m = _
  rw [hw]
  rfl

/-- A binary operator on code with values. -/
theorem Computes.binary {e f : Code.Typed} {category category' result : Category} {u v w : Value}
    {op : BinaryOp} {kind : Kind} (h : Computes r m e category u) (h' : Computes r m f category' v)
    (hw : binaryValues op kind u v = .ok w) :
    Computes r m ⟨result, .binary op kind e.expr f.expr⟩ result w := by
  refine ⟨rfl, fun x => ?_⟩
  have hu : eval x r e.expr m = Run.check (.ok u) m := h.value x
  have hv : eval x r f.expr m = Run.check (.ok v) m := h'.value x
  rw [eval, Run.bind_checked hu]
  change (eval x r f.expr >>= _) m = _
  rw [Run.bind_checked hv]
  change Run.check (binaryValues op kind u v) m = _
  rw [hw]
  rfl

/-- A unary operator. -/
theorem Tracks.unary (hty : ofKind? (t.kind ty) = some k) {op : UnaryOp} {z z' w : Term}
    (h : Tracks k ty r m z z') (hw : z.unary t op = .ok w) :
    ∃ w', z'.unary t op = .ok w' ∧ Tracks k ty r m w w' := by
  cases h with
  | @int i e hi hcode =>
      obtain ⟨hop, j, hj, rfl, hvalue⟩ := unary_typed hty hw
      rw [ofKind?_scalar hty] at hvalue
      have hcategory := code_category hcode
      have happlied := hcode.unary hvalue
      obtain ⟨category, expr⟩ := e
      cases op with
      | not => exact absurd rfl hop
      | plus =>
          have hsame : k.cast i = k.cast j := Except.ok.inj hvalue
          refine ⟨.code ⟨category, expr⟩ ty, ?_, .int hj (hsame ▸ hcode)⟩
          rcases hcategory with rfl | rfl <;> rfl
      | neg | bitNot =>
          refine ⟨_, ?_, .int hj happlied⟩
          rcases hcategory with rfl | rfl <;> rfl
  | @bool b e hcode =>
      obtain ⟨category, expr⟩ := e
      obtain rfl := hcode.category
      cases op with
      | not =>
          cases hw
          exact ⟨_, rfl, .bool (hcode.unary rfl)⟩
      | _ => cases hw

/-- Operators that are no shifts fold integers to an integer or compare them. -/
theorem binary_int {op : BinaryOp} (hshift : op.isShift = false) {i j : Int} {d : Constant}
    (h : Constant.binary op (.int i) (.int j) = .ok d) :
    (op.isComparison = true ∧ d = .bool (op.holds (some (compare i j)))) ∨
      (op.isIntArith = true ∧ ∃ l, d = .int l) := by
  cases op with
  | eq | notEq | lt | ltEq | gt | gtEq =>
      cases h
      exact .inl ⟨rfl, rfl⟩
  | add | sub | mul | div | rem | and | or | xor | andNot =>
      exact .inr ⟨rfl, Compiled.constant_binary rfl h⟩
  | shl | shr => cases hshift
  | logAnd | logOr => cases h

/-- An operator that is no shift is folded, and the result checked unless it is a truth value. -/
theorem fold_ok {op : BinaryOp} (hshift : op.isShift = false) {a b : Constant} {ta tb : Option Ty}
    {w : Term} (h : Term.fold t op a ta b tb = .ok w) :
    ∃ d, Constant.binary op a b = .ok d ∧
      (if op.isComparison then .ok (.untyped d) else Term.ofConst t d (ta.or tb)) = .ok w := by
  rw [Term.fold, hshift, if_neg (by decide)] at h
  dsimp only at h
  split at h
  · split at h
    · cases h
    · exact Compile.rules_ok h
  · exact Compile.rules_ok h

/-- Integers of one type are folded to an integer of the type or compared. -/
theorem fold_int (hty : ofKind? (t.kind ty) = some k) {op : BinaryOp} (hshift : op.isShift = false)
    {i j : Int} {w : Term}
    (h : Term.fold t op (.int i) (some ty) (.int j) (some ty) = .ok w) :
    (op.isComparison = true ∧ w = .untyped (.bool (op.holds (some (compare i j))))) ∨
      (op.isIntArith = true ∧ ∃ l, Constant.binary op (.int i) (.int j) = .ok (.int l) ∧
        k.Holds l ∧ w = .const (.int l) (some ty)) := by
  obtain ⟨d, hd, h⟩ := fold_ok hshift h
  rcases binary_int hshift hd with ⟨hcomparison, rfl⟩ | ⟨harith, l, rfl⟩
  · rw [if_pos hcomparison] at h
    cases h
    exact .inl ⟨hcomparison, rfl⟩
  · have hcomparison : op.isComparison = false :=
      isComparison_false (by rw [isArithmetic, harith, Bool.true_or])
    rw [hcomparison, if_neg (by decide)] at h
    obtain ⟨hholds, rfl⟩ := ofConst_int hty h
    exact .inr ⟨harith, l, hd, hholds, rfl⟩

/-- Values of one type are converted to it. -/
theorem converted_same (op : BinaryOp) (e f : Code.Typed) {ty : Ty} (h : t.isInterface ty = false) :
    Term.converted t op (.code e ty) (.code f ty) =
      if op.isComparison then
        if t.isComparable ⟨packageHome, ty⟩ then Term.comparison t op ty e f
        else .error (.invalidOperation op.symbol ty.text)
      else if op.isLogical then Term.logical op ty e f
      else Term.arithmetic t op ty e f := by
  have hvalue (e : Code.Typed) : (Term.code e ty).valueFor t ty = .ok e := by
    simp [Term.valueFor, Term.requireAssignable, TypeTable.assignable_refl, h, Bind.bind,
      Except.bind, Pure.pure, Except.pure]
  rw [Term.converted, Term.commonType_same]
  change (Term.valueFor t (.code e ty) ty >>= _) = _
  rw [hvalue]
  change (Term.valueFor t (.code f ty) ty >>= _) = _
  rw [hvalue]
  simp only [Term.isNil, Bool.or_false]
  rfl

/-- An operator on code. -/
theorem binary_code (op : BinaryOp) (e f : Code.Typed) (ty ty' : Ty) :
    Term.binary t op (.code e ty) (.code f ty') =
      if op.isShift then Term.shift t op (.code e ty) (.code f ty')
      else Term.converted t op (.code e ty) (.code f ty') :=
  rfl

/-- Comparing values. -/
theorem binaryValues_comparison {op : BinaryOp} (h : op.isComparison = true) (kind : Kind)
    (u v : Value) : binaryValues op kind u v = Value.bool <$> compareValues op u v := by
  rw [binaryValues.eq_def, if_pos h]
  rfl

/-- Two integers. -/
theorem binary_ints (hty : ofKind? (t.kind ty) = some k) {op : BinaryOp}
    (hshift : op.isShift = false) {i j : Int} {e f : Code.Typed} {w : Term} (hi : k.Holds i)
    (hj : k.Holds j) (he : Computes r m e (if k.isSigned then .int else .uint) (k.cast i))
    (hf : Computes r m f (if k.isSigned then .int else .uint) (k.cast j))
    (hw : Term.fold t op (.int i) (some ty) (.int j) (some ty) = .ok w) :
    ∃ w', Term.binary t op (.code e ty) (.code f ty) = .ok w' ∧ Tracks k ty r m w w' := by
  have hk := ofKind?_isInteger hty
  rw [binary_code, hshift, if_neg (by decide), converted_same op e f (isInterface_false hty)]
  rcases fold_int hty hshift hw with ⟨hcomparison, rfl⟩ | ⟨harith, l, hl, hholds, rfl⟩
  · have hordered : Term.isOrdered f.category = true := by
      rcases code_category hf with h | h <;> rw [h] <;> rfl
    have hvalue : binaryValues op (t.kind ty) (k.cast i) (k.cast j) =
        .ok (.bool (op.holds (some (compare i j)))) := by
      rw [binaryValues_comparison hcomparison, k.compareValues_cast hk hcomparison hi hj]
      rfl
    rw [if_pos hcomparison, isComparable_of_ofKind? hty, if_pos rfl, Term.comparison, he.category,
      ← hf.category, hordered, beq_self_eq_true, Bool.and_self, Bool.or_true, if_pos rfl]
    exact ⟨_, rfl, .bool (he.binary hf hvalue)⟩
  · have harithmetic : isArithmetic op = true := by rw [isArithmetic, harith, Bool.true_or]
    have hlogical : op.isLogical = false := by
      cases op with
      | logAnd | logOr => cases harith
      | _ => rfl
    have hhas : Place.hasOperator f.category op = true := by
      rcases code_category hf with h | h <;> rw [h] <;> rfl
    have hvalue : binaryValues op (t.kind ty) (k.cast i) (k.cast j) = .ok (k.cast l) := by
      rw [← ofKind?_scalar hty]
      exact binary_cast hk harith hl fun _ => ⟨hi, hj⟩
    rw [isComparison_false harithmetic, hlogical, if_neg (by decide), if_neg (by decide),
      Term.arithmetic, he.category, ← hf.category, if_pos ⟨rfl, hhas⟩]
    exact ⟨_, rfl, .int hholds (hf.category ▸ he.binary hf hvalue)⟩

/-- A conjunction or disjunction of code with truth values. -/
theorem Computes.logical {e f : Code.Typed} {a b : Bool} (he : Computes r m e .bool (.bool a))
    (hf : Computes r m f .bool (.bool b)) :
    Computes r m ⟨.bool, .both e.expr f.expr⟩ .bool (.bool (a && b)) ∧
      Computes r m ⟨.bool, .either e.expr f.expr⟩ .bool (.bool (a || b)) := by
  have ha (x : Context) : eval x r e.expr m = Run.check (.ok (.bool a)) m := he.value x
  refine ⟨⟨rfl, fun x => ?_⟩, ⟨rfl, fun x => ?_⟩⟩
  · rw [eval, Run.bind_checked (ha x)]
    cases a
    · rfl
    · exact hf.value x
  · rw [eval, Run.bind_checked (ha x)]
    cases a
    · exact hf.value x
    · rfl

/-- Two truth values are compared for equality or combined. -/
theorem binary_bools {op : BinaryOp} (hshift : op.isShift = false) {a b : Bool} {e f : Code.Typed}
    {w : Term} (he : Computes r m e .bool (.bool a)) (hf : Computes r m f .bool (.bool b))
    (hw : Term.fold t op (.bool a) none (.bool b) none = .ok w) :
    ∃ w', Term.binary t op (.code e (.basic .bool)) (.code f (.basic .bool)) = .ok w' ∧
      Tracks k ty r m w w' := by
  rw [binary_code, hshift, if_neg (by decide), converted_same op e f rfl]
  obtain ⟨d, hd, hw⟩ := fold_ok hshift hw
  cases op with
  | eq | notEq =>
      cases hd
      cases hw
      exact ⟨_, rfl, .bool (he.binary hf rfl)⟩
  | logAnd =>
      cases hd
      cases hw
      refine ⟨_, ?_, .bool (he.logical hf).1⟩
      change Term.logical .logAnd _ e f = _
      rw [Term.logical, if_pos ⟨he.category, hf.category⟩]
      rfl
  | logOr =>
      cases hd
      cases hw
      refine ⟨_, ?_, .bool (he.logical hf).2⟩
      change Term.logical .logOr _ e f = _
      rw [Term.logical, if_pos ⟨he.category, hf.category⟩]
      rfl
  | _ => cases hd

/-- An integer and a truth value have no operator in common. -/
theorem binary_mixed (op : BinaryOp) (i : Int) (b : Bool) (d : Constant) :
    Constant.binary op (.int i) (.bool b) ≠ .ok d ∧
      Constant.binary op (.bool b) (.int i) ≠ .ok d := by
  constructor <;>
  · intro h
    cases op <;> cases h

/-- A binary operator that is no shift. -/
theorem Tracks.binary (hty : ofKind? (t.kind ty) = some k) {op : BinaryOp}
    (hshift : op.isShift = false) {x x' y y' w : Term} (hx : Tracks k ty r m x x')
    (hy : Tracks k ty r m y y') (hw : x.binary t op y = .ok w) :
    ∃ w', x'.binary t op y' = .ok w' ∧ Tracks k ty r m w w' := by
  cases hx with
  | int hi he =>
      cases hy with
      | int hj hf => exact binary_ints hty hshift hi hj he hf hw
      | bool hf =>
          obtain ⟨d, hd, -⟩ := fold_ok hshift (Term.binary_const t op _ _ _ _ ▸ hw)
          exact absurd hd (binary_mixed op _ _ d).1
  | bool he =>
      cases hy with
      | int hj hf =>
          obtain ⟨d, hd, -⟩ := fold_ok hshift (Term.binary_const t op _ _ _ _ ▸ hw)
          exact absurd hd (binary_mixed op _ _ d).2
      | bool hf => exact binary_bools hshift he hf hw

/-- A constant of an integer type or an untyped one, and code for the same value. -/
inductive Counts (r : Nat) (m : Machine) : Term → Term → Prop where
  | int {k : Registers.Kind} {i : Int} {type? : Option Ty} {e : Code.Typed} {ty : Ty} :
    k.Holds i → Computes r m e (if k.isSigned then .int else .uint) (k.cast i) →
      Counts r m (.const (.int i) type?) (.code e ty)
  | bool (b : Bool) (z : Term) : Counts r m (.const (.bool b) none) z

/-- What is folded can be counted with. -/
theorem Tracks.counts {z z' : Term} (h : Tracks k ty r m z z') : Counts r m z z' := by
  cases h with
  | int hi he => exact .int hi he
  | bool _ => exact .bool _ _

/-- Truth values are not shifted. -/
theorem shift_bool {op : BinaryOp} (hshift : op.isShift = true) {b : Bool} {c d : Constant} :
    Constant.binary op (.bool b) c ≠ .ok d := by
  intro h
  simp [Constant.binary, hshift, Constant.shift, Constant.asInt?] at h

/-- A folded shift has a count that is not negative. -/
theorem shift_int {op : BinaryOp} (hshift : op.isShift = true) {i s : Int} {d : Constant}
    (h : Constant.binary op (.int i) (.int s) = .ok d) :
    0 ≤ s ∧ s < UInt64.size ∧ ∃ l, d = .int l := by
  have harith : isArithmetic op = true := by rw [isArithmetic, hshift, Bool.or_true]
  refine ⟨?_, ?_, Compiled.constant_binary harith h⟩
  all_goals
    rw [Constant.binary, if_pos hshift] at h
    simp only [Constant.shift, Constant.asInt?] at h
    split at h
    · cases h
    · rename_i hs
      have hsize : UInt32.size = 2 ^ 32 := rfl
      have hsize' : UInt64.size = 2 ^ 64 := rfl
      omega

/-- A shift of code by the value of code. -/
theorem shift_code (op : BinaryOp) {e f : Code.Typed} (ty ty' : Ty)
    (he : e.category = .int ∨ e.category = .uint) (hf : f.category = .int ∨ f.category = .uint) :
    Term.shift t op (.code e ty) (.code f ty') =
      .ok (.code ⟨e.category, .binary op (t.kind ty) e.expr f.expr⟩ ty) := by
  simp [Term.shift, Term.shiftCount, Term.valueOf, he, hf, Bind.bind, Except.bind, Pure.pure,
    Except.pure]

/-- A shift. -/
theorem Tracks.shift (hty : ofKind? (t.kind ty) = some k) {op : BinaryOp}
    (hshift : op.isShift = true) {x x' y y' w : Term} (hx : Tracks k ty r m x x')
    (hy : Counts r m y y') (hw : x.binary t op y = .ok w) :
    ∃ w', x'.binary t op y' = .ok w' ∧ Tracks k ty r m w w' := by
  have hfold {a b : Constant} {ta tb : Option Ty}
      (hw : Term.binary t op (.const a ta) (.const b tb) = .ok w) :
      ∃ d, Constant.binary op a b = .ok d ∧ Term.ofConst t d ta = .ok w := by
    rw [Term.binary_const, Term.fold, if_pos hshift] at hw
    exact Compile.rules_ok hw
  cases hx with
  | bool he =>
      cases hy with
      | int _ _ | bool _ _ =>
          obtain ⟨d, hd, -⟩ := hfold hw
          exact absurd hd (shift_bool hshift)
  | @int i e hi he =>
      cases hy with
      | bool b z =>
          obtain ⟨d, hd, -⟩ := hfold hw
          exact absurd hd (binary_mixed op i b d).1
      | @int k' s type? f ty' hs hf =>
          obtain ⟨d, hd, hw⟩ := hfold hw
          obtain ⟨hnonneg, hlt, l, rfl⟩ := shift_int hshift hd
          obtain ⟨hl, rfl⟩ := ofConst_int hty hw
          have huint : Registers.Kind.uint.Holds s := by
            have hsize : UInt64.size = 2 ^ 64 := rfl
            simp only [Registers.Kind.Holds, Registers.Kind.scalar, Kind.range]
            omega
          have hcount : shiftCount (k'.cast s) = shiftCount (Registers.Kind.uint.cast s) := by
            rw [Registers.Kind.shiftCount_cast hs hnonneg,
              Registers.Kind.shiftCount_cast huint hnonneg]
          have hvalue : binaryValues op (t.kind ty) (k.cast i) (k'.cast s) = .ok (k.cast l) := by
            rw [← ofKind?_scalar hty, Registers.Kind.binaryValues_count hshift hcount]
            exact shift_cast (ofKind?_isInteger hty) hshift hd fun _ => hi
          rw [binary_code, if_pos hshift,
            shift_code op ty ty' (code_category he) (code_category hf)]
          exact ⟨_, rfl, .int hl (he.category ▸ he.binary hf hvalue)⟩

/-! ### Expressions -/

/-- An integer that fits is the value of the constant. -/
theorem toValue_of_holds (hty : ofKind? (t.kind ty) = some k) {i : Int} (h : k.Holds i) :
    (Constant.int i).toValue t ty = .ok (k.cast i) := by
  have hrange : ¬(i < (t.kind ty).range.1 ∨ (t.kind ty).range.2 < i) := by
    rw [← ofKind?_scalar hty]
    exact not_or.2 ⟨Int.not_lt.2 h.1, Int.not_lt.2 h.2⟩
  have hcategory : (t.kind ty).category = if k.isSigned then .int else .uint := category_eq hty
  have hrepresent : (Constant.int i).represent t ty = .ok (.int i) := by
    unfold Constant.represent
    dsimp only
    rw [hcategory]
    cases k.isSigned <;> simp [Constant.representInt, Constant.asInt?, hrange]
  rw [Constant.toValue, hrepresent, category_eq hty]
  cases hsigned : k.isSigned with
  | true =>
      rw [k.cast_signed hsigned, narrowInt_ofInt h]
      rfl
  | false =>
      rw [k.cast_unsigned hsigned, narrowUint_ofInt h]
      rfl

end StraightLine

/-- A constant, whose type is given if it has one, and a variable of the type `ty` that holds its
value in a body that runs in the record `r`. -/
inductive Represents (c : Compiler) (r : Nat) (m : Machine) (type? : Option Ty) (ty : Ty) :
    Expr → Expr → Prop where
  | held {e : Expr} {i : Int} {span : Span} {name : Name} {depth slot record : Nat}
    {value : Value} : Compile.operand e c = .ok (.term (.const (.int i) type?), c) →
    (Constant.int i).toValue c.types ty = .ok value →
    c.resolve name = some (.var depth slot ty) → m.ancestor? r depth = some record →
    (m.record record).get slot = value → Represents c r m type? ty e (.node span (.ident name))

/-- The values of a type are integers. -/
def TypeTable.IsInteger (t : TypeTable) (ty : Ty) : Prop :=
  t.category ty = .int ∨ t.category ty = .uint

/-- An expression over constants of the type `ty`, and the same expression over variables of that
type that hold the constants.  Counts of shifts are of any integer type; the count of a shift may
also be a constant without type, for which there is an `int` variable. -/
inductive Replaced (c : Compiler) (r : Nat) (m : Machine) : Ty → Expr → Expr → Prop where
  | leaf {ty : Ty} {e e' : Expr} : Represents c r m (some ty) ty e e' → Replaced c r m ty e e'
  | paren {ty : Ty} {e e' : Expr} (span span' : Span) : Replaced c r m ty e e' →
    Replaced c r m ty (.node span (.paren e)) (.node span' (.paren e'))
  | unary {ty : Ty} {e e' : Expr} (span span' : Span) (op : UnaryOp) : Replaced c r m ty e e' →
    Replaced c r m ty (.node span (.unary op e)) (.node span' (.unary op e'))
  | binary {ty : Ty} {a a' b b' : Expr} (span span' : Span) (op : BinaryOp) :
    op.isShift = false → Replaced c r m ty a a' → Replaced c r m ty b b' →
      Replaced c r m ty (.node span (.binary op a b)) (.node span' (.binary op a' b'))
  | shift {ty countTy : Ty} {a a' b b' : Expr} (span span' : Span) (op : BinaryOp) :
    op.isShift = true → c.types.IsInteger countTy → Replaced c r m ty a a' →
      Replaced c r m countTy b b' →
      Replaced c r m ty (.node span (.binary op a b)) (.node span' (.binary op a' b'))
  | shiftUntyped {ty : Ty} {a a' b b' : Expr} (span span' : Span) (op : BinaryOp) :
    op.isShift = true → Replaced c r m ty a a' → Represents c r m none (.basic .int) b b' →
      Replaced c r m ty (.node span (.binary op a b)) (.node span' (.binary op a' b'))

open StraightLine

variable {c c₁ : Compiler} {r : Nat} {m : Machine} {ty : Ty} {k : Registers.Kind}

/-- A constant is a constant, and the variable is code with its value. -/
theorem Represents.operands {type? : Option Ty} {e e' : Expr} (h : Represents c r m type? ty e e')
    (hty : ofKind? (c.types.kind ty) = some k) :
    ∃ i code, Compile.operand e c = .ok (.term (.const (.int i) type?), c) ∧
      Compile.operand e' c = .ok (.term (.code code ty), c) ∧ k.Holds i ∧
      Computes r m code (if k.isSigned then .int else .uint) (k.cast i) := by
  cases h with
  | @held i span name depth slot record value he hvalue hname hrecord hslot =>
      obtain ⟨rfl, hholds⟩ := toValue_ok hty hvalue
      refine ⟨i, .ofCategory (c.types.category ty) (.load depth slot), he, ?_, hholds, ?_⟩
      · rw [Compile.operand_node, Compile.at'_ok, Compile.operandOf]
        exact Compile.bind_ok.2 ⟨_, _, Compile.resolve_some hname, rfl⟩
      · have hload (x : Context) :
            eval x r (.load depth slot) m = Run.check (.ok (k.cast i)) m := by
          rw [eval_load hrecord, hslot]
          rfl
        have hhas : k.Has (k.cast i) := ⟨i, rfl⟩
        rw [category_eq hty]
        refine ⟨by cases k.isSigned <;> rfl, fun x => ?_⟩
        have hexpect : eval x r
            (.expect (if k.isSigned then .int else .uint) (.load depth slot)) m =
              .ok (k.cast i) m := by
          rw [eval, Run.bind_checked (hload x)]
          change Run.check _ m = _
          rw [hhas.expect]
          rfl
        cases hsigned : k.isSigned <;> rw [hsigned] at hexpect <;> exact hexpect

/-- The name of a constant and the name of a variable. -/
theorem Represents.named {type? : Option Ty} {i : Int} {constant name : Name}
    {depth slot record : Nat} {value : Value}
    (hconstant : c.resolve constant = some (.const (.int i) type?))
    (hvalue : (Constant.int i).toValue c.types ty = .ok value)
    (hname : c.resolve name = some (.var depth slot ty))
    (hrecord : m.ancestor? r depth = some record)
    (hslot : (m.record record).get slot = value) (span span' : Span) :
    Represents c r m type? ty (.node span (.ident constant)) (.node span' (.ident name)) := by
  refine .held ?_ hvalue hname hrecord hslot
  rw [Compile.operand_node, Compile.at'_ok, Compile.operandOf]
  exact Compile.bind_ok.2 ⟨_, _, Compile.resolve_some hconstant, rfl⟩

/-- A compiled operand in parentheses. -/
theorem operand_paren {span : Span} {e : Expr} {o : Operand} :
    Compile.operand (.node span (.paren e)) c = .ok (o, c₁) ↔
      Compile.operand e c = .ok (o, c₁) := by
  rw [Compile.operand_node, Compile.at'_ok, Compile.operandOf]

/-- A unary operator on an operand that compiles. -/
theorem operand_unary_of {span : Span} {op : UnaryOp} {e : Expr} {z w : Term}
    (h : Compile.operand e c = .ok (.term z, c)) (hw : z.unary c.types op = .ok w) :
    Compile.operand (.node span (.unary op e)) c = .ok (.term w, c) := by
  rw [Compile.operand_node, Compile.at'_ok, Compile.operandOf]
  exact Compile.bind_ok.2 ⟨_, _, h, Compile.bind_ok.2 ⟨z, c, rfl,
    Compile.bind_ok.2 ⟨w, c, Compile.rule_ok.2 ⟨hw, rfl⟩, rfl⟩⟩⟩

/-- A binary operator on operands that compile. -/
theorem operand_binary_of {span : Span} {op : BinaryOp} {a b : Expr} {x y w : Term}
    (ha : Compile.operand a c = .ok (.term x, c)) (hb : Compile.operand b c = .ok (.term y, c))
    (hw : x.binary c.types op y = .ok w) :
    Compile.operand (.node span (.binary op a b)) c = .ok (.term w, c) := by
  rw [Compile.operand_node, Compile.at'_ok, Compile.operandOf]
  exact Compile.bind_ok.2 ⟨_, _, ha, Compile.bind_ok.2 ⟨x, c, rfl,
    Compile.bind_ok.2 ⟨_, _, hb, Compile.bind_ok.2 ⟨y, c, rfl,
      Compile.bind_ok.2 ⟨w, c, Compile.rule_ok.2 ⟨hw, rfl⟩, rfl⟩⟩⟩⟩⟩

/-- What an expression over constants is folded to matches the code for the variables. -/
theorem Replaced.operands {e e' : Expr} (h : Replaced c r m ty e e')
    (hty : ofKind? (c.types.kind ty) = some k) {o : Operand}
    (ho : Compile.operand e c = .ok (o, c₁)) :
    c₁ = c ∧ ∃ z z', o = .term z ∧ Compile.operand e' c = .ok (.term z', c) ∧
      Tracks k ty r m z z' := by
  induction h generalizing k o c₁ with
  | leaf h =>
      obtain ⟨i, code, he, he', hholds, hcode⟩ := h.operands hty
      obtain ⟨rfl, rfl⟩ := Prod.mk.inj (Except.ok.inj (he.symm.trans ho))
      exact ⟨rfl, _, _, rfl, he', .int hholds hcode⟩
  | paren span span' _ ih =>
      obtain ⟨rfl, z, z', rfl, he', hmatches⟩ := ih hty (operand_paren.1 ho)
      exact ⟨rfl, z, z', rfl, operand_paren.2 he', hmatches⟩
  | unary span span' op _ ih =>
      obtain ⟨o₁, z₁, w, ho₁, hz, hw, rfl⟩ := operand_unary ho
      obtain ⟨rfl, z, z', rfl, he', hmatches⟩ := ih hty ho₁
      cases hz
      obtain ⟨w', hw', hmatches'⟩ := hmatches.unary hty hw
      exact ⟨rfl, w, w', rfl, operand_unary_of he' hw', hmatches'⟩
  | binary span span' op hshift _ _ ihA ihB =>
      obtain ⟨o₁, c₂, z₁, o₂, z₂, w, ho₁, hz₁, ho₂, hz₂, hw, rfl⟩ := operand_binary ho
      obtain ⟨rfl, x, x', rfl, ha', hx⟩ := ihA hty ho₁
      obtain ⟨rfl, y, y', rfl, hb', hy⟩ := ihB hty ho₂
      cases hz₁
      cases hz₂
      obtain ⟨w', hw', hmatches⟩ := hx.binary hty hshift hy hw
      exact ⟨rfl, w, w', rfl, operand_binary_of ha' hb' hw', hmatches⟩
  | shift span span' op hshift hcount _ _ ihA ihB =>
      obtain ⟨o₁, c₂, z₁, o₂, z₂, w, ho₁, hz₁, ho₂, hz₂, hw, rfl⟩ := operand_binary ho
      obtain ⟨rfl, x, x', rfl, ha', hx⟩ := ihA hty ho₁
      obtain ⟨kc, hkc⟩ := exists_ofKind? hcount
      obtain ⟨rfl, y, y', rfl, hb', hy⟩ := ihB hkc ho₂
      cases hz₁
      cases hz₂
      obtain ⟨w', hw', hmatches⟩ := hx.shift hty hshift hy.counts hw
      exact ⟨rfl, w, w', rfl, operand_binary_of ha' hb' hw', hmatches⟩
  | shiftUntyped span span' op hshift _ hb ihA =>
      obtain ⟨o₁, c₂, z₁, o₂, z₂, w, ho₁, hz₁, ho₂, hz₂, hw, rfl⟩ := operand_binary ho
      obtain ⟨rfl, x, x', rfl, ha', hx⟩ := ihA hty ho₁
      obtain ⟨i, code, hb, hb', hholds, hcode⟩ := hb.operands (k := .int) rfl
      obtain ⟨rfl, rfl⟩ := Prod.mk.inj (Except.ok.inj (hb.symm.trans ho₂))
      cases hz₁
      cases hz₂
      obtain ⟨w', hw', hmatches⟩ := hx.shift hty hshift (.int hholds hcode) hw
      exact ⟨rfl, w, w', rfl, operand_binary_of ha' hb' hw', hmatches⟩

/-- **Folding agrees with execution.**  If an expression over constants of an integer type is folded
to a constant, then the same expression over variables that hold the constants compiles to code of
the type that the constant has by itself, and this code has the value of the constant, without an
error and without a trace in the machine. -/
theorem folded_evaluates {e e' : Expr} {d : Constant} {type? : Option Ty}
    (hty : c.types.IsInteger ty) (h : Replaced c r m ty e e')
    (hfold : Compile.operand e c = .ok (.term (.const d type?), c₁)) :
    ∃ type code value, (Term.const d type?).type = .ok type ∧
      Compile.operand e' c = .ok (.term (.code code type), c) ∧
      d.toValue c.types type = .ok value ∧ ∀ x, eval x r code.expr m = .ok value m := by
  obtain ⟨k, hk⟩ := exists_ofKind? hty
  obtain ⟨-, z, z', hz, he', hmatches⟩ := h.operands hk hfold
  cases hz
  cases hmatches with
  | int hholds hcode => exact ⟨_, _, _, rfl, he', toValue_of_holds hk hholds, hcode.value⟩
  | bool hcode => exact ⟨_, _, _, rfl, he', rfl, hcode.value⟩

/-- A package with bytes `a` and `b` and a count `n`, and variables `x`, `y` and `k` for them. -/
def bytePackage : Compiler :=
  { Compiler.start .empty ⟨[], [], 0⟩ false with
    names := [("a", .const (.int 200) (some (.basic .uint8))),
      ("b", .const (.int 7) (some (.basic .uint8))), ("n", .const (.int 1) (some (.basic .int16))),
      ("x", .var ⟨0, .basic .uint8⟩), ("y", .var ⟨1, .basic .uint8⟩),
      ("k", .var ⟨2, .basic .int16⟩)] }

/-- The variables hold the constants, and a body runs in the record 1. -/
def byteMachine : Machine :=
  ⟨.empty, #[⟨#[.uint 200, .uint 7, .int 1], none⟩, ⟨#[], some 0⟩], #[], "", 0⟩

/-- The expression `^a << n / b` over given names. -/
def byteQuotient (a n b : Name) : Expr :=
  .node .none (.binary .div (.node .none (.binary .shl
    (.node .none (.unary .bitNot (.node .none (.ident a)))) (.node .none (.ident n))))
    (.node .none (.ident b)))

/-- Bits are flipped within a byte, so that the quotient is 15 both ways. -/
theorem byteQuotient_evaluates :
    Compile.operand (byteQuotient "a" "n" "b") bytePackage =
      .ok (.term (.const (.int 15) (some (.basic .uint8))), bytePackage) ∧
    ∃ code, Compile.operand (byteQuotient "x" "k" "y") bytePackage =
        .ok (.term (.code code (.basic .uint8)), bytePackage) ∧
      ∀ x, eval x 1 code.expr byteMachine = .ok (.uint 15) byteMachine := by
  have hname {name : Name} {i : Int} {ty : Ty}
      (h : bytePackage.resolve name = some (.const (.int i) (some ty))) :
      Compile.operand (.node .none (.ident name)) bytePackage =
        .ok (.term (.const (.int i) (some ty)), bytePackage) := by
    rw [Compile.operand_node, Compile.at'_ok, Compile.operandOf]
    exact Compile.bind_ok.2 ⟨_, _, Compile.resolve_some h, rfl⟩
  have hdiv : Term.binary bytePackage.types .div (.const (.int 110) (some (.basic .uint8)))
      (.const (.int 7) (some (.basic .uint8))) =
        .ok (.const (.int 15) (some (.basic .uint8))) := by
    simp only [Term.binary, Term.fold, BinaryOp.isShift, Constant.binary, Constant.intBinary,
      Constant.checked, fits128, BinaryOp.isComparison, ne_eq, not_true_eq_false, if_false]
    rfl
  have hfold : Compile.operand (byteQuotient "a" "n" "b") bytePackage =
      .ok (.term (.const (.int 15) (some (.basic .uint8))), bytePackage) :=
    operand_binary_of (operand_binary_of (operand_unary_of (hname rfl) rfl) (hname rfl) rfl)
      (hname rfl) hdiv
  have hreplaced : Replaced bytePackage 1 byteMachine (.basic .uint8)
      (byteQuotient "a" "n" "b") (byteQuotient "x" "k" "y") := by
    have hcount : bytePackage.types.IsInteger (.basic .int16) := .inl rfl
    refine .binary _ _ _ rfl (.shift _ _ _ rfl hcount (.unary _ _ _ (.leaf ?_)) (.leaf ?_))
      (.leaf ?_)
    · exact .named rfl rfl rfl rfl rfl _ _
    · exact .named rfl rfl rfl rfl rfl _ _
    · exact .named rfl rfl rfl rfl rfl _ _
  obtain ⟨type, code, value, htype, hcode, hvalue, heval⟩ :=
    folded_evaluates (.inr rfl) hreplaced hfold
  cases htype
  cases hvalue
  exact ⟨hfold, code, hcode, heval⟩

end ScriptCore
