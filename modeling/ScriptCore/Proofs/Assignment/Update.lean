import ScriptCore.Proofs.Assignment.Reading
import ScriptCore.Proofs.Constants.Boxing
import ScriptCore.Proofs.Straight.Statement

/-!
# An operator applied in place

Applying an operator in place and assigning what the operator makes of the value of the place are
compiled by different rules: one asks for the operator among those of the category of the place, the
other converts both operands to a common type.  For arithmetic, bitwise operators and shifts both
accept the same operands, and the code of the one stands for the code of the other.

Constants are the exception among the counts of shifts: the first rule takes them as values of their
type, the second as integers without one.  They agree where the count is an integer that is not
negative and that its type can represent.

Main statements: `Place.inPlace_ok` and `Place.expanded_ok`.
-/

namespace ScriptCore

/-! ### Types that operators apply to -/

namespace TypeTable

variable {t : TypeTable} {S T : Ty}

/-- Types whose values are scalars stand for predeclared ones. -/
theorem underlying_scalar (h : Compile.isScalar (t.category T) = true) :
    ∃ k, t.underlying T = .basic k := by
  rw [category, kind] at h
  cases hu : t.underlying T with
  | basic k => exact ⟨k, rfl⟩
  | _ =>
      rw [hu] at h
      cases h

/-- They are no interfaces. -/
theorem isInterface_scalar (h : Compile.isScalar (t.category T) = true) :
    t.isInterface T = false := by
  obtain ⟨k, hk⟩ := underlying_scalar h
  rw [isInterface, interfaceMethods?, hk]
  rfl

/-- What stands for a predeclared type is declared itself. -/
theorem isDefined_of_basic {k : Kind} (h : t.underlying T = .basic k) : T.isDefined = true := by
  cases T with
  | basic | named => rfl
  | _ => cases h

/-- Only a value of the same type can be assigned to them. -/
theorem assignable_scalar (h : Compile.isScalar (t.category T) = true)
    (hassign : t.assignable S T = true) : S = T := by
  obtain ⟨k, hk⟩ := underlying_scalar h
  rw [assignable, isInterface_scalar h, isDefined_of_basic hk] at hassign
  by_contra hne
  rw [beq_false_of_ne hne] at hassign
  simp only [Bool.false_or, Bool.not_true, Bool.or_false, Bool.and_eq_true, beq_iff_eq,
    Bool.not_eq_true', if_neg Bool.false_ne_true] at hassign
  have hS : S.isDefined = true := isDefined_of_basic (hassign.2.trans hk)
  rw [hS] at hassign
  cases hassign.1

end TypeTable

namespace Place

variable {t : TypeTable} {p : Place} {op : BinaryOp}

/-- Operators apply to scalars. -/
theorem isScalar_of_hasOperator {c : Category} (h : hasOperator c op = true) :
    Compile.isScalar c = true := by
  cases c with
  | func | unknown => cases h
  | _ => rfl

/-- Scalars are checked when they are read. -/
theorem ofExpr_scalar {T : Ty} (h : Compile.isScalar (t.category T) = true) (e : Code.Expr) :
    Term.ofExpr t e T = .code ⟨t.category T, .expect (t.category T) e⟩ T := by
  rw [Term.ofExpr]
  cases hc : t.category T with
  | func | unknown =>
      rw [hc] at h
      cases h
  | _ => rfl

/-- A value that is not a scalar has no category that an operator applies to. -/
theorem category_ofExpr {T : Ty} (e : Code.Expr)
    (h : hasOperator (Code.Typed.ofCategory (t.category T) e).category op = true) :
    hasOperator (t.category T) op = true := by
  cases hc : t.category T <;> (rw [hc] at h; exact h)

/-! ### The two rules -/

/-- The rule for an operator that is applied in place. -/
def inPlace (t : TypeTable) (p : Place) (op : BinaryOp) (v : Operand) :
    Except Fault Code.Instr :=
  (if op.isShift then Prod.fst <$> v.valueOf t else v.valueFor t p.type) >>= p.setOp t op

/-- The rule for the assignment of what an operator makes of the value of a place. -/
def expanded (t : TypeTable) (p : Place) (op : BinaryOp) (v : Operand) :
    Except Fault Code.Instr := do
  let y ← v.single
  p.set t (.term (← (Term.ofExpr t (p.read t) p.type).binary t op y))

/-- The two rules take the same code for their operand; a constant count may be kept in two ways. -/
def SameOperand (op : BinaryOp) (v u : Code.Expr) : Prop :=
  v = u ∨ op.isShift = true ∧
    ∃ a b, v = .const a ∧ u = .const b ∧ ScriptCore.shiftCount a = ScriptCore.shiftCount b

/-- A value that is cut to the width of a kind, where it has one. -/
def narrowed (c : Category) (k : Kind) (e : Code.Expr) : Code.Expr :=
  if c = .string then e else .narrow k e

/-- The instructions that the two rules give. -/
inductive Expands (t : TypeTable) (p : Place) (op : BinaryOp) : Code.Instr → Code.Instr → Prop where
  | intro {v u : Code.Expr} (hop : hasOperator (t.category p.type) op = true)
      (hsame : SameOperand op v u) :
    Expands t p op (.update p.container p.key op (t.kind p.type) v (t.zero p.type))
      (p.store (narrowed (t.category p.type) (t.kind p.type)
        (.binary op (t.kind p.type) (.expect (t.category p.type) (p.read t)) u)))

/-- An operator that the place has is applied to a value of the right category. -/
theorem setOp_ok {e : Code.Typed} {i : Code.Instr} :
    p.setOp t op e = .ok i ↔ hasOperator (t.category p.type) op = true ∧
      (if op.isShift then e.category = .int ∨ e.category = .uint
        else e.category = t.category p.type) ∧
      i = .update p.container p.key op (t.kind p.type) e.expr (t.zero p.type) := by
  have hok {P : Prop} [Decidable P] {j : Code.Instr} {f : Fault} :
      (if P then .ok j else .error f : Except Fault Code.Instr) = .ok i ↔ P ∧ i = j := by
    by_cases h : P
    · rw [if_pos h, Except.ok.injEq]
      exact ⟨fun hj => ⟨h, hj.symm⟩, fun hj => hj.2.symm⟩
    · simp [h]
  by_cases hop : hasOperator (t.category p.type) op = true
  · cases hshift : op.isShift <;> simp [setOp, hop, hshift, hok]
  · simp [setOp, hop]

/-- The value of an operator on the place is stored as it is, but for its width. -/
theorem set_result (hop : hasOperator (t.category p.type) op = true)
    (e : Code.Expr) : p.set t (.term (.code ⟨t.category p.type, e⟩ p.type)) =
      .ok (p.store (narrowed (t.category p.type) (t.kind p.type) e)) := by
  have hscalar := isScalar_of_hasOperator hop
  have hvalue : (Operand.term (.code ⟨t.category p.type, e⟩ p.type)).valueFor t p.type =
      .ok ⟨t.category p.type, e⟩ := by
    change (Term.code ⟨t.category p.type, e⟩ p.type).valueFor t p.type = _
    rw [Term.valueFor, Boxing.requireAssignable_ok (t.assignable_refl p.type),
      TypeTable.isInterface_scalar hscalar]
    rfl
  have hset : p.set t (.term (.code ⟨t.category p.type, e⟩ p.type)) =
      p.setExpr t ⟨t.category p.type, e⟩ := by
    change ((Operand.term (.code ⟨t.category p.type, e⟩ p.type)).valueFor t p.type >>=
      fun v => p.setExpr t v) = _
    rw [hvalue]
    rfl
  rw [hset, setExpr, narrowed]
  cases hc : t.category p.type <;> first | rfl | (rw [hc] at hop; cases hop)

/-! ### Arithmetic -/

/-- The place itself is a value of its type. -/
theorem valueFor_self {T : Ty} (h : Compile.isScalar (t.category T) = true) (e : Code.Typed) :
    (Term.code e T).valueFor t T = .ok e := by
  rw [Term.valueFor, Boxing.requireAssignable_ok (t.assignable_refl T),
    TypeTable.isInterface_scalar h]
  rfl

/-- An operand that is a value of the type of the place has that type in common with it. -/
theorem commonType_of_valueFor {T : Ty} (h : Compile.isScalar (t.category T) = true)
    (e : Code.Typed) {y : Term} {v : Code.Typed} (hv : y.valueFor t T = .ok v) :
    Term.commonType t op (.code e T) y = .ok T := by
  have hsame (S : Ty) (hS : Term.requireAssignable t S T = .ok ()) : S = T := by
    unfold Term.requireAssignable at hS
    split at hS
    · exact TypeTable.assignable_scalar h ‹_›
    · cases hS
  cases y with
  | const c type =>
      cases type with
      | none => rfl
      | some S =>
          obtain ⟨_, hS, -⟩ := Compile.rules_ok hv
          obtain rfl := hsame S hS
          exact if_pos rfl
  | code f S =>
      obtain ⟨_, hS, -⟩ := Compile.rules_ok hv
      obtain rfl := hsame S hS
      exact if_pos rfl

/-- The type in common with a scalar is its own, unless it is an interface. -/
theorem commonType_scalar {T ty : Ty} (h : Compile.isScalar (t.category T) = true)
    {e : Code.Typed} {y : Term} (hty : Term.commonType t op (.code e T) y = .ok ty)
    (hiface : t.isInterface ty = false) : ty = T := by
  unfold Term.commonType at hty
  have htype : (Term.code e T).type? = some T := rfl
  rw [htype] at hty
  cases hy : y.type? with
  | none =>
      rw [hy] at hty
      cases hty
      rfl
  | some S =>
      rw [hy] at hty
      dsimp only at hty
      split at hty
      · cases hty
        rfl
      · split at hty
        · rename_i hS
          cases hty
          rw [hiface] at hS
          cases hS
        · rw [TypeTable.isInterface_scalar h] at hty
          simp at hty

/-- An arithmetic operator on the value of a place. -/
theorem converted_place (hop : hasOperator (t.category p.type) op = true)
    (harith : op.isIntArith = true) (e : Code.Expr) {y : Term} {v : Code.Typed}
    (hv : y.valueFor t p.type = .ok v) (hcategory : v.category = t.category p.type) :
    (Term.ofExpr t e p.type).binary t op y =
      .ok (.code ⟨t.category p.type, .binary op (t.kind p.type)
        (.expect (t.category p.type) e) v.expr⟩ p.type) := by
  have hscalar := isScalar_of_hasOperator hop
  have hshift : op.isShift = false := by cases op <;> first | rfl | cases harith
  have hcompare : op.isComparison = false := by cases op <;> first | rfl | cases harith
  have hlogical : op.isLogical = false := by cases op <;> first | rfl | cases harith
  rw [ofExpr_scalar hscalar]
  have hbinary : (Term.code ⟨t.category p.type, .expect (t.category p.type) e⟩ p.type).binary t op
      y = Term.converted t op
        (.code ⟨t.category p.type, .expect (t.category p.type) e⟩ p.type) y := by
    rw [Term.binary, hshift]
    · rfl
    · intro _ _ _ _ h
      cases h
  rw [hbinary, Term.converted, commonType_of_valueFor hscalar _ hv]
  simp only [bind, Except.bind, valueFor_self hscalar, hv, hcompare, hlogical,
    Bool.false_eq_true, if_false, Term.arithmetic, hcategory, hop, and_self, if_true]

/-- What an arithmetic operator on the value of a place needs. -/
theorem converted_place_ok (harith : op.isIntArith = true) {e : Code.Expr} {y w : Term}
    (h : (Term.ofExpr t e p.type).binary t op y = .ok w) :
    hasOperator (t.category p.type) op = true ∧
      ∃ v, y.valueFor t p.type = .ok v ∧ v.category = t.category p.type := by
  have hshift : op.isShift = false := by cases op <;> first | rfl | cases harith
  have hcompare : op.isComparison = false := by cases op <;> first | rfl | cases harith
  have hlogical : op.isLogical = false := by cases op <;> first | rfl | cases harith
  have hbinary : (Term.ofExpr t e p.type).binary t op y =
      Term.converted t op (Term.ofExpr t e p.type) y := by
    rw [Term.ofExpr, Term.binary, hshift]
    · rfl
    · intro _ _ _ _ h
      cases h
  rw [hbinary, Term.converted] at h
  obtain ⟨ty, hty, h⟩ := Compile.rules_ok h
  obtain ⟨a, ha, h⟩ := Compile.rules_ok h
  obtain ⟨b, hb, h⟩ := Compile.rules_ok h
  rw [hcompare, hlogical, if_neg Bool.false_ne_true, if_neg Bool.false_ne_true,
    Term.arithmetic] at h
  split at h
  · rename_i hab
    obtain ⟨hsame, hop⟩ := hab
    obtain ⟨_, -, ha⟩ := Compile.rules_ok ha
    by_cases hiface : t.isInterface ty = true
    · rw [if_pos hiface] at ha
      cases ha
      cases hop
    · rw [if_neg hiface] at ha
      cases ha
      have hplace := category_ofExpr e hop
      have hscalar := isScalar_of_hasOperator hplace
      rw [Term.ofExpr] at hty
      obtain rfl := commonType_scalar hscalar hty (Bool.eq_false_iff.2 hiface)
      refine ⟨hplace, b, hb, ?_⟩
      rw [← hsame]
      cases hc : t.category p.type <;> first | rfl | (rw [hc] at hscalar; cases hscalar)
  · cases h

end Place

/-! ### Shifts -/

namespace Term

variable {t : TypeTable} {op : BinaryOp}

/-- A constant count of a shift is an integer that is not negative and that its type, an integer
type, can represent. -/
def IsCount (t : TypeTable) : Term → Prop
  | .const c type => ∃ n v S, c = .int n ∧ 0 ≤ n ∧
      (Term.const c type).valueOf t = .ok (v, S) ∧ (v.category = .int ∨ v.category = .uint)
  | .code _ _ => True

/-- The category of a fixed value that is a number is that of its type. -/
theorem category_constant {c : Category} {v : Value}
    (h : (Code.Typed.constant c v).category = .int ∨ (Code.Typed.constant c v).category = .uint) :
    c = (Code.Typed.constant c v).category ∧ (Code.Typed.constant c v).expr = .const v := by
  cases c <;> cases v <;> simp_all [Code.Typed.constant]

/-- An integer constant of an integer kind. -/
theorem represent_count {n : Int} {S : Ty} {d : Constant}
    (hcategory : t.category S = .int ∨ t.category S = .uint)
    (h : (Constant.int n).represent t S = .ok d) :
    d = .int n ∧ n ≤ (t.kind S).range.2 := by
  have hint : (Constant.int n).representInt (t.kind S) S = .ok d := by
    unfold Constant.represent at h
    unfold TypeTable.category at hcategory
    rcases hcategory with hc | hc <;> simpa only [hc] using h
  unfold Constant.representInt at hint
  simp only [Constant.asInt?] at hint
  split at hint
  · cases hint
  · cases hint
    exact ⟨rfl, by omega⟩

/-- A signed number that is not negative is its own count. -/
theorem shiftCount_ofInt {n : Int} (hn : 0 ≤ n) (hle : n ≤ 0x7FFFFFFFFFFFFFFF) :
    ScriptCore.shiftCount (.int (Int64.ofInt n)) = .ok (UInt64.ofInt n) := by
  have hholds : Registers.Kind.int.Holds n := by
    have hleast : (-0x8000000000000000 : Int) ≤ n := by omega
    exact ⟨hleast, hle⟩
  exact StraightLine.shiftCount_int hholds hn

/-- An integer constant of an integer type is a count for both rules. -/
theorem fixed_count {n : Int} {S : Ty} {v : Code.Typed} (hn : 0 ≤ n)
    (h : fixed t (.int n) S = .ok v) (hcategory : v.category = .int ∨ v.category = .uint) :
    n < UInt64.size ∧ ∃ a, v.expr = .const a ∧
      ScriptCore.shiftCount a = .ok (UInt64.ofInt n) := by
  obtain ⟨a, ha, h⟩ := Compile.rules_ok h
  cases h
  obtain ⟨hS, hexpr⟩ := category_constant hcategory
  rw [← hS] at hcategory
  obtain ⟨d, hd, ha⟩ := Compile.rules_ok ha
  obtain ⟨rfl, hrange⟩ := represent_count hcategory hd
  have hsize : UInt64.size = 0x10000000000000000 := rfl
  rcases hcategory with hc | hc
  · have hkind : (t.kind S).range.2 ≤ 0x7FFFFFFFFFFFFFFF := by
      rw [TypeTable.category] at hc
      cases hk : t.kind S <;> rw [hk] at hc <;> first | decide | cases hc
    rw [hc] at ha
    cases ha
    exact ⟨by omega, _, hexpr, shiftCount_ofInt hn (by omega)⟩
  · have hkind : (t.kind S).range.2 ≤ 0xFFFFFFFFFFFFFFFF := by
      cases t.kind S <;> decide
    rw [hc] at ha
    cases ha
    exact ⟨by omega, _, hexpr, rfl⟩

/-- A count that is code, or a constant count, is one for both rules. -/
theorem shiftCount_of_valueOf {y : Term} (hcount : y.IsCount t) (hshift : op.isShift = true)
    {v : Code.Typed} {S : Ty} (h : y.valueOf t = .ok (v, S))
    (hcategory : v.category = .int ∨ v.category = .uint) :
    ∃ u, shiftCount t op y = .ok u ∧ Place.SameOperand op v.expr u := by
  cases y with
  | const c type =>
      obtain ⟨n, -, -, rfl, hn, -, -⟩ := hcount
      obtain ⟨ty, -, h⟩ := Compile.rules_ok h
      obtain ⟨e, he, h⟩ := Compile.rules_ok h
      cases h
      obtain ⟨hsize, a, ha, hsame⟩ := fixed_count hn he hcategory
      have hrange : 0 ≤ n ∧ n < (UInt64.size : Int) := ⟨hn, hsize⟩
      refine ⟨.const (.uint (UInt64.ofInt n)), ?_, .inr ⟨hshift, a, _, ha, rfl, hsame⟩⟩
      simp only [shiftCount, Constant.asInt?, if_pos hrange]
  | code e ty =>
      cases h
      refine ⟨v.expr, ?_, .inl rfl⟩
      simp only [shiftCount, valueOf, bind, Except.bind, if_pos hcategory]
      rfl

/-- What counts for one rule counts for the other. -/
theorem valueOf_of_shiftCount {y : Term} (hcount : y.IsCount t) {u : Code.Expr}
    (h : shiftCount t op y = .ok u) :
    ∃ v S, y.valueOf t = .ok (v, S) ∧ (v.category = .int ∨ v.category = .uint) := by
  cases y with
  | const c type =>
      obtain ⟨n, v, S, rfl, -, hv, hcategory⟩ := hcount
      exact ⟨v, S, hv, hcategory⟩
  | code e ty =>
      refine ⟨e, ty, rfl, ?_⟩
      simp only [shiftCount, valueOf, bind, Except.bind] at h
      split at h
      · assumption
      · cases h

end Term

namespace Place

variable {t : TypeTable} {p : Place} {op : BinaryOp}

/-- Shifts apply to integers. -/
theorem category_of_shift {c : Category} (hshift : op.isShift = true) :
    hasOperator c op = true ↔ c = .int ∨ c = .uint := by
  cases op with
  | shl | shr => cases c <;> decide
  | _ => cases hshift

/-- A shift on the value of a place is compiled by the rule for shifts. -/
theorem binary_shift (hshift : op.isShift = true) (e : Code.Expr) (y : Term) :
    (Term.ofExpr t e p.type).binary t op y = Term.shift t op (Term.ofExpr t e p.type) y := by
  rw [Term.ofExpr, Term.binary, hshift]
  · rfl
  · intro _ _ _ _ h
    cases h

/-- A shift of the value of a place. -/
theorem shift_place (hop : hasOperator (t.category p.type) op = true) (hshift : op.isShift = true)
    (e : Code.Expr) {y : Term} {u : Code.Expr} (hu : Term.shiftCount t op y = .ok u) :
    (Term.ofExpr t e p.type).binary t op y =
      .ok (.code ⟨t.category p.type, .binary op (t.kind p.type)
        (.expect (t.category p.type) e) u⟩ p.type) := by
  have hinteger := (category_of_shift hshift).1 hop
  rw [binary_shift hshift, ofExpr_scalar (isScalar_of_hasOperator hop), Term.shift, hu]
  simp only [bind, Except.bind, Term.valueOf, if_pos hinteger]
  rfl

/-- What a shift of the value of a place needs. -/
theorem shift_place_ok (hshift : op.isShift = true) {e : Code.Expr} {y w : Term}
    (h : (Term.ofExpr t e p.type).binary t op y = .ok w) :
    hasOperator (t.category p.type) op = true ∧ ∃ u, Term.shiftCount t op y = .ok u := by
  rw [binary_shift hshift, Term.shift] at h
  obtain ⟨u, hu, h⟩ := Compile.rules_ok h
  refine ⟨?_, u, hu⟩
  have hvalue : (Term.ofExpr t e p.type).valueOf t =
      .ok (.ofCategory (t.category p.type) e, p.type) := rfl
  simp only [hvalue, bind, Except.bind] at h
  split at h
  · rename_i hinteger
    exact category_ofExpr e ((category_of_shift hshift).2 hinteger)
  · cases h

/-! ### Both rules -/

/-- A constant operand of a shift is one that counts for both rules. -/
def Counts (t : TypeTable) (op : BinaryOp) (v : Operand) : Prop :=
  op.isShift = true → ∀ y, v = .term y → y.IsCount t

/-- **What is accepted in place is accepted written out**, and the code of one stands for the code
of the other. -/
theorem inPlace_ok (hop : StraightLine.isArithmetic op = true) {v : Operand}
    (hcount : Counts t op v) {i : Code.Instr} (h : inPlace t p op v = .ok i) :
    ∃ j, expanded t p op v = .ok j ∧ Expands t p op i j := by
  obtain ⟨e, he, hset⟩ := Compile.rules_ok h
  obtain ⟨hhas, hcategory, rfl⟩ := setOp_ok.1 hset
  have hexpanded {y : Term} {u : Code.Expr} (hy : v.single = .ok y)
      (hbinary : (Term.ofExpr t (p.read t) p.type).binary t op y =
        .ok (.code ⟨t.category p.type, .binary op (t.kind p.type)
          (.expect (t.category p.type) (p.read t)) u⟩ p.type)) :
      expanded t p op v = .ok (p.store (narrowed (t.category p.type) (t.kind p.type)
        (.binary op (t.kind p.type) (.expect (t.category p.type) (p.read t)) u))) := by
    rw [← set_result hhas, expanded, hy]
    simp only [bind, Except.bind, hbinary]
  cases hshift : op.isShift with
  | false =>
      have harith : op.isIntArith = true := by
        rwa [StraightLine.isArithmetic, hshift, Bool.or_false] at hop
      rw [hshift, if_neg Bool.false_ne_true] at he hcategory
      obtain ⟨y, hy, hv⟩ := Compile.rules_ok he
      exact ⟨_, hexpanded hy (converted_place hhas harith _ hv hcategory),
        .intro hhas (.inl rfl)⟩
  | true =>
      rw [hshift, if_pos rfl] at he hcategory
      cases hvalue : v.valueOf t with
      | error f =>
          rw [hvalue] at he
          cases he
      | ok r =>
          rw [hvalue] at he
          cases he
          obtain ⟨y, hy, hv⟩ := Compile.rules_ok hvalue
          have hterm : v = .term y := by
            cases v with
            | term z =>
                cases hy
                rfl
            | results call types => cases hy
          obtain ⟨u, hu, hsame⟩ :=
            Term.shiftCount_of_valueOf (hcount hshift y hterm) hshift hv hcategory
          exact ⟨_, hexpanded hy (shift_place hhas hshift _ hu), .intro hhas hsame⟩

/-- **What is accepted written out is accepted in place.** -/
theorem expanded_ok (hop : StraightLine.isArithmetic op = true) {v : Operand}
    (hcount : Counts t op v) {j : Code.Instr} (h : expanded t p op v = .ok j) :
    ∃ i, inPlace t p op v = .ok i := by
  obtain ⟨y, hy, h⟩ := Compile.rules_ok h
  obtain ⟨w, hw, -⟩ := Compile.rules_ok h
  cases v with
  | results call types => cases hy
  | term z =>
      obtain rfl := Except.ok.inj hy
      cases hshift : op.isShift with
      | false =>
          have harith : op.isIntArith = true := by
            rwa [StraightLine.isArithmetic, hshift, Bool.or_false] at hop
          obtain ⟨hhas, e, he, hcategory⟩ := converted_place_ok harith hw
          have hvalue : (Operand.term z).valueFor t p.type = .ok e := he
          have hset := setOp_ok.2 ⟨hhas, by rw [hshift]; exact hcategory, rfl⟩
          rw [inPlace, hshift, if_neg Bool.false_ne_true, hvalue]
          exact ⟨_, hset⟩
      | true =>
          obtain ⟨hhas, u, hu⟩ := shift_place_ok hshift hw
          obtain ⟨e, S, he, hcategory⟩ := Term.valueOf_of_shiftCount (hcount hshift z rfl) hu
          have hvalue : (Operand.term z).valueOf t = .ok (e, S) := he
          have hset := setOp_ok.2 ⟨hhas, by rw [hshift]; exact hcategory, rfl⟩
          rw [inPlace, hshift, if_pos rfl, hvalue]
          exact ⟨_, hset⟩

/-- Comparisons and logical operators are among the operators of integers only. -/
theorem category_of_other {c : Category} (hop : StraightLine.isArithmetic op = false)
    (h : hasOperator c op = true) : c = .int ∨ c = .uint := by
  revert hop h
  cases c <;> cases op <;> decide

/-- Comparisons and logical operators are refused in place where the place is no integer. -/
theorem inPlace_refused (hop : StraightLine.isArithmetic op = false) {v : Operand}
    (hcategory : t.category p.type ≠ .int ∧ t.category p.type ≠ .uint) (i : Code.Instr) :
    inPlace t p op v ≠ .ok i := by
  intro h
  obtain ⟨e, -, hset⟩ := Compile.rules_ok h
  obtain ⟨hhas, -, -⟩ := setOp_ok.1 hset
  rcases category_of_other hop hhas with hc | hc
  · exact hcategory.1 hc
  · exact hcategory.2 hc

end Place

end ScriptCore
