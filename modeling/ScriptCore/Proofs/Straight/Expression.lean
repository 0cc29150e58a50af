import ScriptCore.Compile.Syntax
import ScriptCore.Machine.Execute
import ScriptCore.Proofs.Registers.Values
import ScriptCore.Proofs.Straight.Kind

/-!
# One expression, two compilers

An integer expression over local variables is compiled to an operand and to a register expression.
Without variables it is a constant, and the register expression computes its residue.  With
variables it is code of the kind that the expression has by itself, and where slots and registers
hold the same, code and register expression have the same value or fail with the same error.

Constants are folded exactly on one side only, and the count of a shift is an unsigned number on one
side if nothing says what it is.  `isExact` tells where this makes no difference.

Main statement: `operand_straight`.
-/

namespace ScriptCore

open Registers (File)

/-! ### Steps of a compilation -/

namespace Compile

variable {α β : Type} {c c' : Compiler}

/-- Two rules, one after the other. -/
theorem rules_ok {ε : Type} {first : Except ε α} {next : α → Except ε β} {b : β}
    (h : (first >>= next) = .ok b) : ∃ a, first = .ok a ∧ next a = .ok b := by
  cases first with
  | error e => cases h
  | ok a => exact ⟨a, rfl, h⟩

/-- A result without a step. -/
theorem pure_ok {a b : α} : (pure a : Compile α) c = .ok (b, c') ↔ a = b ∧ c = c' := by
  constructor
  · intro h
    cases h
    exact ⟨rfl, rfl⟩
  · rintro ⟨rfl, rfl⟩
    rfl

/-- Two steps. -/
theorem bind_ok {step : Compile α} {next : α → Compile β} {b : β} :
    (step >>= next) c = .ok (b, c') ↔ ∃ a c₁, step c = .ok (a, c₁) ∧ next a c₁ = .ok (b, c') := by
  change (step c).bind (fun r => next r.1 r.2) = .ok (b, c') ↔ _
  cases step c with
  | error e => simp [Except.bind]
  | ok r =>
      constructor
      · intro h
        exact ⟨r.1, r.2, rfl, h⟩
      · rintro ⟨a, c₁, heq, h⟩
        cases heq
        exact h

/-- A step whose errors get a place. -/
theorem at'_ok {span : Span} {step : Compile α} {a : α} :
    at' span step c = .ok (a, c') ↔ step c = .ok (a, c') := by
  unfold at'
  cases step c <;> simp

/-- A rule that needs nothing but what it is given. -/
theorem check_ok {rule : Except Fault α} {a : α} :
    check rule c = .ok (a, c') ↔ rule = .ok a ∧ c = c' := by
  cases rule with
  | error e =>
      constructor
      · intro h
        cases h
      · rintro ⟨h, -⟩
        cases h
  | ok b => simpa [check] using pure_ok (a := b)

/-- A rule on the types known so far. -/
theorem rule_ok {f : TypeTable → Except Fault α} {a : α} :
    rule f c = .ok (a, c') ↔ f c.types = .ok a ∧ c = c' :=
  check_ok

/-- A failure. -/
theorem fail_ok {f : Fault} {a : α} : ¬ (fail f : Compile α) c = .ok (a, c') := by
  intro h
  cases h

end Compile

/-- A checked result that a run goes on with. -/
theorem Run.bind_checked {α β : Type} {a : Run α} {res : Except EvalError α} {m : Machine}
    (h : a m = Run.check res m) (next : α → Run β) :
    (a >>= next) m = (Run.check res >>= next) m := by
  simp only [bind, EStateM.bind, h]

/-! ### What both compilers see -/

namespace StraightLine

/-- An integer that a constant was folded to. -/
def folded? : Except Fault Constant → Option Int
  | .ok (.int i) => some i
  | _ => none

/-- The exact value of an expression without variables. -/
def constantOf? : Expr → Option Int
  | .node _ (.int i) => some i
  | .node _ (.paren e) => constantOf? e
  | .node _ (.unary op e) =>
    match constantOf? e with
    | some i => folded? (Constant.unary op (.int i))
    | none => none
  | .node _ (.binary op a b) =>
    match constantOf? a, constantOf? b with
    | some i, some j => folded? (Constant.binary op (.int i) (.int j))
    | _, _ => none
  | _ => none

/-- An operator on two constants has the same residue at a kind as without a width. -/
def isExactOn (kind : Registers.Kind) (op : BinaryOp) (i j : Int) : Bool :=
  match op with
  | .div | .rem => decide (kind.Holds i) && decide (kind.Holds j)
  | .shr => decide (kind.Holds i)
  | _ => true

/-- It makes no difference that constants are folded without a width, nor that the count of a shift
is unsigned unless something says what it is. -/
def isExact (kinds : Name → Option Registers.Kind) (kind : Registers.Kind) : Expr → Bool
  | .node _ (.paren e) => isExact kinds kind e
  | .node _ (.unary _ e) => isExact kinds kind e
  | .node _ (.binary op a b) =>
    isExact kinds kind a &&
      isExact kinds (if op.isShift then (kindOf kinds b).getD .uint else kind) b &&
      match constantOf? a, constantOf? b with
      | some i, some j => isExactOn kind op i j
      | _, none => !op.isShift || (kindOf kinds b).isSome
      | none, some _ => true
  | _ => true

/-- Variables with a register are variables of the body, of the same kind. -/
def Scoped (t : TypeTable) (f : Frame) (registers : List (Name × Registers.Reg)) : Prop :=
  ∀ name reg, register? registers name = some reg →
    ∃ v, f.find? name = some v ∧ ofKind? (t.kind v.type) = some reg.kind

/-- The registers of names hold integers. -/
def AllIntegers (registers : List (Name × Registers.Reg)) : Prop :=
  ∀ name reg, register? registers name = some reg → reg.kind.isInteger = true

/-- Registers of variables of the body hold integers. -/
theorem Scoped.integers {t : TypeTable} {f : Frame} {registers : List (Name × Registers.Reg)}
    (h : Scoped t f registers) : AllIntegers registers := by
  intro name reg hreg
  obtain ⟨v, -, hv⟩ := h name reg hreg
  exact ofKind?_isInteger hv

/-- Variables with a register hold what the register holds, an integer of its kind. -/
def Sees (f : Frame) (registers : List (Name × Registers.Reg)) (r : Nat) (m : Machine)
    (file : File) : Prop :=
  ∀ name reg v, register? registers name = some reg → f.find? name = some v →
    (m.record r).get v.slot = file.values reg.id ∧ reg.kind.Has (file.values reg.id)

variable {registers : List (Name × Registers.Reg)} {k : Registers.Kind} {t : TypeTable} {f : Frame}

/-- The kind of the second operand of an operator on operands of a kind. -/
def secondKind (kinds : Name → Option Registers.Kind) (kind : Registers.Kind) (op : BinaryOp)
    (b : Expr) : Registers.Kind :=
  if op.isShift then (kindOf kinds b).getD .uint else kind

/-- What an expression of a kind is translated to, form by form. -/
inductive Translates (registers : List (Name × Registers.Reg)) :
    Registers.Kind → Expr → Registers.Expr → Prop where
  | ident (span : Span) (name : Name) (reg : Registers.Reg) :
    register? registers name = some reg →
      Translates registers reg.kind (.node span (.ident name)) (.reg reg)
  | literal (span : Span) (k : Registers.Kind) (i : Int) (c : Registers.Imm) :
    constant? k i = some c → Translates registers k (.node span (.int i)) (.imm c)
  | paren {k : Registers.Kind} {e : Expr} {x : Registers.Expr} (span : Span) :
    Translates registers k e x → Translates registers k (.node span (.paren e)) x
  | plus {k : Registers.Kind} {e : Expr} {x : Registers.Expr} (span : Span) :
    Translates registers k e x → Translates registers k (.node span (.unary .plus e)) x
  | unary {k : Registers.Kind} {e : Expr} {x : Registers.Expr} (span : Span)
    (op : Registers.Unary) : op ≠ .not → Translates registers k e x →
      Translates registers k (.node span (.unary op.operator e)) (.unary op x)
  | binary {k : Registers.Kind} {a b : Expr} {x y : Registers.Expr} (span : Span)
    (op : BinaryOp) : isArithmetic op = true → Translates registers k a x →
      Translates registers (secondKind (kindsIn registers) k op b) b y →
        Translates registers k (.node span (.binary op a b)) (.binary op x y)

/-- What is translated is translated form by form. -/
theorem translates {e : Expr} {x : Registers.Expr} (h : exprOf? registers k e = some x) :
    Translates registers k e x := by
  fun_induction exprOf? registers k e generalizing x with
  | case1 =>
      cases h
      exact .ident _ _ _ ‹_›
  | case4 =>
      obtain ⟨c, hc, rfl⟩ := Option.map_eq_some_iff.1 h
      exact .literal _ _ _ c hc
  | case5 _ _ _ ih => exact .paren _ (ih h)
  | case6 _ _ _ ih => exact .plus _ (ih h)
  | case7 _ _ _ ih =>
      obtain ⟨y, hy, rfl⟩ := Option.map_eq_some_iff.1 h
      exact .unary _ .neg (by decide) (ih hy)
  | case8 _ _ _ ih =>
      obtain ⟨y, hy, rfl⟩ := Option.map_eq_some_iff.1 h
      exact .unary _ .bitNot (by decide) (ih hy)
  | case10 _ _ _ _ _ harith _ _ hy hx ihA ihB =>
      cases h
      exact .binary _ _ harith (ihA hx) (ihB hy)
  | _ => cases h

/-- Arithmetic and shifts are not comparisons. -/
theorem isComparison_false {op : BinaryOp} (h : isArithmetic op = true) :
    op.isComparison = false := by
  revert h
  cases op <;> decide

/-- The registers of a translation are registers of variables. -/
theorem Translates.live {e : Expr} {x : Registers.Expr} (h : Translates registers k e x)
    {s : Registers.Lowering}
    (hlive : ∀ name reg, register? registers name = some reg → s.isLive reg.id = true) :
    x.Live s := by
  induction h with
  | ident span name reg hreg => exact hlive name reg hreg
  | literal => trivial
  | paren _ _ ih | plus _ _ ih | unary _ _ _ _ ih => exact ih
  | binary _ _ _ _ _ ihA ihB => exact ⟨ihA, ihB⟩

/-- The translation has the kind that was asked for. -/
theorem Translates.kind_eq {e : Expr} {x : Registers.Expr} (h : Translates registers k e x) :
    x.kind = k := by
  induction h with
  | ident => rfl
  | paren _ _ ih | plus _ _ ih | unary _ _ _ _ ih => exact ih
  | literal span k i c hc =>
      unfold constant? at hc
      split at hc
      · split at hc
        · cases hc
          rfl
        · cases hc
      · split at hc
        · cases hc
          rfl
        · cases hc
  | binary span op harith _ _ ih _ => simp [Registers.Expr.kind, isComparison_false harith, ih]

/-- A constant of a kind denotes its residue. -/
theorem constant?_value {i : Int} {c : Registers.Imm} (h : constant? k i = some c) :
    c.value = k.cast i := by
  unfold constant? at h
  unfold Registers.Imm.value Registers.Kind.cast
  split at h
  · rename_i hsigned
    split at h
    · cases h
      simp [Registers.Imm.int, hsigned]
    · cases h
  · rename_i hsigned
    split at h
    · cases h
      simp [Registers.Imm.uint, hsigned]
    · cases h

/-- Only integers are kinds of expressions. -/
theorem kindOf_isInteger (hregisters : AllIntegers registers) {e : Expr}
    (h : kindOf (kindsIn registers) e = some k) : k.isInteger = true := by
  fun_induction kindOf (kindsIn registers) e with
  | case1 span name =>
      obtain ⟨reg, hreg, rfl⟩ := Option.map_eq_some_iff.1 h
      exact hregisters name reg hreg
  | case2 _ _ ih | case3 _ _ _ ih | case4 _ _ _ _ _ ih => exact ih h
  | case5 _ _ _ _ _ ihA ihB =>
      rcases Option.or_eq_some_iff.1 h with ha | ⟨-, hb⟩
      · exact ihA ha
      · exact ihB hb
  | case6 => cases h

/-- The kind that an expression has by itself, or else a kind of integers. -/
theorem kindOf_getD_isInteger (hregisters : AllIntegers registers) (hk : k.isInteger = true)
    (e : Expr) : ((kindOf (kindsIn registers) e).getD k).isInteger = true := by
  cases h : kindOf (kindsIn registers) e with
  | none => exact hk
  | some own => exact kindOf_isInteger hregisters h

/-- The kind of a count is an integer kind. -/
theorem secondKind_isInteger (hregisters : AllIntegers registers) (hk : k.isInteger = true)
    (op : BinaryOp) (b : Expr) :
    (secondKind (kindsIn registers) k op b).isInteger = true := by
  unfold secondKind
  split
  · exact kindOf_getD_isInteger hregisters rfl b
  · exact hk

/-! ### Code for an expression -/

/-- Code that has the value of a register expression wherever slots and registers agree. -/
structure Renders (f : Frame) (registers : List (Name × Registers.Reg)) (k : Registers.Kind)
    (x : Registers.Expr) (e : Code.Typed) : Prop where
  category : e.category = if k.isSigned then .int else .uint
  value : ∀ ctx r m file, Sees f registers r m file →
    eval ctx r e.expr m = Run.check (x.value file) m
  has : ∀ r m file v, Sees f registers r m file → x.value file = .ok v → k.Has v

/-- What an expression of a kind compiles to: a constant if it has no variables, and otherwise code
of the kind that the expression has by itself. -/
inductive Compiled (t : TypeTable) (f : Frame) (registers : List (Name × Registers.Reg))
    (k : Registers.Kind) (e : Expr) (x : Registers.Expr) : Term → Prop where
  | constant (i : Int) : constantOf? e = some i → kindOf (kindsIn registers) e = none →
    (∀ file, x.value file = .ok (k.cast i)) → Compiled t f registers k e x (.untyped (.int i))
  | code (te : Code.Typed) (ty : Ty) : constantOf? e = none →
    ofKind? (t.kind ty) = some ((kindOf (kindsIn registers) e).getD .int) →
    ((kindOf (kindsIn registers) e).getD .int = k → Renders f registers k x te) →
      Compiled t f registers k e x (.code te ty)

/-- The categories of integers. -/
theorem category_eq {ty : Ty} (h : ofKind? (t.kind ty) = some k) :
    t.category ty = if k.isSigned then .int else .uint :=
  ofKind?_category h

/-- A constant that is represented in an integer type fits the kind of the type. -/
theorem represent_ok {i : Int} {ty : Ty} {d : Constant} (hty : ofKind? (t.kind ty) = some k)
    (h : (Constant.int i).represent t ty = .ok d) : d = .int i ∧ k.Holds i := by
  have hcategory : (t.kind ty).category = if k.isSigned then .int else .uint := category_eq hty
  have hint : (Constant.int i).representInt (t.kind ty) ty = .ok d := by
    unfold Constant.represent at h
    dsimp only at h
    rw [hcategory] at h
    cases hsigned : k.isSigned <;> simpa [hsigned] using h
  unfold Constant.representInt at hint
  simp only [Constant.asInt?] at hint
  split at hint
  · cases hint
  · cases hint
    rw [Registers.Kind.Holds, ofKind?_scalar hty]
    exact ⟨rfl, by omega, by omega⟩

/-- The value of a constant that is used as a value of an integer type. -/
theorem toValue_ok {i : Int} {ty : Ty} {v : Value} (hty : ofKind? (t.kind ty) = some k)
    (h : (Constant.int i).toValue t ty = .ok v) : v = k.cast i ∧ k.Holds i := by
  obtain ⟨d, hd, h⟩ := Compile.rules_ok h
  obtain ⟨rfl, hholds⟩ := represent_ok hty hd
  refine ⟨?_, hholds⟩
  simp only [category_eq hty] at h
  cases hsigned : k.isSigned with
  | true =>
      rw [hsigned] at h
      cases h
      rw [Registers.Kind.cast_signed hsigned, narrowInt_ofInt hholds]
      rfl
  | false =>
      rw [hsigned] at h
      cases h
      rw [Registers.Kind.cast_unsigned hsigned, narrowUint_ofInt hholds]

/-- A fixed value of an integer type. -/
theorem fixed_ok {i : Int} {ty : Ty} {te : Code.Typed} (hty : ofKind? (t.kind ty) = some k)
    (h : Term.fixed t (.int i) ty = .ok te) :
    te = ⟨if k.isSigned then .int else .uint, .const (k.cast i)⟩ ∧ k.Holds i := by
  obtain ⟨v, hv, h⟩ := Compile.rules_ok h
  obtain ⟨rfl, hholds⟩ := toValue_ok hty hv
  refine ⟨?_, hholds⟩
  rw [category_eq hty] at h
  cases h
  cases hsigned : k.isSigned with
  | true => rw [Registers.Kind.cast_signed hsigned]; rfl
  | false => rw [Registers.Kind.cast_unsigned hsigned]; rfl

/-- A constant of a kind renders what has its value. -/
theorem renders_const {i : Int} {x : Registers.Expr} (hx : ∀ file, x.value file = .ok (k.cast i)) :
    Renders f registers k x ⟨if k.isSigned then .int else .uint, .const (k.cast i)⟩ := by
  refine ⟨rfl, fun ctx r m file _ => ?_, fun r m file v _ hv => ?_⟩
  · rw [hx, eval_const]
    rfl
  · rw [hx] at hv
    cases hv
    exact ⟨i, rfl⟩

/-- A fixed value renders a constant. -/
theorem renders_fixed {i : Int} {ty : Ty} {te : Code.Typed} {x : Registers.Expr}
    (hty : ofKind? (t.kind ty) = some k) (hx : ∀ file, x.value file = .ok (k.cast i))
    (h : Term.fixed t (.int i) ty = .ok te) : Renders f registers k x te := by
  rw [(fixed_ok hty h).1]
  exact renders_const hx

namespace Compiled

variable {e : Expr} {x : Registers.Expr} {z : Term} {te : Code.Typed} {ty : Ty}

/-- A compiled expression as a value of a type of the kind. -/
theorem valueFor (h : Compiled t f registers k e x z) (hty : ofKind? (t.kind ty) = some k)
    (hvalue : z.valueFor t ty = .ok te) : Renders f registers k x te := by
  cases h with
  | constant i _ _ hx => exact renders_fixed hty hx hvalue
  | code te' ty' _ hkind hrenders =>
      cases hassign : t.assignable ty' ty with
      | false =>
          simp [Term.valueFor, Term.requireAssignable, hassign, Bind.bind, Except.bind] at hvalue
      | true =>
          rw [kind_of_assignable hty hassign, hty] at hkind
          simp only [Term.valueFor, Term.requireAssignable, hassign, isInterface_false hty,
            Bind.bind, Except.bind, if_true] at hvalue
          cases hvalue
          exact hrenders (Option.some.inj hkind).symm

/-- A compiled expression as a value of its own type. -/
theorem valueOf (h : Compiled t f registers k e x z) (hvalue : z.valueOf t = .ok (te, ty)) :
    ofKind? (t.kind ty) = some ((kindOf (kindsIn registers) e).getD .int) ∧
      ((kindOf (kindsIn registers) e).getD .int = k → Renders f registers k x te) := by
  cases h with
  | constant i _ hkind hx =>
      cases hte : Term.fixed t (.int i) (.basic .int) with
      | error e =>
          simp [Term.untyped, Term.valueOf, Term.type, Constant.defaultType?, hte, Bind.bind,
            Except.bind] at hvalue
      | ok te' =>
          simp only [Term.untyped, Term.valueOf, Term.type, Constant.defaultType?, hte, Bind.bind,
            Except.bind] at hvalue
          cases hvalue
          rw [hkind]
          refine ⟨rfl, fun hk => ?_⟩
          subst hk
          exact renders_fixed rfl hx hte
  | code te' ty' _ hkind hrenders =>
      cases hvalue
      exact ⟨hkind, hrenders⟩

/-- A variable is loaded from its slot. -/
theorem ident {span : Span} {name : Name} {reg : Registers.Reg} {v : Local}
    (hreg : register? registers name = some reg) (hv : f.find? name = some v)
    (hkind : ofKind? (t.kind v.type) = some reg.kind) :
    Compiled t f registers reg.kind (.node span (.ident name)) (.reg reg)
      (.ofExpr t (.load 0 v.slot) v.type) := by
  have hown : kindOf (kindsIn registers) (.node span (.ident name)) = some reg.kind := by
    simp [kindOf, kindsIn, hreg]
  refine .code _ _ rfl (by rw [hown]; exact hkind) fun _ => ⟨?_, ?_, ?_⟩
  · rw [category_eq hkind]
    cases reg.kind.isSigned <;> rfl
  · intro ctx r m file hsees
    obtain ⟨hslot, hhas⟩ := hsees name reg v hreg hv
    have hload : eval ctx r (.load 0 v.slot) m =
        Run.check (.ok (file.values reg.id)) m := by
      rw [eval, ← hslot]
      rfl
    have hexpect : eval ctx r (.expect (if reg.kind.isSigned then .int else .uint)
        (.load 0 v.slot)) m = .ok (file.values reg.id) m := by
      rw [eval, Run.bind_checked hload]
      change Run.check _ m = _
      rw [hhas.expect]
      rfl
    rw [category_eq hkind]
    cases hsigned : reg.kind.isSigned <;> rw [hsigned] at hexpect <;> exact hexpect
  · intro r m file w hsees hw
    cases hw
    exact (hsees name reg v hreg hv).2

/-- A unary operator on a constant is folded. -/
theorem unary_constant {op : Registers.Unary} (hop : op ≠ .not) {i : Int} {w : Term}
    (h : Term.unary t op.operator (.untyped (.int i)) = .ok w) :
    ∃ j, Constant.unary op.operator (.int i) = .ok (.int j) ∧ w = .untyped (.int j) := by
  cases op with
  | not => exact absurd rfl hop
  | bitNot =>
      cases h
      exact ⟨_, rfl, rfl⟩
  | neg =>
      cases hfits : fits128 (-i) with
      | false =>
          simp [Term.unary, Term.untyped, Registers.Unary.operator, Constant.unary,
            Constant.checked, hfits, Bind.bind, Except.bind] at h
      | true =>
          simp only [Term.unary, Term.untyped, Registers.Unary.operator, Constant.unary,
            Constant.checked, hfits, if_true, Bind.bind, Except.bind] at h ⊢
          cases h
          exact ⟨_, rfl, rfl⟩

/-- A unary operator on code is applied to its value. -/
theorem unary_code {op : Registers.Unary} (hop : op ≠ .not) {w : Term}
    (h : Term.unary t op.operator (.code te ty) = .ok w) :
    w = .code ⟨te.category, .unary op.operator (t.kind ty) te.expr⟩ ty := by
  cases op with
  | not => exact absurd rfl hop
  | neg | bitNot =>
      obtain ⟨category, expr⟩ := te
      cases category <;> cases h <;> rfl

/-- What is compiled alike. -/
theorem congr {e' : Expr} (hconst : constantOf? e' = constantOf? e)
    (hkind : kindOf (kindsIn registers) e' = kindOf (kindsIn registers) e)
    (h : Compiled t f registers k e x z) : Compiled t f registers k e' x z := by
  cases h with
  | constant i hi hnone hx => exact .constant i (hconst.trans hi) (hkind.trans hnone) hx
  | code te ty hnone hown hrenders =>
      rw [← hkind] at hown hrenders
      exact .code te ty (hconst.trans hnone) hown hrenders

/-- A sign that changes nothing. -/
theorem plus {w : Term} (h : Compiled t f registers k e x z) (hw : z.unary t .plus = .ok w) :
    w = z := by
  cases h with
  | constant i _ _ _ =>
      cases hw
      rfl
  | code te ty _ _ _ =>
      obtain ⟨category, expr⟩ := te
      cases category <;> cases hw <;> rfl

/-- A unary operator. -/
theorem unary {span : Span} {op : Registers.Unary} (hop : op ≠ .not) (hk : x.kind = k)
    (h : Compiled t f registers k e x z) {w : Term} (hw : z.unary t op.operator = .ok w) :
    Compiled t f registers k (.node span (.unary op.operator e)) (.unary op x) w := by
  have hvalue (file : File) : (Registers.Expr.unary op x).value file =
      (x.value file >>= unaryValue op.operator k.scalar) := by
    rw [Registers.Expr.value, Registers.Expr.kind, hk]
  have hown : kindOf (kindsIn registers) (.node span (.unary op.operator e)) =
      kindOf (kindsIn registers) e := by
    rw [kindOf]
  cases h with
  | constant i hconst hkind hx =>
      obtain ⟨j, hj, rfl⟩ := unary_constant hop hw
      refine .constant j ?_ (hown.trans hkind) fun file => ?_
      · simp [constantOf?, hconst, hj, folded?]
      · rw [hvalue, hx]
        exact unary_cast k hj
  | code te ty hconst hkind hrenders =>
      obtain rfl := unary_code hop hw
      refine .code _ _ (by simp [constantOf?, hconst]) (by rw [hown]; exact hkind) fun hself => ?_
      rw [hown] at hself
      have hrender := hrenders hself
      have hscalar := ofKind?_scalar (hself ▸ hkind)
      refine ⟨hrender.category, fun ctx r m file hsees => ?_, fun r m file v hsees hv => ?_⟩
      · rw [eval, Run.bind_checked (hrender.value ctx r m file hsees), hvalue, hscalar]
        cases x.value file <;> rfl
      · rw [hvalue] at hv
        cases hx : x.value file with
        | error e =>
            rw [hx] at hv
            cases hv
        | ok u =>
            rw [hx] at hv
            exact (hrender.has r m file u hsees hx).unary hv

/-! ### Binary operators -/

/-- Integers are folded to integers. -/
theorem constant_binary {op : BinaryOp} (harith : isArithmetic op = true) {i j : Int}
    {d : Constant} (h : Constant.binary op (.int i) (.int j) = .ok d) : ∃ l, d = .int l := by
  have hchecked {text : String} {l : Int} {d : Constant}
      (hl : Constant.checked text l = .ok d) : d = .int l := by
    unfold Constant.checked at hl
    split at hl <;> cases hl
    rfl
  have hshift (op : BinaryOp) (h : Constant.shift op (.int i) (.int j) = .ok d) :
      ∃ l, d = .int l := by
    simp only [Constant.shift, Constant.asInt?] at h
    split at h
    · cases h
    · split at h
      · split at h <;> cases h
        exact ⟨_, rfl⟩
      · cases h
        exact ⟨_, rfl⟩
  cases op with
  | add | sub | mul => exact ⟨_, hchecked h⟩
  | div =>
      change (if j = 0 then _ else _) = _ at h
      split at h
      · cases h
      · exact ⟨_, hchecked h⟩
  | rem =>
      change (if j = 0 then _ else Except.bind _ _) = _ at h
      split at h
      · cases h
      · unfold Except.bind at h
        split at h <;> cases h
        exact ⟨_, rfl⟩
  | and | or | xor | andNot =>
      cases h
      exact ⟨_, rfl⟩
  | shl | shr => exact hshift _ h
  | _ => cases harith

/-- An operator on two constants is folded. -/
theorem binary_constant {op : BinaryOp} (harith : isArithmetic op = true) {i j : Int} {w : Term}
    (h : Term.binary t op (.untyped (.int i)) (.untyped (.int j)) = .ok w) :
    ∃ l, Constant.binary op (.int i) (.int j) = .ok (.int l) ∧ w = .untyped (.int l) := by
  cases hd : Constant.binary op (.int i) (.int j) with
  | error e =>
      cases hshift : op.isShift <;>
        simp [Term.binary, Term.untyped, Term.fold, hshift, hd, Bind.bind, Except.bind] at h
  | ok d =>
      obtain ⟨l, rfl⟩ := constant_binary harith hd
      refine ⟨l, rfl, ?_⟩
      cases hshift : op.isShift <;>
        simp only [Term.binary, Term.untyped, Term.fold, hshift, hd, Bind.bind, Except.bind,
          isComparison_false harith, Bool.false_eq_true, if_false, if_true] at h
      · cases h
        rfl
      · cases h
        rfl

/-- Arithmetic converts both operands to one type. -/
theorem converted_ok {op : BinaryOp} (harith : op.isIntArith = true) {z z' w : Term}
    (h : Term.converted t op z z' = .ok w) :
    ∃ ty a b, Term.commonType t op z z' = .ok ty ∧ z.valueFor t ty = .ok a ∧
      z'.valueFor t ty = .ok b ∧
      w = .code ⟨a.category, .binary op (t.kind ty) a.expr b.expr⟩ ty := by
  have hcomparison : op.isComparison = false := by
    cases op with
    | add | sub | mul | div | rem | and | or | xor | andNot => rfl
    | _ => cases harith
  have hlogical : op.isLogical = false := by
    cases op with
    | add | sub | mul | div | rem | and | or | xor | andNot => rfl
    | _ => cases harith
  unfold Term.converted at h
  cases hty : Term.commonType t op z z' with
  | error e => simp [hty, Bind.bind, Except.bind] at h
  | ok ty =>
      cases ha : z.valueFor t ty with
      | error e => simp [hty, ha, Bind.bind, Except.bind] at h
      | ok a =>
          cases hb : z'.valueFor t ty with
          | error e => simp [hty, ha, hb, Bind.bind, Except.bind] at h
          | ok b =>
              simp only [hty, ha, hb, hcomparison, hlogical, Bind.bind, Except.bind,
                Bool.false_eq_true, if_false, Term.arithmetic] at h
              split at h
              · cases h
                exact ⟨ty, a, b, rfl, ha, hb, rfl⟩
              · cases h

/-- A shift has a count, and the type of what is shifted. -/
theorem shift_ok {op : BinaryOp} {z z' w : Term} (h : Term.shift t op z z' = .ok w) :
    ∃ count a ty, Term.shiftCount t op z' = .ok count ∧ z.valueOf t = .ok (a, ty) ∧
      w = .code ⟨a.category, .binary op (t.kind ty) a.expr count⟩ ty := by
  unfold Term.shift at h
  cases hcount : Term.shiftCount t op z' with
  | error e => simp [hcount, Bind.bind, Except.bind] at h
  | ok count =>
      cases ha : z.valueOf t with
      | error e => simp [hcount, ha, Bind.bind, Except.bind] at h
      | ok r =>
          obtain ⟨a, ty⟩ := r
          simp only [hcount, ha, Bind.bind, Except.bind] at h
          split at h
          · cases h
            exact ⟨count, a, ty, rfl, rfl, rfl⟩
          · cases h

/-- The value of a binary computation, at the kind of its first operand. -/
theorem binary_value {op : BinaryOp} (harith : isArithmetic op = true) {y : Registers.Expr}
    (hk : x.kind = k) (file : File) :
    (Registers.Expr.binary op x y).value file = (do
      let u ← x.value file
      let v ← y.value file
      binaryValues op k.scalar u v) := by
  rw [Registers.Expr.value, Registers.Expr.kind, isComparison_false harith, hk]
  rfl

/-- Code for both operands, in order, and the operator on their values. -/
theorem eval_binary {op : BinaryOp} {ty : Ty} {a b : Code.Expr} {ctx : Context} {r : Nat}
    {m : Machine} {u v : Except EvalError Value} (ha : eval ctx r a m = Run.check u m)
    (hb : eval ctx r b m = Run.check v m) :
    eval ctx r (.binary op (t.kind ty) a b) m = Run.check (do
      let u ← u
      let v ← v
      binaryValues op (t.kind ty) u v) m := by
  rw [eval, Run.bind_checked ha]
  cases u with
  | error e => rfl
  | ok u =>
      change (eval ctx r b >>= _) m = _
      rw [Run.bind_checked hb]
      cases v <;> rfl

/-- The count of a shift is code for its value. -/
theorem shiftCount (h : Compiled t f registers k e x z)
    (hk : k = (kindOf (kindsIn registers) e).getD .uint)
    (hkind : constantOf? e = none → (kindOf (kindsIn registers) e).isSome = true)
    {op : BinaryOp} {count : Code.Expr} (hcount : Term.shiftCount t op z = .ok count)
    {ctx : Context} {r : Nat} {m : Machine} {file : File} (hsees : Sees f registers r m file) :
    eval ctx r count m = Run.check (x.value file) m := by
  cases h with
  | constant i _ hnone hx =>
      rw [hnone] at hk
      subst hk
      simp only [Term.shiftCount, Term.untyped, Constant.asInt?] at hcount
      split at hcount
      · rename_i hrange
        cases hcount
        rw [hx, eval_const]
        rfl
      · cases hcount
  | code te ty hconst hown hrenders =>
      obtain ⟨kb, hkb⟩ := Option.isSome_iff_exists.1 (hkind hconst)
      rw [hkb] at hk hrenders
      subst hk
      have hvalue := (hrenders rfl).value ctx r m file hsees
      have hexpr : count = te.expr := by
        simp only [Term.shiftCount, Term.valueOf, Bind.bind, Except.bind] at hcount
        split at hcount <;> cases hcount
        rfl
      rw [hexpr, hvalue]

/-- The type to which both operands are converted has the kind of the operator. -/
theorem commonType {op : BinaryOp} {a b : Expr} {y : Registers.Expr} {z' : Term}
    (ha : Compiled t f registers k a x z) (hb : Compiled t f registers k b y z')
    (h : Term.commonType t op z z' = .ok ty) :
    ofKind? (t.kind ty) =
      some (((kindOf (kindsIn registers) a).or (kindOf (kindsIn registers) b)).getD .int) := by
  cases ha with
  | constant i _ hnone _ =>
      cases hb with
      | constant j _ _ _ => cases h
      | code te' ty' _ hkind _ =>
          cases h
          rw [hnone]
          exact hkind
  | code te ty₁ _ hkind _ =>
      cases hb with
      | constant j _ hnone _ =>
          cases h
          rw [hnone, Option.or_none]
          exact hkind
      | code te' ty₂ _ hkind' _ =>
          simp only [Term.commonType, Term.type?, isInterface_false hkind,
            isInterface_false hkind', Bool.false_and, Bool.false_eq_true, if_false] at h
          split at h
          · rename_i heq
            cases h
            subst heq
            cases hka : kindOf (kindsIn registers) a with
            | none => exact hkind'
            | some ka =>
                rw [hka] at hkind
                exact hkind
          · cases h

/-- A folded operator: where `isExactOn` holds, the residue of the exact result is computed. -/
theorem binary_folded {span : Span} {op : BinaryOp} (harith : isArithmetic op = true)
    (hx : x.kind = k) (hk : k.isInteger = true) {a b : Expr} {y : Registers.Expr} {i j l : Int}
    (ha : constantOf? a = some i) (hnoneA : kindOf (kindsIn registers) a = none)
    (hvalueA : ∀ file, x.value file = .ok (k.cast i)) (hb : constantOf? b = some j)
    (hnoneB : kindOf (kindsIn registers) b = none)
    (hvalueB : ∀ file, y.value file =
      .ok ((secondKind (kindsIn registers) k op b).cast j))
    (hexact : isExactOn k op i j = true)
    (hl : Constant.binary op (.int i) (.int j) = .ok (.int l)) :
    Compiled t f registers k (.node span (.binary op a b)) (.binary op x y)
      (.untyped (.int l)) := by
  refine .constant l (by simp [constantOf?, ha, hb, hl, folded?]) ?_ fun file => ?_
  · simp [kindOf, hnoneA, hnoneB]
  · rw [binary_value harith hx, hvalueA, hvalueB]
    change binaryValues op k.scalar (k.cast i) _ = _
    unfold secondKind
    cases hshift : op.isShift with
    | true =>
        rw [if_pos rfl, hnoneB]
        refine shift_cast hk hshift hl fun hshr => ?_
        subst hshr
        simpa [isExactOn] using hexact
    | false =>
        have hint : op.isIntArith = true := by simpa [isArithmetic, hshift] using harith
        refine binary_cast hk hint hl fun hop => ?_
        rcases hop with rfl | rfl <;> simpa [isExactOn] using hexact

/-- A shift. -/
theorem shifted {span : Span} {op : BinaryOp} (harith : isArithmetic op = true)
    (hshift : op.isShift = true) (hx : x.kind = k) {a b : Expr} {y : Registers.Expr} {z' w : Term}
    (hnone : constantOf? (.node span (.binary op a b)) = none)
    (ha : Compiled t f registers k a x z)
    (hb : Compiled t f registers (secondKind (kindsIn registers) k op b) b y z')
    (hcounted : constantOf? b = none → (kindOf (kindsIn registers) b).isSome = true)
    (hw : Term.shift t op z z' = .ok w) :
    Compiled t f registers k (.node span (.binary op a b)) (.binary op x y) w := by
  obtain ⟨count, te, ty, hcount, hvalue, rfl⟩ := shift_ok hw
  obtain ⟨hkind, hrenders⟩ := ha.valueOf hvalue
  have hown : kindOf (kindsIn registers) (.node span (.binary op a b)) =
      kindOf (kindsIn registers) a := by
    simp [kindOf, hshift]
  refine .code _ _ hnone (by rw [hown]; exact hkind) fun hself => ?_
  rw [hown] at hself
  have hrender := hrenders hself
  have hscalar := ofKind?_scalar (hself ▸ hkind)
  refine ⟨hrender.category, fun ctx r m file hsees => ?_, fun r m file v hsees hv => ?_⟩
  · rw [binary_value harith hx, hscalar]
    exact eval_binary (hrender.value ctx r m file hsees)
      (hb.shiftCount (by rw [secondKind, if_pos hshift]) hcounted hcount hsees)
  · rw [binary_value harith hx] at hv
    cases hu : x.value file with
    | error err => rw [hu] at hv; cases hv
    | ok u =>
        rw [hu] at hv
        cases hn : y.value file with
        | error err => rw [hn] at hv; cases hv
        | ok n =>
            rw [hn] at hv
            exact (hrender.has r m file u hsees hu).shift hshift hv

/-- Arithmetic. -/
theorem arithmetic {span : Span} {op : BinaryOp} (harith : op.isIntArith = true)
    (hshift : op.isShift = false) (hx : x.kind = k) {a b : Expr} {y : Registers.Expr} {z' w : Term}
    (hnone : constantOf? (.node span (.binary op a b)) = none)
    (ha : Compiled t f registers k a x z) (hb : Compiled t f registers k b y z')
    (hw : Term.converted t op z z' = .ok w) :
    Compiled t f registers k (.node span (.binary op a b)) (.binary op x y) w := by
  obtain ⟨ty, te, te', hty, hte, hte', rfl⟩ := converted_ok harith hw
  have hkind := ha.commonType hb hty
  have harith' : isArithmetic op = true := by simp [isArithmetic, harith]
  have hown : kindOf (kindsIn registers) (.node span (.binary op a b)) =
      (kindOf (kindsIn registers) a).or (kindOf (kindsIn registers) b) := by
    simp [kindOf, hshift]
  refine .code _ _ hnone (by rw [hown]; exact hkind) fun hself => ?_
  rw [hown] at hself
  rw [hself] at hkind
  have hrender : Renders f registers k x te := ha.valueFor hkind hte
  have hrender' : Renders f registers k y te' := hb.valueFor hkind hte'
  have hscalar := ofKind?_scalar hkind
  refine ⟨hrender.category, fun ctx r m file hsees => ?_, fun r m file v hsees hv => ?_⟩
  · rw [binary_value harith' hx, hscalar]
    exact eval_binary (hrender.value ctx r m file hsees) (hrender'.value ctx r m file hsees)
  · rw [binary_value harith' hx] at hv
    cases hu : x.value file with
    | error err => rw [hu] at hv; cases hv
    | ok u =>
        rw [hu] at hv
        cases hn : y.value file with
        | error err => rw [hn] at hv; cases hv
        | ok n =>
            rw [hn] at hv
            exact (hrender.has r m file u hsees hu).binary (hrender'.has r m file n hsees hn)
              harith hv

/-- A binary operator. -/
theorem binary {span : Span} {op : BinaryOp} (harith : isArithmetic op = true) (hx : x.kind = k)
    (hk : k.isInteger = true) {a b : Expr} {y : Registers.Expr} {z' w : Term}
    (ha : Compiled t f registers k a x z)
    (hb : Compiled t f registers (secondKind (kindsIn registers) k op b) b y z')
    (hfold : ∀ i j, constantOf? a = some i → constantOf? b = some j → isExactOn k op i j = true)
    (hcounted : op.isShift = true → constantOf? b = none →
      (kindOf (kindsIn registers) b).isSome = true)
    (hw : Term.binary t op z z' = .ok w) :
    Compiled t f registers k (.node span (.binary op a b)) (.binary op x y) w := by
  have hmixed (hnone : constantOf? (.node span (.binary op a b)) = none)
      (hw : (if op.isShift then Term.shift t op z z' else Term.converted t op z z') = .ok w) :
      Compiled t f registers k (.node span (.binary op a b)) (.binary op x y) w := by
    cases hshift : op.isShift with
    | true =>
        rw [hshift, if_pos rfl] at hw
        exact shifted harith hshift hx hnone ha hb (hcounted hshift) hw
    | false =>
        rw [hshift, if_neg (by decide)] at hw
        rw [secondKind, hshift, if_neg (by decide)] at hb
        have hint : op.isIntArith = true := by simpa [isArithmetic, hshift] using harith
        exact arithmetic hint hshift hx hnone ha hb hw
  cases ha with
  | constant i hi hnoneA hvalueA =>
      cases hb with
      | constant j hj hnoneB hvalueB =>
          obtain ⟨l, hl, rfl⟩ := binary_constant harith hw
          exact binary_folded harith hx hk hi hnoneA hvalueA hj hnoneB hvalueB (hfold i j hi hj) hl
      | code te' ty' hnone _ _ => exact hmixed (by simp [constantOf?, hnone]) hw
  | code te ty hnone _ _ => exact hmixed (by simp [constantOf?, hnone]) (by cases hb <;> exact hw)

end Compiled

/-- Whether a binary operator makes a difference. -/
theorem isExact_binary {kinds : Name → Option Registers.Kind} {span : Span} {op : BinaryOp}
    {a b : Expr} (h : isExact kinds k (.node span (.binary op a b)) = true) :
    isExact kinds k a = true ∧ isExact kinds (secondKind kinds k op b) b = true ∧
      (∀ i j, constantOf? a = some i → constantOf? b = some j → isExactOn k op i j = true) ∧
      (op.isShift = true → constantOf? b = none → (kindOf kinds b).isSome = true) := by
  simp only [isExact, Bool.and_eq_true] at h
  obtain ⟨⟨ha, hb⟩, hnode⟩ := h
  refine ⟨ha, hb, fun i j hi hj => ?_, fun hshift hnone => ?_⟩
  · simpa [hi, hj] using hnode
  · simpa [hnone, hshift] using hnode

/-! ### Compilation of expressions -/

/-- The meaning of a variable of the body. -/
theorem resolve_variable {c : Compiler} {name : Name} {v : Local}
    (hv : c.frame.find? name = some v) :
    Compile.resolve name c = .ok (.var 0 v.slot v.type, c) :=
  Compile.resolve_some (Compiler.resolve_local hv)

/-- A variable of the body is loaded. -/
theorem identifier_ok {c c' : Compiler} {name : Name} {v : Local} {o : Operand}
    (hv : c.frame.find? name = some v) (h : Compile.identifier name c = .ok (o, c')) :
    c' = c ∧ o = .term (.ofExpr c.types (.load 0 v.slot) v.type) := by
  obtain ⟨m, c₁, hm, h⟩ := Compile.bind_ok.1 h
  rw [resolve_variable hv] at hm
  cases hm
  cases h
  exact ⟨rfl, rfl⟩

/-- The parts of a unary operation that compiles. -/
theorem operand_unary {c c' : Compiler} {span : Span} {op : UnaryOp} {e : Expr} {o : Operand}
    (h : Compile.operand (.node span (.unary op e)) c = .ok (o, c')) :
    ∃ o₁ z w, Compile.operand e c = .ok (o₁, c') ∧ o₁.single = .ok z ∧
      z.unary c'.types op = .ok w ∧ o = .term w := by
  rw [Compile.operand_node, Compile.at'_ok, Compile.operandOf] at h
  obtain ⟨o₁, c₁, ho₁, h⟩ := Compile.bind_ok.1 h
  obtain ⟨z, c₂, hsingle, h⟩ := Compile.bind_ok.1 h
  obtain ⟨hz, rfl⟩ := Compile.check_ok.1 hsingle
  obtain ⟨w, c₃, hrule, h⟩ := Compile.bind_ok.1 h
  obtain ⟨hw, rfl⟩ := Compile.rule_ok.1 hrule
  obtain ⟨rfl, rfl⟩ := Compile.pure_ok.1 h
  exact ⟨o₁, z, w, ho₁, hz, hw, rfl⟩

/-- The parts of a binary operation that compiles. -/
theorem operand_binary {c c' : Compiler} {span : Span} {op : BinaryOp} {a b : Expr} {o : Operand}
    (h : Compile.operand (.node span (.binary op a b)) c = .ok (o, c')) :
    ∃ o₁ c₁ z o₂ z' w, Compile.operand a c = .ok (o₁, c₁) ∧ o₁.single = .ok z ∧
      Compile.operand b c₁ = .ok (o₂, c') ∧ o₂.single = .ok z' ∧
      Term.binary c'.types op z z' = .ok w ∧ o = .term w := by
  rw [Compile.operand_node, Compile.at'_ok, Compile.operandOf] at h
  obtain ⟨o₁, c₁, ho₁, h⟩ := Compile.bind_ok.1 h
  obtain ⟨z, c₂, hsingle, h⟩ := Compile.bind_ok.1 h
  obtain ⟨hz, rfl⟩ := Compile.check_ok.1 hsingle
  obtain ⟨o₂, c₃, ho₂, h⟩ := Compile.bind_ok.1 h
  obtain ⟨z', c₄, hsingle', h⟩ := Compile.bind_ok.1 h
  obtain ⟨hz', rfl⟩ := Compile.check_ok.1 hsingle'
  obtain ⟨w, c₅, hrule, h⟩ := Compile.bind_ok.1 h
  obtain ⟨hw, rfl⟩ := Compile.rule_ok.1 hrule
  obtain ⟨rfl, rfl⟩ := Compile.pure_ok.1 h
  exact ⟨o₁, c₁, z, o₂, z', w, ho₁, hz, ho₂, hz', hw, rfl⟩

/-- **An integer expression means the same to both compilers**: it compiles, without a trace in the
state of the compiler, to a constant or to code that renders its translation. -/
theorem operand_straight {c c' : Compiler} {e : Expr} {x : Registers.Expr} {o : Operand}
    (hscope : Scoped c.types c.frame registers) (h : Translates registers k e x)
    (hk : k.isInteger = true) (hexact : isExact (kindsIn registers) k e = true)
    (ho : Compile.operand e c = .ok (o, c')) :
    c' = c ∧ ∃ z, o = .term z ∧ Compiled c.types c.frame registers k e x z := by
  induction h generalizing c' o with
  | ident span name reg hreg =>
      obtain ⟨v, hv, hkind⟩ := hscope name reg hreg
      rw [Compile.operand_node, Compile.at'_ok, Compile.operandOf] at ho
      obtain ⟨rfl, rfl⟩ := identifier_ok hv ho
      exact ⟨rfl, _, rfl, .ident hreg hv hkind⟩
  | literal span k i imm himm =>
      rw [Compile.operand_node, Compile.at'_ok, Compile.operandOf] at ho
      obtain ⟨rfl, rfl⟩ := Compile.pure_ok.1 ho
      refine ⟨rfl, _, rfl, .constant i rfl (by simp [kindOf]) fun file => ?_⟩
      rw [Registers.Expr.value, constant?_value himm]
  | paren span hx ih =>
      rw [Compile.operand_node, Compile.at'_ok, Compile.operandOf] at ho
      obtain ⟨hc, z, hz, hcompiled⟩ := ih hk (by simpa [isExact] using hexact) ho
      exact ⟨hc, z, hz, hcompiled.congr (by simp [constantOf?]) (by simp [kindOf])⟩
  | plus span hx ih =>
      obtain ⟨o₁, z, w, ho₁, hz, hw, rfl⟩ := operand_unary ho
      obtain ⟨rfl, z₁, rfl, hcompiled⟩ := ih hk (by simpa [isExact] using hexact) ho₁
      cases hz
      obtain rfl := hcompiled.plus hw
      refine ⟨rfl, _, rfl, hcompiled.congr ?_ (by simp [kindOf])⟩
      rw [constantOf?]
      cases constantOf? _ <;> rfl
  | unary span op hop hx ih =>
      obtain ⟨o₁, z, w, ho₁, hz, hw, rfl⟩ := operand_unary ho
      obtain ⟨rfl, z₁, rfl, hcompiled⟩ := ih hk (by simpa [isExact] using hexact) ho₁
      cases hz
      exact ⟨rfl, w, rfl, hcompiled.unary hop hx.kind_eq hw⟩
  | binary span op harith hx hy ihA ihB =>
      obtain ⟨o₁, c₁, z, o₂, z', w, ho₁, hz, ho₂, hz', hw, rfl⟩ := operand_binary ho
      obtain ⟨hexactA, hexactB, hfold, hcount⟩ := isExact_binary hexact
      obtain ⟨rfl, z₁, rfl, hA⟩ := ihA hk hexactA ho₁
      cases hz
      obtain ⟨rfl, z₂, rfl, hB⟩ := ihB (secondKind_isInteger hscope.integers hk op _) hexactB ho₂
      cases hz'
      exact ⟨rfl, w, rfl, hA.binary harith hx.kind_eq hk hB hfold hcount hw⟩

end StraightLine

end ScriptCore
