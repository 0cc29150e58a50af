import ScriptCore.Proofs.Operands.Plans
import ScriptCore.Proofs.Straight.Expression

/-!
# Operands of operators, literals and calls

For each way in which code for a value or for a call is built from compiled operands: the code has a
plan that runs these operands in their order, each once, but for constants.

Main statements: `Term.binary_planned`, `elementOf_planned` and `argumentsOf_gathers`.
-/

namespace ScriptCore

open Compile Evaluation

namespace Evaluation

/-! ### Code and its plan -/

/-- Code for a value has a plan that runs the given operands in order. -/
def Made (ops : List Operand) (e : Code.Expr) : Prop :=
  ∃ steps, Step.operands steps = evaluated ops ∧ ∀ x r,
    Step.runAll x r (Operand.run x r) steps [] = do return [← eval x r e]

/-- Code for a call has a plan that runs the given operands in order. -/
def MadeCall (ops : List Operand) (call : Code.Call) : Prop :=
  ∃ steps, Step.operands steps = evaluated ops ∧ ∀ x r,
    Step.runAll x r (Operand.run x r) steps [] = evalCall x r call

/-- What an operand stands for has a plan that runs the given operands in order, none of which can
be left out. -/
def Planned (ops : List Operand) (op : Operand) : Prop :=
  ∃ steps, Step.operands steps = evaluated ops ∧ ∀ x r,
    op.run x r = (Plan.all steps).run x r (Operand.run x r)

/-- What an operand stands for, which is no constant, has a plan that runs the given operands in
order; those after the first are left out unless its truth is `expected`. -/
def Decided (expected : Bool) (ops : List Operand) (op : Operand) : Prop :=
  op.isConst = false ∧ ∃ first second, Step.operands first ++ Step.operands second = evaluated ops ∧ ∀ x r,
    op.run x r = (Plan.decide expected first second).run x r (Operand.run x r)

/-- Code works on the values of other code as an action does. -/
def Applies (a : Action) (es : List Code.Expr) (e : Code.Expr) : Prop :=
  ∀ x r, (do return [← eval x r e]) = (do a.run x r (← evalAll x r es))

variable {ops : List Operand} {es : List Code.Expr} {e : Code.Expr} {call : Code.Call}
  {steps : List (Step Operand)} {a : Action}

/-- Code that works on the values of operands. -/
theorem Parts.made (h : Parts ops es steps) (ha : Applies a es e) : Made ops e := by
  refine ⟨steps ++ [Step.apply a], ?_, fun x r => ?_⟩
  · rw [Step.operands_concat_apply, h.operands]
  · rw [ha x r, Step.runAll_append, h.run]
    simp only [bind_assoc, pure_bind, List.nil_append, Step.runAll_single, Step.run]

/-- A call that works on the values of operands. -/
theorem Parts.madeCall (h : Parts ops es steps)
    (ha : ∀ x r, evalCall x r call = (do a.run x r (← evalAll x r es))) : MadeCall ops call := by
  refine ⟨steps ++ [Step.apply a], ?_, fun x r => ?_⟩
  · rw [Step.operands_concat_apply, h.operands]
  · rw [ha x r, Step.runAll_append, h.run]
    simp only [bind_assoc, pure_bind, List.nil_append, Step.runAll_single, Step.run]

/-- Code of a single operand. -/
theorem Part.made {op : Operand} (h : Part op e steps) : Made [op] e :=
  ⟨steps, h.operands, fun _ _ => h.run []⟩

/-- One more action on the value of code. -/
theorem Made.apply {e' : Code.Expr} (h : Made ops e) (ha : Applies a [e] e') : Made ops e' := by
  obtain ⟨steps, hoperands, hrun⟩ := h
  refine ⟨steps ++ [Step.apply a], ?_, fun x r => ?_⟩
  · rw [Step.operands_concat_apply, hoperands]
  · rw [ha x r, Step.runAll_append, hrun]
    simp only [evalAll, bind_assoc, pure_bind, Step.runAll_single, Step.run]

/-- A value that is checked. -/
theorem applies_expect (c : Category) (e : Code.Expr) :
    Applies (.expect c) [e] (.expect c e) := fun x r => by
  simp only [eval, evalAll, Action.run, bind_assoc, pure_bind]

/-- The first result of a call. -/
theorem MadeCall.first (h : MadeCall ops call) : Made ops (.first call) := by
  obtain ⟨steps, hoperands, hrun⟩ := h
  refine ⟨steps ++ [Step.apply .first], ?_, fun x r => ?_⟩
  · rw [Step.operands_concat_apply, hoperands]
  · rw [Step.runAll_append, hrun, eval, bind_assoc]
    refine bind_congr fun vs => ?_
    simp only [pure_bind, Step.runAll_single, Step.run, Action.run]

/-- Code for a value of a type. -/
theorem Made.planned (h : Made ops e) (c : Category) (ty : Ty) :
    Planned ops (.term (.code ⟨c, e⟩ ty)) := by
  obtain ⟨steps, hoperands, hrun⟩ := h
  exact ⟨steps, hoperands, fun x r => (hrun x r).symm⟩

/-- Code that is checked if its type is that of scalars. -/
theorem Made.ofExpr (h : Made ops e) (t : TypeTable) (ty : Ty) :
    Planned ops (.term (.ofExpr t e ty)) := by
  unfold Term.ofExpr Code.Typed.ofCategory
  cases Code.Typed.storage (t.category ty) with
  | unknown => exact h.planned _ _
  | _ => exact (h.apply (applies_expect _ _)).planned _ _

/-- A call, the only result of which is a value. -/
theorem MadeCall.planned (h : MadeCall ops call) (t : TypeTable) (types : List Ty) :
    Planned ops (.ofCall t call types) := by
  unfold Operand.ofCall
  split
  · exact h.first.ofExpr t _
  · obtain ⟨steps, hoperands, hrun⟩ := h
    exact ⟨steps, hoperands, fun x r => (hrun x r).symm⟩

/-- A constant, of which nothing is left to run. -/
theorem Planned.const (h : evaluated ops = []) (c : Constant) (ty : Option Ty) :
    Planned ops (.term (.const c ty)) :=
  ⟨[], h.symm, fun _ _ => rfl⟩

/-- An operand itself. -/
theorem Planned.self (op : Operand) : Planned [op] op := by
  cases op with
  | term x =>
      cases x with
      | const c ty => exact .const rfl c ty
      | code e ty => exact (Part.code e ty).made.planned e.category ty
  | results call types =>
      refine ⟨[.operand (.results call types)], rfl, fun x r => ?_⟩
      simp only [Plan.run, Step.runAll_single, Step.run, List.nil_append, bind_pure]

end Evaluation

/-! ### Operands as values -/

namespace Term

variable {t : TypeTable} {x y z : Term} {e : Code.Typed} {ty : Ty}

/-- A fixed value is a constant of the code. -/
theorem fixed_expr {c : Constant} (h : fixed t c ty = .ok e) : ∃ v, e.expr = .const v := by
  obtain ⟨v, -, h⟩ := rules_ok h
  cases h
  refine ⟨v, ?_⟩
  unfold Code.Typed.constant
  split <;> rfl

/-- A constant is used as a fixed value. -/
theorem fixed_part {c : Constant} (h : fixed t c ty = .ok e) (type : Option Ty) :
    ∃ steps, Part (.term (.const c type)) e.expr steps := by
  obtain ⟨v, hv⟩ := fixed_expr h
  rw [hv]
  exact ⟨_, .const c type v⟩

/-- A term as a value. -/
theorem valueOf_part (h : x.valueOf t = .ok (e, ty)) : ∃ steps, Part (.term x) e.expr steps := by
  cases x with
  | const c type =>
      obtain ⟨ty', -, h⟩ := rules_ok h
      obtain ⟨e', hfixed, h⟩ := rules_ok h
      cases h
      exact fixed_part hfixed type
  | code e' ty' =>
      cases h
      exact ⟨_, .code e ty⟩

/-- A term as a value of a type. -/
theorem valueFor_part (h : x.valueFor t ty = .ok e) : ∃ steps, Part (.term x) e.expr steps := by
  cases x with
  | const c type =>
      cases type with
      | none => exact fixed_part h none
      | some ty' =>
          obtain ⟨-, -, h⟩ := rules_ok h
          exact fixed_part h _
  | code e' ty' =>
      obtain ⟨-, -, h⟩ := rules_ok h
      cases h
      refine ⟨[.operand (.term (.code e' ty'))], ?_⟩
      split <;> exact .code e' ty'

/-- The count of a shift. -/
theorem shiftCount_part {op : BinaryOp} {count : Code.Expr} (h : shiftCount t op x = .ok count) :
    ∃ steps, Part (.term x) count steps := by
  cases x with
  | const c type =>
      unfold shiftCount at h
      dsimp only at h
      split at h
      · split at h
        · cases h
          exact ⟨_, .const c type _⟩
        · cases h
      · cases h
  | code e' ty' =>
      obtain ⟨p, hvalue, h⟩ := rules_ok h
      cases hvalue
      dsimp only at h
      split at h
      · cases h
        exact ⟨_, .code e' ty'⟩
      · cases h

end Term

namespace Operand

variable {t : TypeTable} {op : Operand} {e : Code.Typed} {ty : Ty}

/-- An operand as a value. -/
theorem valueOf_part (h : op.valueOf t = .ok (e, ty)) : ∃ steps, Part op e.expr steps := by
  obtain ⟨x, hx, h⟩ := rules_ok h
  cases op with
  | term y =>
      cases hx
      exact Term.valueOf_part h
  | results call types => cases hx

/-- An operand as a value of a type. -/
theorem valueFor_part (h : op.valueFor t ty = .ok e) : ∃ steps, Part op e.expr steps := by
  obtain ⟨x, hx, h⟩ := rules_ok h
  cases op with
  | term y =>
      cases hx
      exact Term.valueFor_part h
  | results call types => cases hx

/-- An operand as an index. -/
theorem index_part {i : Code.Expr} (h : indexOperand t op = .ok i) :
    ∃ steps, Part op i steps := by
  obtain ⟨x, hx, hi⟩ := rules_ok h
  cases op with
  | results call types => cases hx
  | term y =>
      cases hx
      cases x with
      | const c type =>
          unfold indexExpr at hi
          dsimp only at hi
          split at hi
          · split at hi
            · cases hi
              exact ⟨_, .const c type _⟩
            · cases hi
          · cases hi
      | code e ty =>
          obtain ⟨p, hvalue, hi⟩ := rules_ok hi
          cases hvalue
          dsimp only at hi
          split at hi
          · cases hi
            exact ⟨_, .code e ty⟩
          · cases hi
            exact ⟨_, .index e ty⟩
          · cases hi

end Operand

/-! ### Operators -/

namespace Term

variable {t : TypeTable} {x y z : Term} {op : BinaryOp}

/-- A constant that is checked against a type is a constant. -/
theorem ofConst_const {c : Constant} {type : Option Ty} (h : ofConst t c type = .ok z) :
    ∃ c' type', z = .const c' type' := by
  cases type with
  | none =>
      cases h
      exact ⟨c, none, rfl⟩
  | some ty =>
      obtain ⟨c', -, h⟩ := rules_ok h
      cases h
      exact ⟨c', some ty, rfl⟩

/-- A unary operator on a constant is folded. -/
theorem unary_const {op : UnaryOp} {c : Constant} {type : Option Ty}
    (h : (Term.const c type).unary t op = .ok z) : ∃ c' type', z = .const c' type' := by
  have hfolded (w : Except Fault Constant)
      (h : (w >>= fun folded => ofConst t folded type) = .ok z) :
      ∃ c' type', z = .const c' type' := by
    obtain ⟨folded, -, h⟩ := rules_ok h
    exact ofConst_const h
  simp only [unary] at h
  split at h
  · split at h <;> exact hfolded _ h
  · exact hfolded _ h

/-- **A unary operator** runs its operand. -/
theorem unary_planned {op : UnaryOp} (h : x.unary t op = .ok z) :
    Planned [.term x] (.term z) := by
  cases x with
  | const c type =>
      obtain ⟨c', type', rfl⟩ := unary_const h
      exact .const rfl c' type'
  | code e ty =>
      have happlied : Planned [.term (.code e ty)]
          (.term (.code ⟨e.category, .unary op (t.kind ty) e.expr⟩ ty)) := by
        refine (Made.apply (a := .unary op (t.kind ty)) (Part.code e ty).made fun x r => ?_).planned
          _ _
        simp only [eval, evalAll, Action.run, bind_assoc, pure_bind]
      simp only [unary] at h
      split at h <;> cases h <;> first | exact happlied | exact .self _

/-- Two values that are joined by an operator. -/
theorem binary_applies (op : BinaryOp) (kind : Kind) (a b : Code.Expr) :
    Applies (.binary op kind) [a, b] (.binary op kind a b) := fun x r => by
  simp only [eval, evalAll, Action.run, bind_assoc, pure_bind]

/-- Operators on two constants are folded. -/
theorem fold_const {a b : Constant} {ta tb : Option Ty} (h : fold t op a ta b tb = .ok z) :
    ∃ c type, z = .const c type := by
  have hfolded (w : Except Fault Constant) (h : (do
      let c ← w
      if op.isComparison then return untyped c else ofConst t c (ta.or tb)) = .ok z) :
      ∃ c type, z = .const c type := by
    obtain ⟨c, -, h⟩ := rules_ok h
    split at h
    · cases h
      exact ⟨c, none, rfl⟩
    · exact ofConst_const h
  unfold fold at h
  split at h
  · obtain ⟨c, -, h⟩ := rules_ok h
    exact ofConst_const h
  · dsimp only at h
    split at h
    · split at h
      · cases h
      · exact hfolded _ h
    · exact hfolded _ h

/-- A shift. -/
theorem shift_planned (h : shift t op x y = .ok z) : Planned [.term x, .term y] (.term z) := by
  obtain ⟨count, hcount, h⟩ := rules_ok h
  obtain ⟨⟨e, ty⟩, hvalue, h⟩ := rules_ok h
  obtain ⟨ss, hx⟩ := valueOf_part hvalue
  obtain ⟨ss', hy⟩ := shiftCount_part hcount
  dsimp only at h
  split at h
  · cases h
    exact ((Parts.cons hx hy.parts).made (binary_applies op _ _ _)).planned _ _
  · cases h

/-- The left operand of a conjunction or disjunction decides whether the right one is run. -/
theorem logical_decided {ty : Ty} {a b : Code.Typed} {ss ss' : List (Step Operand)}
    (ha : Part (.term x) a.expr ss) (hb : Part (.term y) b.expr ss')
    (h : logical op ty a b = .ok z) :
    Decided (decide (op = .logAnd)) [.term x, .term y] (.term z) := by
  unfold logical at h
  split at h
  · cases h
    refine ⟨rfl, ss, ss', ?_, fun c r => ?_⟩
    · rw [ha.operands, hb.operands, ← evaluated_cons]
    · have hsecond : Step.runAll c r (Operand.run c r) ss' [] = do return [← eval c r b.expr] :=
        hb.run []
      simp only [Operand.run, Plan.run, ha.run, hsecond, List.nil_append, bind_assoc, pure_bind]
      by_cases hop : op = .logAnd
      · simp only [hop, if_true, eval, decide_true, bind_assoc]
        refine bind_congr fun v => ?_
        simp only [List.headD_cons, Bool.not_true]
        split <;> simp only [pure_bind]
      · simp only [hop, if_false, eval, decide_false, bind_assoc]
        refine bind_congr fun v => ?_
        cases hv : v.isTrue <;> simp [hv]
  · cases h

/-- An operator, other than a shift, on two terms. -/
theorem converted_planned (h : converted t op x y = .ok z) :
    if op.isLogical then Decided (decide (op = .logAnd)) [.term x, .term y] (.term z)
    else Planned [.term x, .term y] (.term z) := by
  obtain ⟨ty, -, h⟩ := rules_ok h
  obtain ⟨a, ha, h⟩ := rules_ok h
  obtain ⟨b, hb, h⟩ := rules_ok h
  obtain ⟨ss, ha⟩ := valueFor_part ha
  obtain ⟨ss', hb⟩ := valueFor_part hb
  have hmade : Made [.term x, .term y] (.binary op (t.kind ty) a.expr b.expr) :=
    (Parts.cons ha hb.parts).made (binary_applies op _ _ _)
  split at h
  · rename_i hcomparison
    have hlogical : op.isLogical = false := by cases op <;> first | rfl | cases hcomparison
    rw [if_neg (by simp [hlogical])]
    split at h
    · unfold comparison at h
      split at h
      · cases h
        exact hmade.planned _ _
      · cases h
    · cases h
  · split at h
    · rename_i hlogical
      rw [if_pos hlogical]
      exact logical_decided ha hb h
    · rename_i hlogical
      rw [if_neg hlogical]
      unfold arithmetic at h
      split at h
      · cases h
        exact hmade.planned _ _
      · cases h

/-- **A binary operator** runs its operands from left to right, except that the left operand of a
conjunction or disjunction decides whether the right one is run. -/
theorem binary_planned (h : x.binary t op y = .ok z) :
    if op.isLogical && !(Operand.term z).isConst then
      Decided (decide (op = .logAnd)) [.term x, .term y] (.term z)
    else Planned [.term x, .term y] (.term z) := by
  unfold binary at h
  split at h
  · obtain ⟨c, type, rfl⟩ := fold_const h
    simpa [Operand.isConst] using Planned.const rfl c type
  · split at h
    · rename_i hshift
      have hlogical : op.isLogical = false := by cases op <;> first | rfl | cases hshift
      rw [hlogical]
      exact shift_planned h
    · have hplanned := converted_planned h
      split at hplanned
      · rename_i hlogical
        rw [hlogical, hplanned.1]
        exact hplanned
      · rename_i hlogical
        simpa [hlogical] using hplanned

end Term

end ScriptCore
