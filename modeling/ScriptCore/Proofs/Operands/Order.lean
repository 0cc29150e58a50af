import ScriptCore.Proofs.Operands.Rules

/-!
# Operands are evaluated once, from left to right

Every form of expression is compiled from operands that are written in it (`ExprKind.directs`).  What
it is compiled to has a plan: steps that are taken one after the other, in which the operands occur
in the order in which they are written, each once, but for constants, which are not evaluated when
the program runs.  Only the left operand of a conjunction or disjunction decides whether the right
one is run.  Since steps are run one after the other, evaluation stops at the first error.

Two forms do not follow the source: the elements of a struct literal are evaluated in the order of
the struct's fields, and the size of a new map is not evaluated.  `ExprKind.InOrder` leaves out the
literals and sizes for which this makes a difference.

Main statement: `operand_evaluates`.
-/

namespace ScriptCore

open Evaluation

/-! ### Operands in the source -/

/-- The key of an element of a literal, if it has one, and its value. -/
def Elem.both : Elem → List Expr
  | .mk key value => key.toList ++ [value]

/-- The value of an element of a literal. -/
def Elem.value : Elem → Expr
  | .mk _ value => value

/-- The expression is a name that stands for a package. -/
def Compiler.namesPackage (c : Compiler) (e : Expr) : Bool :=
  match e.identifier?.bind c.resolve with
  | some (.package _) => true
  | _ => false

/-- The operands that are written in a call of something other than a type: what is called, unless it
is a builtin function or a function by its name, and the arguments, unless they are types; of a
selector that is called, what is before the point. -/
def Compiler.calledDirects (c : Compiler) (args : List Expr) : Expr → List Expr
  | .node span (.ident name) =>
    match c.resolve name with
    | some (.builtin .make) => args.tail
    | some (.builtin _) | some (.func _ _ _) => args
    | _ => .node span (.ident name) :: args
  | .node span (.selector base field) =>
    if c.namesPackage base then .node span (.selector base field) :: args else base :: args
  | f => f :: args

namespace ExprKind

/-- The operands that are written in an expression, from left to right. -/
def directs (c : Compiler) : ExprKind → List Expr
  | .unary _ e | .paren e => [e]
  | .binary _ a b | .index a b => [a, b]
  | .call f args =>
    match Compile.typeOf? f c with
    | .ok (some _, _) => args
    | _ => c.calledDirects args f
  | .selector base _ => if c.namesPackage base then [] else [base]
  | .composite ty elems =>
    match Compile.typeExpr ty c with
    | .ok (T, _) => if c.types.kind T = .map then elems.flatMap Elem.both else elems.map Elem.value
    | .error _ => []
  | _ => []

/-- The truth of the left operand for which the right one is evaluated, if it depends on that. -/
def decider? : ExprKind → Option Bool
  | .binary .logAnd _ _ => some true
  | .binary .logOr _ _ => some false
  | _ => none

/-- The elements of a struct literal come in the order of the fields, none of which is given twice,
and the size of a new map is constant. -/
def InOrder (c : Compiler) : ExprKind → Prop
  | .call (.node _ (.ident name)) args => c.resolve name = some (.builtin .make) →
    ∀ T d, Compile.firstType? args c = .ok (some T, d) → c.types.kind T = .map →
      ∀ e ∈ args.tail, ∀ op d, Compile.operand e c = .ok (op, d) → op.isConst = true
  | .composite ty elems => ∀ T d, Compile.typeExpr ty c = .ok (T, d) → c.types.kind T = .struct →
    Compile.Ascending (Compile.fieldPosition c.types T) 0 0 (Compile.elements elems)
  | _ => True

end ExprKind

namespace Compile

variable {c c' d : Compiler} {op : Operand} {ops : List Operand} {es : List Expr}

/-- Expressions and the operands to which they are compiled in the state `c`. -/
def Compiled (c : Compiler) (es : List Expr) (ops : List Operand) : Prop :=
  List.Forall₂ (fun e op => ∃ d, operand e c = .ok (op, d)) es ops

/-- A stable step leads to a state that is like the one before. -/
theorem Stable.like {α : Type} {p : Compile α} (h : Stable false p) (hlike : c.Like false d)
    {a : α} (hp : p d = .ok (a, c')) : c.Like false c' :=
  hlike.trans ((h d d a c' (.refl hlike.settled') hp).1.like hlike.settled'
    (h.types_only hlike.settled' hp).2)

/-- Expressions that are compiled one after the other give what they give by themselves. -/
theorem compiled_of_sequence (hlike : c.Like false d)
    (h : sequence (operands es) d = .ok (ops, c')) : Compiled c es ops := by
  induction es generalizing d ops with
  | nil =>
      rw [operands] at h
      cases h
      exact .nil
  | cons e es ih =>
      rw [operands] at h
      obtain ⟨op, d₁, rest, hop, hrest, rfl⟩ := sequence_cons_ok.1 h
      obtain ⟨-, d', hop', -⟩ := operand_stable e false d c op d₁ hlike.symm hop
      exact .cons ⟨d', hop'⟩ (ih ((operand_stable e false).like hlike hop) hrest)

/-- Values of the elements of a literal. -/
theorem elements_value (elems : List Elem) :
    (elements elems).map Element.value = operands (elems.map Elem.value) := by
  induction elems with
  | nil => simp only [elements, List.map_nil, operands]
  | cons e rest ih =>
      obtain ⟨key, value⟩ := e
      simp only [elements, List.map_cons, operands, Elem.value, ih]

/-- Operands of expressions and more expressions. -/
theorem operands_append (es fs : List Expr) :
    operands (es ++ fs) = operands es ++ operands fs := by
  induction es with
  | nil => simp only [operands, List.nil_append]
  | cons e es ih => simp only [List.cons_append, operands, ih]

/-- Keys and values of the elements of a literal. -/
theorem elements_both (elems : List Elem) :
    (elements elems).flatMap Element.both = operands (elems.flatMap Elem.both) := by
  induction elems with
  | nil => simp only [elements, List.flatMap_nil, operands]
  | cons e rest ih =>
      obtain ⟨key, value⟩ := e
      rw [elements, List.flatMap_cons, List.flatMap_cons, operands_append, ih]
      cases key <;> simp only [Element.both, Elem.both, operand?, operands, Option.toList_none,
        Option.toList_some, List.nil_append, List.singleton_append]

/-! ### Plans of expressions -/

/-- What an expression is compiled to follows the source.  It has a plan in which the operands occur
as they are written, and which leaves out the right operand of a conjunction or disjunction if the
left one decides. -/
def Scheduled (c : Compiler) (kind : ExprKind) (op : Operand) : Prop :=
  ∃ (ops : List Operand) (plan : Plan Operand), Compiled c (kind.directs c) ops ∧
    plan.operands = ops.filter (fun o => !o.isConst) ∧
    plan.decider? = (if op.isConst then none else kind.decider?) ∧
    ∀ x r, op.run x r = plan.run x r (Operand.run x r)

/-- A plan that leaves nothing out. -/
theorem Scheduled.of_planned {kind : ExprKind} (hcompiled : Compiled c (kind.directs c) ops)
    (hplanned : Planned ops op) (hkind : op.isConst = true ∨ kind.decider? = none) :
    Scheduled c kind op := by
  obtain ⟨steps, hoperands, hrun⟩ := hplanned
  refine ⟨ops, .all steps, hcompiled, hoperands, ?_, hrun⟩
  rcases hkind with hconst | hkind
  · rw [if_pos hconst]
    rfl
  · rw [hkind, ite_self]
    rfl

/-- A plan that may leave out the right operand. -/
theorem Scheduled.of_decided {kind : ExprKind} {expected : Bool}
    (hcompiled : Compiled c (kind.directs c) ops) (hdecided : Decided expected ops op)
    (hkind : kind.decider? = some expected) : Scheduled c kind op := by
  obtain ⟨hconst, first, second, hoperands, hrun⟩ := hdecided
  refine ⟨ops, .decide expected first second, hcompiled, hoperands, ?_, hrun⟩
  rw [hconst, hkind]
  rfl

/-- Expressions that are compiled from the same state. -/
theorem compiled_from (hs : c.types.Settled) (h : sequence (operands es) c = .ok (ops, c')) :
    Compiled c es ops :=
  compiled_of_sequence (.refl hs) h

/-- A unary operator. -/
theorem unary_scheduled {o : UnaryOp} {e : Expr} (hs : c.types.Settled)
    (h : operandOf (.unary o e) c = .ok (op, c')) : Scheduled c (.unary o e) op := by
  rw [operandOf] at h
  obtain ⟨a, c₁, ha, h⟩ := bind_ok.1 h
  obtain ⟨x, c₂, hx, h⟩ := bind_ok.1 h
  obtain ⟨z, c₃, hz, h⟩ := bind_ok.1 h
  cases h
  cases single_ok (check_ok.1 hx).1
  have hops : sequence (operands [e]) c = .ok ([.term x], c₁) := by
    simp only [operands]
    exact sequence_single ha
  exact .of_planned (compiled_from hs hops) (Term.unary_planned (rule_ok.1 hz).1) (.inr rfl)

/-- A binary operator. -/
theorem binary_scheduled {o : BinaryOp} {a b : Expr} (hs : c.types.Settled)
    (h : operandOf (.binary o a b) c = .ok (op, c')) : Scheduled c (.binary o a b) op := by
  rw [operandOf] at h
  obtain ⟨left, c₁, ha, h⟩ := bind_ok.1 h
  obtain ⟨x, c₂, hx, h⟩ := bind_ok.1 h
  obtain ⟨hx', rfl⟩ := check_ok.1 hx
  obtain ⟨right, c₃, hb, h⟩ := bind_ok.1 h
  obtain ⟨y, c₄, hy, h⟩ := bind_ok.1 h
  obtain ⟨z, c₅, hz, h⟩ := bind_ok.1 h
  cases h
  cases single_ok hx'
  cases single_ok (check_ok.1 hy).1
  have hops : sequence (operands [a, b]) c = .ok ([.term x, .term y], c₃) := by
    simp only [operands]
    exact sequence_cons_ok.2 ⟨_, _, _, ha, sequence_single hb, rfl⟩
  have hcompiled : Compiled c [a, b] [.term x, .term y] := compiled_from hs hops
  have hplanned := Term.binary_planned (rule_ok.1 hz).1
  split at hplanned
  · rename_i hlogical
    refine .of_decided hcompiled hplanned ?_
    cases o <;> first | rfl | cases hlogical
  · rename_i hlogical
    refine .of_planned hcompiled hplanned ?_
    cases hconst : (Operand.term z).isConst with
    | true => exact .inl rfl
    | false =>
        rw [hconst] at hlogical
        refine .inr ?_
        cases o <;> first | rfl | exact absurd rfl hlogical

/-- An index expression. -/
theorem index_scheduled {container key : Expr} (hs : c.types.Settled)
    (h : operandOf (.index container key) c = .ok (op, c')) :
    Scheduled c (.index container key) op := by
  rw [operandOf] at h
  obtain ⟨ops, hops, hplanned⟩ := index_planned h
  have hops' : sequence (operands [container, key]) c = .ok (ops, c') := by
    simpa only [operands] using hops
  exact .of_planned (compiled_from hs hops') hplanned (.inr rfl)

/-- Whether a name stands for a package. -/
theorem packageMember?_ok {base : Expr} {field : Name} {found : Option HostFunc}
    (h : packageMember? base.identifier? field d = .ok (found, c')) :
    d = c' ∧ d.namesPackage base = found.isSome := by
  obtain ⟨d₁, d₂, hget, h⟩ := bind_ok.1 h
  cases hget
  unfold Compiler.namesPackage
  revert h
  generalize base.identifier?.bind d.resolve = meaning
  intro h
  cases meaning with
  | none =>
      cases h
      exact ⟨rfl, rfl⟩
  | some entity =>
      cases entity with
      | package p =>
          cases hf : findHost p.members field with
          | none =>
              simp only [hf] at h
              cases h
          | some f =>
              simp only [hf] at h
              cases h
              exact ⟨rfl, rfl⟩
      | _ =>
          cases h
          exact ⟨rfl, rfl⟩

/-- A selector. -/
theorem selector_scheduled {base : Expr} {field : Name}
    (h : operandOf (.selector base field) c = .ok (op, c')) :
    Scheduled c (.selector base field) op := by
  rw [operandOf] at h
  rcases selector_planned h with ⟨f, c₁, hmember, hplanned⟩ | ⟨c₁, b, c₂, hmember, hb, hplanned⟩
  · refine .of_planned ?_ hplanned (.inr rfl)
    rw [ExprKind.directs, (packageMember?_ok hmember).2]
    exact .nil
  · obtain ⟨rfl, hnone⟩ := packageMember?_ok hmember
    refine .of_planned ?_ hplanned (.inr rfl)
    rw [ExprKind.directs, hnone]
    exact .cons ⟨c₂, hb⟩ .nil

/-- A literal. -/
theorem composite_scheduled {ty : TypeExpr} {elems : List Elem} (hs : c.types.Settled)
    (horder : ExprKind.InOrder c (.composite ty elems))
    (h : operandOf (.composite ty elems) c = .ok (op, c')) :
    Scheduled c (.composite ty elems) op := by
  rw [operandOf] at h
  obtain ⟨T, d, hT, h⟩ := bind_ok.1 h
  have hstable := typeExpr_stable ty false
  have halike : c.types.Alike d.types := (hstable c c T d (.refl hs) hT).1.types
  have hkind : d.types.kind T = c.types.kind T := halike.symm.same fun _ _ _ _ _ => rfl
  have hposition : fieldPosition d.types T = fieldPosition c.types T :=
    halike.symm.same fun _ _ _ _ _ => rfl
  have hascending (hstruct : d.types.kind T = .struct) :
      Ascending (fieldPosition d.types T) 0 0 (elements elems) := by
    rw [hposition]
    exact horder T d hT (hkind ▸ hstruct)
  obtain ⟨ops, hops, hplanned⟩ := composite_planned (elements_stable elems false)
    (hstable.types_only hs hT).2 hascending h
  have hops' : sequence (operands (ExprKind.directs c (.composite ty elems))) d = .ok (ops, c') := by
    rw [ExprKind.directs, hT]
    dsimp only
    rw [hkind] at hops
    split at hops
    · rename_i hmap
      rwa [if_pos hmap, ← elements_both]
    · rename_i hmap
      rwa [if_neg hmap, ← elements_value]
  exact .of_planned (compiled_of_sequence (hstable.like (.refl hs) hT) hops') hplanned (.inr rfl)

/-- Operands of a call of something other than a type. -/
theorem directs_call {f : Expr} {args : List Expr} (h : typeOf? f c = .ok (none, d)) :
    ExprKind.directs c (.call f args) = c.calledDirects args f := by
  rw [ExprKind.directs, h]

/-- A call of a function value. -/
theorem valueCall_scheduled {f : Expr} {args : List Expr} (htype : typeOf? f c = .ok (none, d))
    (hlike : c.Like false d) (hdirects : c.calledDirects args f = f :: args)
    (h : (do callOperand (← operand f) (operands args) : Compile Operand) d = .ok (op, c')) :
    Scheduled c (.call f args) op := by
  obtain ⟨callee, d₁, hcallee, h⟩ := bind_ok.1 h
  obtain ⟨ops, hops, hplanned⟩ := callOperand_planned (.self callee) h
  have hops' : sequence (operands (f :: args)) d = .ok (callee :: ops, c') := by
    simp only [operands]
    exact sequence_cons_ok.2 ⟨callee, d₁, ops, hcallee, hops, rfl⟩
  refine .of_planned ?_ hplanned (.inr rfl)
  rw [directs_call htype, hdirects]
  exact compiled_of_sequence hlike hops'

/-- A call of `make`. -/
theorem makeCall_scheduled {span : Span} {name : Name} {args : List Expr}
    (htype : typeOf? (.node span (.ident name)) c = .ok (none, d)) (hlike : c.Like false d)
    (hname : c.resolve name = some (.builtin .make))
    (horder : ExprKind.InOrder c (.call (.node span (.ident name)) args))
    (h : makeCall (firstType? args) (operands args) d = .ok (op, c')) :
    Scheduled c (.call (.node span (.ident name)) args) op := by
  obtain ⟨T, d₁, ops, hT, hops, hplanned⟩ := makeCall_planned h
  have hstable := firstType?_stable args false
  have hlike₁ : c.Like false d₁ := hstable.like hlike hT
  have htail : (operands args).tail = operands args.tail := by
    cases args <;> simp only [operands, List.tail_nil, List.tail_cons]
  rw [htail] at hops
  have hcompiled : Compiled c args.tail ops := compiled_of_sequence hlike₁ hops
  have halike : c.types.Alike c'.types :=
    hlike₁.types.trans ((sequence_stable (operands_stable args.tail false)) d₁ d₁ ops c'
      (.refl hlike₁.settled') hops).1.types
  have hkind : c'.types.kind T = c.types.kind T := halike.symm.same fun _ _ _ _ _ => rfl
  obtain ⟨-, d₂, hT', -⟩ := hstable d c (some T) d₁ hlike.symm hT
  refine .of_planned ?_ (hplanned fun hmap => ?_) (.inr rfl)
  · rw [directs_call htype, Compiler.calledDirects, hname]
    exact hcompiled
  · have hconst := horder hname T d₂ hT' (hkind ▸ hmap)
    refine List.filter_eq_nil_iff.2 fun op hop => ?_
    obtain ⟨i, hi, rfl⟩ := List.getElem_of_mem hop
    obtain ⟨d₃, hoperand⟩ := hcompiled.get (hcompiled.length_eq ▸ hi) hi
    have hconst := hconst _ (List.getElem_mem _) _ d₃ hoperand
    simpa using hconst

/-- A call of a name that is no type. -/
theorem namedCall_scheduled {span : Span} {name : Name} {args : List Expr}
    (htype : typeOf? (.node span (.ident name)) c = .ok (none, d)) (hlike : c.Like false d)
    (horder : ExprKind.InOrder c (.call (.node span (.ident name)) args))
    (h : (do
      match (← get).resolve name with
      | some (.builtin b) => builtinCall b (firstType? args) (operands args)
      | some (.func depth slot ty) =>
        let s ← calledSignature ty
        directCall name (.load depth slot) s none (operands args)
      | _ => callOperand (← operand (.node span (.ident name))) (operands args) :
        Compile Operand) d = .ok (op, c')) :
    Scheduled c (.call (.node span (.ident name)) args) op := by
  obtain ⟨d₁, d₂, hget, h⟩ := bind_ok.1 h
  cases hget
  rw [← hlike.resolve name] at h
  cases hm : c.resolve name with
  | none =>
      rw [hm] at h
      exact valueCall_scheduled htype hlike (by rw [Compiler.calledDirects, hm]) h
  | some m =>
      rw [hm] at h
      cases m with
      | builtin b =>
          by_cases hb : b = .make
          · subst hb
            exact makeCall_scheduled htype hlike hm horder h
          · obtain ⟨ops, hops, hplanned⟩ := builtinCall_planned hb h
            refine .of_planned ?_ hplanned (.inr rfl)
            rw [directs_call htype, Compiler.calledDirects, hm]
            cases b <;> first | exact compiled_of_sequence hlike hops | exact absurd rfl hb
      | func depth slot ty =>
          obtain ⟨s, d₁, hs, h⟩ := bind_ok.1 h
          cases calledSignature_ok hs
          obtain ⟨ops, hops, hplanned⟩ := namedCall_planned h
          refine .of_planned ?_ hplanned (.inr rfl)
          rw [directs_call htype, Compiler.calledDirects, hm]
          exact compiled_of_sequence hlike hops
      | _ => exact valueCall_scheduled htype hlike (by rw [Compiler.calledDirects, hm]) h

/-- A call of a selector. -/
theorem selectorCall_scheduled {span : Span} {base : Expr} {field : Name} {args : List Expr}
    (htype : typeOf? (.node span (.selector base field)) c = .ok (none, d))
    (hlike : c.Like false d)
    (h : selectorCall base.identifier? (operand base) field
      (operand (.node span (.selector base field))) (operands args) d = .ok (op, c')) :
    Scheduled c (.call (.node span (.selector base field)) args) op := by
  have hpackage : d.namesPackage base = c.namesPackage base := by
    unfold Compiler.namesPackage
    rw [funext fun name => hlike.resolve name]
  rcases selectorCall_planned h with
    ⟨f, c₁, ops, hmember, hops, hplanned⟩ | ⟨c₁, ops, hmember, hops, hplanned⟩
  · obtain ⟨rfl, hnames⟩ := packageMember?_ok hmember
    rw [← operands] at hops
    refine .of_planned ?_ hplanned (.inr rfl)
    rw [directs_call htype, Compiler.calledDirects, ← hpackage, hnames]
    exact compiled_of_sequence hlike hops
  · obtain ⟨rfl, hnames⟩ := packageMember?_ok hmember
    rw [← operands] at hops
    refine .of_planned ?_ hplanned (.inr rfl)
    rw [directs_call htype, Compiler.calledDirects, ← hpackage, hnames]
    exact compiled_of_sequence hlike hops

/-- **A call.** -/
theorem call_scheduled {f : Expr} {args : List Expr} (hs : c.types.Settled)
    (horder : ExprKind.InOrder c (.call f args))
    (h : operandOf (.call f args) c = .ok (op, c')) : Scheduled c (.call f args) op := by
  rw [operandOf] at h
  obtain ⟨found, d, hfound, h⟩ := bind_ok.1 h
  have hlike : c.Like false d := (typeOf?_stable f false).like (.refl hs) hfound
  cases found with
  | some T =>
      obtain ⟨ops, hops, hplanned⟩ := conversion_planned h
      refine .of_planned ?_ hplanned (.inr rfl)
      rw [ExprKind.directs, hfound]
      exact compiled_of_sequence hlike hops
  | none =>
      obtain ⟨span, kind⟩ := f
      cases kind with
      | ident name => exact namedCall_scheduled hfound hlike horder (by rw [callee] at h; exact h)
      | selector base field =>
          exact selectorCall_scheduled hfound hlike (by simpa only [callee] using h)
      | _ => exact valueCall_scheduled hfound hlike rfl (by simpa only [callee] using h)

/-! ### All forms -/

/-- **Operands are evaluated once, in the order of the source.**  What an expression is compiled to
has a plan: the operands that are written in the expression occur in it from left to right, each
once, but for constants.  The plan leaves out the right operand of a conjunction or disjunction if
the left one decides, and nothing else. -/
theorem operand_evaluates {span : Span} {kind : ExprKind} (hs : c.types.Settled)
    (horder : kind.InOrder c) (h : operand (.node span kind) c = .ok (op, c')) :
    ∃ (ops : List Operand) (plan : Plan Operand),
      List.Forall₂ (fun e o => ∃ d, operand e c = .ok (o, d)) (kind.directs c) ops ∧
      plan.operands = ops.filter (fun o => !o.isConst) ∧
      plan.decider? = (if op.isConst then none else kind.decider?) ∧
      ∀ x r, op.run x r = plan.run x r (Operand.run x r) := by
  rw [operand] at h
  have h : operandOf kind c = .ok (op, c') := at'_ok.1 h
  change Scheduled c kind op
  have hleaf (hdirects : kind.directs c = []) (hkind : kind.decider? = none)
      (hplanned : Planned [] op) : Scheduled c kind op :=
    .of_planned (hdirects ▸ .nil) hplanned (.inr hkind)
  cases kind with
  | ident name => exact hleaf rfl rfl (identifier_planned (by simpa only [operandOf] using h))
  | nil | bool b | int i | float x | imag x | str s =>
      rw [operandOf] at h
      cases h
      exact hleaf rfl rfl (.const rfl _ _)
  | unary o e => exact unary_scheduled hs h
  | binary o a b => exact binary_scheduled hs h
  | call f args => exact call_scheduled hs horder h
  | index container key => exact index_scheduled hs h
  | selector base field => exact selector_scheduled h
  | paren e =>
      rw [operandOf] at h
      exact .of_planned (.cons ⟨c', h⟩ .nil) (.self op) (.inr rfl)
  | composite ty elems => exact composite_scheduled hs horder h
  | funcLit sig body => exact hleaf rfl rfl (funcLit_planned (by simpa only [operandOf] using h))
  | type ty =>
      rw [operandOf] at h
      cases h

/-- A state in which `x` and `y` are package variables of type `int` and `f` is a function that gives
an `int`. -/
def sample : Compiler :=
  { Compiler.start .empty ⟨[], [], 0⟩ false with
    names := [("x", .var ⟨0, .basic .int⟩), ("y", .var ⟨1, .basic .int⟩),
      ("f", .func ⟨2, .func none [] [.basic .int] false⟩)] }

/-- No named types stand for array or struct types. -/
theorem sample_settled : sample.types.Settled := nofun

/-- `struct { a int; b int }`. -/
def twoFields : TypeExpr :=
  let int : TypeExpr := .node .none (.named "int")
  .node .none (.struct [.mk "a" int false, .mk "b" int false])

/-- `struct { a int; b int }{a: x, b: y}`. -/
def ascendingLiteral : ExprKind :=
  let mention (name : Name) : Expr := .node .none (.ident name)
  .composite twoFields [.mk (some (mention "a")) (mention "x"),
    .mk (some (mention "b")) (mention "y")]

/-- The elements come in the order of the fields. -/
theorem ascendingLiteral_inOrder : ascendingLiteral.InOrder sample := by
  intro T d hT _
  have htype : ∃ d, typeExpr twoFields sample =
      .ok (.struct [⟨"a", .basic .int, false⟩, ⟨"b", .basic .int, false⟩], d) := ⟨_, rfl⟩
  obtain ⟨d', htype⟩ := htype
  cases hT.symm.trans htype
  intro i hi
  cases (show (.ok 0 : Except Fault Nat) = .ok i from hi)
  refine ⟨Nat.le_refl 0, fun i hi => ?_⟩
  cases (show (.ok 1 : Except Fault Nat) = .ok i from hi)
  exact ⟨Nat.le_refl 1, trivial⟩

/-- A struct literal whose elements come in the order of the fields. -/
theorem ascendingLiteral_evaluates : ∃ op c',
    operand (.node .none ascendingLiteral) sample = .ok (op, c') ∧
    ∃ (ops : List Operand) (plan : Plan Operand),
      List.Forall₂ (fun e o => ∃ d, operand e sample = .ok (o, d))
        (ascendingLiteral.directs sample) ops ∧
      plan.operands = ops.filter (fun o => !o.isConst) ∧
      plan.decider? = (if op.isConst then none else ascendingLiteral.decider?) ∧
      ∀ x r, op.run x r = plan.run x r (Operand.run x r) := by
  have hcompiles : (operand (.node .none ascendingLiteral) sample).isOk = true := by
    decide +kernel
  cases h : operand (.node .none ascendingLiteral) sample with
  | error e =>
      rw [h] at hcompiles
      cases hcompiles
  | ok result => exact ⟨result.1, result.2, rfl,
      operand_evaluates sample_settled ascendingLiteral_inOrder h⟩

/-- `make(map[string]int, f())`. -/
def sizedMap : ExprKind :=
  .call (.node .none (.ident "make")) [
    .node .none (.type (.node .none (.map (.node .none (.named "string"))
      (.node .none (.named "int"))))),
    .node .none (.call (.node .none (.ident "f")) [])]

/-- **The size of a new map is not evaluated**: not every expression has a plan in which all of its
operands occur. -/
theorem sizedMap_not_evaluated : ¬ ∀ (c c' : Compiler) (span : Span) (kind : ExprKind)
    (op : Operand), c.types.Settled → operand (.node span kind) c = .ok (op, c') →
    ∃ (ops : List Operand) (plan : Plan Operand),
      List.Forall₂ (fun e o => ∃ d, operand e c = .ok (o, d)) (kind.directs c) ops ∧
      plan.operands = ops.filter (fun o => !o.isConst) ∧
      plan.decider? = (if op.isConst then none else kind.decider?) ∧
      ∀ x r, op.run x r = plan.run x r (Operand.run x r) := by
  intro hall
  have hcompiles : ∃ c', operand (.node .none sizedMap) sample =
      .ok (.term (.reference .makeMap (.map (.basic .string) (.basic .int))), c') := ⟨_, rfl⟩
  obtain ⟨c', hcompiles⟩ := hcompiles
  obtain ⟨ops, plan, hops, hoperands, hdecider, hrun⟩ := hall _ _ _ _ _ sample_settled hcompiles
  let size : Expr := .node .none (.call (.node .none (.ident "f")) [])
  let op : Operand := .term (.code
    ⟨.int, .expect .int (.first (.direct (.load 1 2) none (.list [] none)))⟩ (.basic .int))
  have hdirects : sizedMap.directs sample = [size] := rfl
  have hsize : ∃ d, operand size sample = .ok (op, d) := ⟨_, rfl⟩
  obtain ⟨d, hsize⟩ := hsize
  rw [hdirects] at hops
  cases hops with
  | cons hop hrest =>
      cases hrest
      obtain ⟨d', hop⟩ := hop
      cases hop.symm.trans hsize
      cases plan with
      | decide expected first second => cases hdecider
      | all steps =>
          -- the plan runs a call, which fails where all calls fail; a new map does not fail
          let x : Context := ⟨.empty, fun _ _ => Run.fail .nilFuncCall⟩
          have hmem : op ∈ Step.operands steps := by
            rw [show Step.operands steps = _ from hoperands]
            exact List.mem_singleton_self op
          have hends : ∃ vs m', Step.runAll x 0 (Operand.run x 0) steps [] default = .ok vs m' :=
            ⟨_, _, (congrFun (hrun x 0) default).symm⟩
          obtain ⟨vs, m', hends⟩ := hends
          obtain ⟨m, ws, m'', hcall⟩ := Step.runAll_visits hends hmem
          obtain ⟨v, m₁, hcall, -⟩ := run_bind_ok hcall
          rw [eval] at hcall
          obtain ⟨w, m₂, hcall, -⟩ := run_bind_ok hcall
          rw [eval] at hcall
          obtain ⟨vs, m₃, hcall, -⟩ := run_bind_ok hcall
          rw [evalCall] at hcall
          obtain ⟨f, m₄, -, hcall⟩ := run_bind_ok hcall
          obtain ⟨args, m₅, -, hcall⟩ := run_bind_ok hcall
          cases hcall

end Compile

end ScriptCore
