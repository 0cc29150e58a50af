import ScriptCore.Proofs.Assignment.Rules

/-!
# Syntax is stable

Every form of syntax is compiled by a rule from its parts, so all of it is stable, by induction on
the tree.  An expression is stable whatever the number of slots of the body it is compiled in; the
induction passes from expressions to statements at function literals, where the number is that of a
new body and counts.

Main statements: `operand_stable`, `placeOf_stable` and `statement_stable`.
-/

namespace ScriptCore.Compile

mutual

/-- An expression. -/
theorem operand_stable : ∀ (e : Expr) (exact : Bool), Stable exact (operand e)
  | .node span kind, exact => by
      simp only [operand]
      exact (operandOf_stable kind exact).at' span

/-- A form of expression. -/
theorem operandOf_stable : ∀ (kind : ExprKind) (exact : Bool), Stable exact (operandOf kind)
  | .ident name, exact => by
      simp only [operandOf]
      exact identifier_stable name
  | .nil, _ | .bool _, _ | .int _, _ | .float _, _ | .imag _, _ | .str _, _ => by
      simp only [operandOf]
      exact .pure _
  | .unary op e, exact => by
      simp only [operandOf]
      exact (operand_stable e exact).bind fun _ => (Stable.check _).bind fun _ =>
        (Stable.rule fun _ _ ht => ht.same fun _ _ _ _ _ => rfl).bind fun _ => .pure _
  | .binary op a b, exact => by
      simp only [operandOf]
      exact (operand_stable a exact).bind fun _ => (Stable.check _).bind fun _ =>
        (operand_stable b exact).bind fun _ => (Stable.check _).bind fun _ =>
          (Stable.rule fun _ _ ht => by rw [ht.binary]).bind fun _ => .pure _
  | .call f args, exact => by
      simp only [operandOf]
      exact call_stable (typeOf?_stable f exact) (callee_stable f exact) (operand_stable f exact)
        (firstType?_stable args exact) (operands_stable args exact)
  | .index container key, exact => by
      simp only [operandOf]
      exact index_stable (operand_stable container exact) (operand_stable key exact)
  | .selector base field, exact => by
      simp only [operandOf]
      exact selector_stable _ field (operand_stable base exact)
  | .paren e, exact => by
      simp only [operandOf]
      exact operand_stable e exact
  | .composite t elems, exact => by
      simp only [operandOf]
      exact (typeExpr_stable t exact).bind fun _ => composite_stable _ (elements_stable elems exact)
  | .funcLit sig body, exact => by
      simp only [operandOf]
      exact funcLit_stable (heading_stable sig exact) (block_stable body)
  | .type _, _ => by
      simp only [operandOf]
      exact .fail _

/-- Expressions. -/
theorem operands_stable : ∀ (es : List Expr) (exact : Bool), ∀ p ∈ operands es, Stable exact p
  | [], _ => by
      simp only [operands]
      exact List.forall_mem_nil _
  | e :: rest, exact => by
      simp only [operands, List.forall_mem_cons]
      exact ⟨operand_stable e exact, operands_stable rest exact⟩

/-- An optional expression. -/
theorem operand?_stable : ∀ (e : Option Expr) (exact : Bool), ∀ p ∈ operand? e, Stable exact p
  | none, _ => by
      simp only [operand?]
      intro p hp
      cases hp
  | some e, exact => by
      simp only [operand?]
      intro p hp
      cases hp
      exact operand_stable e exact

/-- Elements of a literal. -/
theorem elements_stable : ∀ (elems : List Elem) (exact : Bool),
    StableElements exact (elements elems)
  | [], _ => by
      simp only [elements, StableElements]
      exact List.forall_mem_nil _
  | .mk key value :: rest, exact => by
      simp only [elements, StableElements, List.forall_mem_cons]
      exact ⟨⟨operand_stable value exact, operand?_stable key exact⟩, elements_stable rest exact⟩

/-- The type that an expression names. -/
theorem typeOf?_stable : ∀ (e : Expr) (exact : Bool), Stable exact (typeOf? e)
  | .node _ (.ident name), exact => by
      simp only [typeOf?]
      exact identifiedType?_stable name
  | .node _ (.paren e), exact => by
      simp only [typeOf?]
      exact typeOf?_stable e exact
  | .node _ (.type ty), exact => by
      simp only [typeOf?]
      exact (typeExpr_stable ty exact).map some
  | .node _ .nil, _ | .node _ (.bool _), _ | .node _ (.int _), _ | .node _ (.float _), _
  | .node _ (.imag _), _ | .node _ (.str _), _ | .node _ (.unary _ _), _
  | .node _ (.binary _ _ _), _ | .node _ (.call _ _), _ | .node _ (.index _ _), _
  | .node _ (.selector _ _), _ | .node _ (.composite _ _), _ | .node _ (.funcLit _ _), _ => by
      simp only [typeOf?]
      exact .pure _

/-- The type that the first expression names. -/
theorem firstType?_stable : ∀ (es : List Expr) (exact : Bool), Stable exact (firstType? es)
  | [], _ => by
      simp only [firstType?]
      exact .pure _
  | e :: _, exact => by
      simp only [firstType?]
      exact typeOf?_stable e exact

/-- What an expression calls. -/
theorem callee_stable : ∀ (e : Expr) (exact : Bool), StableCallee exact (callee e)
  | .node _ (.selector base _), exact => by
      simp only [callee, StableCallee]
      exact operand_stable base exact
  | .node _ (.ident _), _ | .node _ .nil, _ | .node _ (.bool _), _ | .node _ (.int _), _
  | .node _ (.float _), _ | .node _ (.imag _), _ | .node _ (.str _), _
  | .node _ (.unary _ _), _ | .node _ (.binary _ _ _), _ | .node _ (.call _ _), _
  | .node _ (.index _ _), _ | .node _ (.paren _), _ | .node _ (.composite _ _), _
  | .node _ (.funcLit _ _), _ | .node _ (.type _), _ => by
      simp only [callee, StableCallee]

/-- An expression as a place. -/
theorem placeOf_stable : ∀ (e : Expr) (exact : Bool), Stable exact (placeOf e)
  | .node span (.ident name), exact => by
      simp only [placeOf]
      exact (namedPlace_stable name).at' span
  | .node span (.paren e), exact => by
      simp only [placeOf]
      exact (placeOf_stable e exact).at' span
  | .node span (.index container key), exact => by
      simp only [placeOf]
      exact (indexPlace_stable (operand_stable container exact) (operand_stable key exact)).at'
        span
  | .node span (.selector base field), exact => by
      simp only [placeOf]
      exact (selectorPlace_stable (placeOf_stable base exact) field).at' span
  | .node span .nil, _ | .node span (.bool _), _ | .node span (.int _), _
  | .node span (.float _), _ | .node span (.imag _), _ | .node span (.str _), _
  | .node span (.unary _ _), _ | .node span (.binary _ _ _), _ | .node span (.call _ _), _
  | .node span (.composite _ _), _ | .node span (.funcLit _ _), _ | .node span (.type _), _ => by
      simp only [placeOf]
      exact (Stable.fail _).at' span

/-- Expressions as places. -/
theorem placesOf_stable : ∀ (es : List Expr) (exact : Bool), ∀ p ∈ placesOf es, Stable exact p
  | [], _ => by
      simp only [placesOf]
      exact List.forall_mem_nil _
  | e :: rest, exact => by
      simp only [placesOf, List.forall_mem_cons]
      exact ⟨placeOf_stable e exact, placesOf_stable rest exact⟩

/-- A type expression. -/
theorem typeExpr_stable : ∀ (t : TypeExpr) (exact : Bool), Stable exact (typeExpr t)
  | .node span kind, exact => by
      simp only [typeExpr]
      exact (typeOfKind_stable kind exact).at' span

/-- A form of type expression. -/
theorem typeOfKind_stable : ∀ (kind : TypeKind) (exact : Bool), Stable exact (typeOfKind kind)
  | .named name, exact => by
      simp only [typeOfKind]
      exact namedType_stable name
  | .qualified _ _, _ => by
      simp only [typeOfKind]
      exact .fail _
  | .slice elem, exact => by
      simp only [typeOfKind]
      exact (typeExpr_stable elem exact).bind fun _ => sliceType_stable _
  | .array length elem, exact => by
      simp only [typeOfKind]
      exact (operand_stable length exact).bind fun _ => (arrayLength_stable _).bind fun _ =>
        (typeExpr_stable elem exact).bind fun _ => arrayType_stable _ _
  | .map key value, exact => by
      simp only [typeOfKind]
      exact (typeExpr_stable key exact).bind fun _ => (typeExpr_stable value exact).bind fun _ =>
        mapType_stable _ _
  | .pointer elem, exact => by
      simp only [typeOfKind]
      exact (typeExpr_stable elem exact).bind fun _ => pointerType_stable _
  | .func sig, exact => by
      simp only [typeOfKind]
      exact (heading_stable sig exact).bind fun _ => headingType_stable _ _
  | .struct fields, exact => by
      simp only [typeOfKind]
      exact (fieldTypes_stable fields exact).bind fun _ => structType_stable _
  | .interface methods, exact => by
      simp only [typeOfKind]
      exact (methodTypes_stable methods exact).bind fun _ => interfaceType_stable _

/-- An optional type expression. -/
theorem typeExpr?_stable : ∀ (t : Option TypeExpr) (exact : Bool), Stable exact (typeExpr? t)
  | none, _ => by
      simp only [typeExpr?]
      exact .pure _
  | some t, exact => by
      simp only [typeExpr?]
      exact (typeExpr_stable t exact).map some

/-- Types of fields. -/
theorem fieldTypes_stable : ∀ (fields : List FieldDecl) (exact : Bool),
    Stable exact (fieldTypes fields)
  | [], _ => by
      simp only [fieldTypes]
      exact .pure _
  | .mk name ty embedded :: rest, exact => by
      simp only [fieldTypes]
      exact (typeExpr_stable ty exact).bind fun _ => (fieldTypes_stable rest exact).bind fun _ =>
        .pure _

/-- Types of methods. -/
theorem methodTypes_stable : ∀ (methods : List MethodSpec) (exact : Bool),
    Stable exact (methodTypes methods)
  | [], _ => by
      simp only [methodTypes]
      exact .pure _
  | .mk name sig :: rest, exact => by
      simp only [methodTypes]
      exact (heading_stable sig exact).bind fun _ => (headingType_stable _ _).bind fun _ =>
        (methodTypes_stable rest exact).bind fun _ => .pure _

/-- A signature. -/
theorem heading_stable : ∀ (sig : Sig) (exact : Bool), Stable exact (heading sig)
  | .mk params results variadic, exact => by
      simp only [heading]
      exact (paramTypes_stable params variadic exact).bind fun _ =>
        (paramTypes_stable results false exact).bind fun _ => .pure _

/-- Types of parameters. -/
theorem paramTypes_stable : ∀ (params : List Param) (variadic exact : Bool),
    Stable exact (paramTypes variadic params)
  | [], _, _ => by
      simp only [paramTypes]
      exact .pure _
  | .mk name ty :: rest, variadic, exact => by
      simp only [paramTypes]
      exact (typeExpr_stable ty exact).bind fun _ => (paramType_stable _ _).bind fun _ =>
        (paramTypes_stable rest variadic exact).bind fun _ => .pure _

/-- A statement. -/
theorem statement_stable : ∀ s : Stmt, Emit.Stable (statement s)
  | .node span kind => by
      simp only [statement]
      exact (statementOf_stable kind).at' span

/-- A form of statement. -/
theorem statementOf_stable : ∀ kind : StmtKind, Emit.Stable (statementOf kind)
  | .expr e => by
      simp only [statementOf]
      exact (Emit.Stable.lift (operand_stable e true)).bind fun _ => .modifyGet _
  | .assign lhs rhs => by
      simp only [statementOf]
      exact .all (assign_stable (placesOf_stable lhs true) (operands_stable rhs true))
  | .opAssign op lhs rhs => by
      simp only [statementOf]
      exact .one (update_stable op (placeOf_stable lhs true) (operand_stable rhs true))
  | .define names values => by
      simp only [statementOf]
      exact .one (declareValues_stable names none (operands_stable values true) true)
  | .var spec => by
      simp only [statementOf]
      exact .one (declare_stable spec)
  | .incDec target increment => by
      simp only [statementOf]
      exact .one (step_stable (placeOf_stable target true) increment)
  | .cond test body otherwise => by
      simp only [statementOf]
      exact ifThenElse_stable (operand_stable test true) (block_stable body)
        (statement?_stable otherwise)
  | .loop init test post body => by
      simp only [statementOf]
      exact loop_stable (statement?_stable init) (operand?_stable test true)
        (statement?_stable post) (block_stable body)
  | .break | .continue => by
      simp only [statementOf]
      exact branchOut_stable _ _
  | .return values => by
      simp only [statementOf]
      exact .one (returnStmt_stable (operands_stable values true))
  | .block body => by
      simp only [statementOf]
      exact inBlock_stable (block_stable body)

/-- A local declaration. -/
theorem declare_stable : ∀ spec : ValueSpec, Stable true (declare spec)
  | .mk names ty [] _ => by
      simp only [declare]
      exact (typeExpr?_stable ty true).bind fun declared => declareZeros_stable names declared
  | .mk names ty (value :: rest) _ => by
      simp only [declare]
      refine (typeExpr?_stable ty true).bind fun declared =>
        declareValues_stable names declared ?_ false
      rw [List.forall_mem_cons]
      exact ⟨operand_stable value true, operands_stable rest true⟩

/-- An optional statement. -/
theorem statement?_stable : ∀ s : Option Stmt, ∀ p ∈ statement? s, Emit.Stable p
  | none => by
      simp only [statement?]
      intro p hp
      cases hp
  | some s => by
      simp only [statement?]
      intro p hp
      cases hp
      exact statement_stable s

/-- A block. -/
theorem block_stable : ∀ body : Block, Emit.Stable (block body)
  | .mk stmts _ => by
      simp only [block]
      exact statements_stable stmts

/-- Statements in order. -/
theorem statements_stable : ∀ stmts : List Stmt, Emit.Stable (statements stmts)
  | [] => by
      simp only [statements]
      exact .pure _
  | s :: rest => by
      simp only [statements]
      exact (statement_stable s).bind fun _ => statements_stable rest

end

/-! ### Statements that are single instructions -/

variable {c d : Compiler} {k k' : Assembly}

/-- A statement is accepted. -/
def Accepts (s : StmtKind) (k : Assembly) (c : Compiler) : Prop :=
  ∃ r, statementOf s k c = .ok r

/-- A statement that is one instruction. -/
theorem one_ok {step : Compile Code.Instr} : (do Emit.one (← step) : Emit Unit) k c =
    .ok (((), k'), d) ↔ ∃ i, step c = .ok (i, d) ∧ k' = k.push i := by
  have hrun : (do Emit.one (← step) : Emit Unit) k c =
      (step c).bind fun r => .ok (((), k.push r.1), r.2) := by
    rw [emit_bind, emit_lift]
    change ((step c).bind fun r => _).bind _ = _
    cases step c <;> rfl
  rw [hrun]
  cases step c with
  | error f => simp [Except.bind]
  | ok r =>
      obtain ⟨i, d'⟩ := r
      simp only [Except.bind, Except.ok.injEq, Prod.mk.injEq, true_and]
      constructor
      · rintro ⟨rfl, rfl⟩
        exact ⟨i, ⟨rfl, rfl⟩, rfl⟩
      · rintro ⟨_, ⟨rfl, rfl⟩, rfl⟩
        exact ⟨rfl, rfl⟩

/-- A statement that is several instructions. -/
theorem all_ok {step : Compile (List Code.Instr)} : (do Emit.all (← step) : Emit Unit) k c =
    .ok (((), k'), d) ↔ ∃ is, step c = .ok (is, d) ∧ k' = k.pushAll is := by
  have hrun : (do Emit.all (← step) : Emit Unit) k c =
      (step c).bind fun r => .ok (((), k.pushAll r.1), r.2) := by
    rw [emit_bind, emit_lift]
    change ((step c).bind fun r => _).bind _ = _
    cases step c <;> rfl
  rw [hrun]
  cases step c with
  | error f => simp [Except.bind]
  | ok r =>
      obtain ⟨i, d'⟩ := r
      simp only [Except.bind, Except.ok.injEq, Prod.mk.injEq, true_and]
      constructor
      · rintro ⟨rfl, rfl⟩
        exact ⟨i, ⟨rfl, rfl⟩, rfl⟩
      · rintro ⟨_, ⟨rfl, rfl⟩, rfl⟩
        exact ⟨rfl, rfl⟩

end ScriptCore.Compile
