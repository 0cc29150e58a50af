import ScriptCore.Proofs.Lowering.Steps

/-!
# Syntax is compiled by local steps

Every form of syntax is compiled by a rule from its parts, so all of it is compiled by local steps,
by induction on the tree.

Main statements: `operand_isLocal`, `typeExpr_isLocal` and `statement_isLocal`.
-/

namespace ScriptCore.Compile

mutual

/-- An expression. -/
theorem operand_isLocal : ∀ (e : Expr) {begins : Bool}, IsLocal begins (operand e)
  | .node span kind => by
      simp only [operand]
      exact (operandOf_isLocal kind).at' span

/-- A form of expression. -/
theorem operandOf_isLocal : ∀ (kind : ExprKind) {begins : Bool}, IsLocal begins (operandOf kind)
  | .ident name => by
      simp only [operandOf]
      exact identifier_isLocal name
  | .nil | .bool _ | .int _ | .float _ | .imag _ | .str _ => by
      simp only [operandOf]
      exact .pure _
  | .unary op e => by
      simp only [operandOf]
      exact (operand_isLocal e).bind fun _ => (IsLocal.check _).bind fun _ =>
        (IsLocal.rule _).bind fun _ => .pure _
  | .binary op a b => by
      simp only [operandOf]
      exact (operand_isLocal a).bind fun _ => (IsLocal.check _).bind fun _ =>
        (operand_isLocal b).bind fun _ => (IsLocal.check _).bind fun _ =>
          (IsLocal.rule _).bind fun _ => .pure _
  | .call f args => by
      simp only [operandOf]
      exact call_isLocal (typeOf?_isLocal f) (callee_isLocal f) (operand_isLocal f)
        (firstType?_isLocal args) (operands_isLocal args)
  | .index container key => by
      simp only [operandOf]
      exact index_isLocal (operand_isLocal container) (operand_isLocal key)
  | .selector base field => by
      simp only [operandOf]
      exact selector_isLocal _ field (operand_isLocal base)
  | .paren e => by
      simp only [operandOf]
      exact operand_isLocal e
  | .composite t elems => by
      simp only [operandOf]
      exact (typeExpr_isLocal t).bind fun _ => composite_isLocal _ (elements_isLocal elems)
  | .funcLit sig body => by
      simp only [operandOf]
      exact funcLit_isLocal (heading_isLocal sig) (block_isLocal body)
  | .type _ => by
      simp only [operandOf]
      exact .fail _

/-- Expressions. -/
theorem operands_isLocal : ∀ (es : List Expr) {begins : Bool}, ∀ p ∈ operands es, IsLocal begins p
  | [] => by
      simp only [operands]
      exact List.forall_mem_nil _
  | e :: rest => by
      simp only [operands, List.forall_mem_cons]
      exact ⟨operand_isLocal e, operands_isLocal rest⟩

/-- An optional expression. -/
theorem operand?_isLocal : ∀ (e : Option Expr) {begins : Bool}, ∀ p ∈ operand? e, IsLocal begins p
  | none => by
      simp only [operand?]
      intro p hp
      cases hp
  | some e => by
      simp only [operand?]
      intro p hp
      cases hp
      exact operand_isLocal e

/-- Elements of a literal. -/
theorem elements_isLocal : ∀ (elems : List Elem) {begins : Bool},
    LocalElements begins (elements elems)
  | [] => by
      simp only [elements, LocalElements]
      exact List.forall_mem_nil _
  | .mk key value :: rest => by
      simp only [elements, LocalElements, List.forall_mem_cons]
      exact ⟨⟨operand_isLocal value, operand?_isLocal key⟩, elements_isLocal rest⟩

/-- The type that an expression names. -/
theorem typeOf?_isLocal : ∀ (e : Expr) {begins : Bool}, IsLocal begins (typeOf? e)
  | .node _ (.ident name) => by
      simp only [typeOf?]
      exact identifiedType?_isLocal name
  | .node _ (.paren e) => by
      simp only [typeOf?]
      exact typeOf?_isLocal e
  | .node _ (.type ty) => by
      simp only [typeOf?]
      exact (typeExpr_isLocal ty).map some
  | .node _ .nil | .node _ (.bool _) | .node _ (.int _) | .node _ (.float _)
  | .node _ (.imag _) | .node _ (.str _) | .node _ (.unary _ _)
  | .node _ (.binary _ _ _) | .node _ (.call _ _) | .node _ (.index _ _)
  | .node _ (.selector _ _) | .node _ (.composite _ _) | .node _ (.funcLit _ _) => by
      simp only [typeOf?]
      exact .pure _

/-- The type that the first expression names. -/
theorem firstType?_isLocal : ∀ (es : List Expr) {begins : Bool}, IsLocal begins (firstType? es)
  | [] => by
      simp only [firstType?]
      exact .pure _
  | e :: _ => by
      simp only [firstType?]
      exact typeOf?_isLocal e

/-- What an expression calls. -/
theorem callee_isLocal : ∀ (e : Expr) {begins : Bool}, LocalCallee begins (callee e)
  | .node _ (.selector base _) => by
      simp only [callee, LocalCallee]
      exact operand_isLocal base
  | .node _ (.ident _) | .node _ .nil | .node _ (.bool _) | .node _ (.int _)
  | .node _ (.float _) | .node _ (.imag _) | .node _ (.str _)
  | .node _ (.unary _ _) | .node _ (.binary _ _ _) | .node _ (.call _ _)
  | .node _ (.index _ _) | .node _ (.paren _) | .node _ (.composite _ _)
  | .node _ (.funcLit _ _) | .node _ (.type _) => by
      simp only [callee, LocalCallee]

/-- An expression as a place. -/
theorem placeOf_isLocal : ∀ (e : Expr) {begins : Bool}, IsLocal begins (placeOf e)
  | .node span (.ident name) => by
      simp only [placeOf]
      exact (namedPlace_isLocal name).at' span
  | .node span (.paren e) => by
      simp only [placeOf]
      exact (placeOf_isLocal e).at' span
  | .node span (.index container key) => by
      simp only [placeOf]
      exact (indexPlace_isLocal (operand_isLocal container) (operand_isLocal key)).at'
        span
  | .node span (.selector base field) => by
      simp only [placeOf]
      exact (selectorPlace_isLocal (placeOf_isLocal base) field).at' span
  | .node span .nil | .node span (.bool _) | .node span (.int _)
  | .node span (.float _) | .node span (.imag _) | .node span (.str _)
  | .node span (.unary _ _) | .node span (.binary _ _ _) | .node span (.call _ _)
  | .node span (.composite _ _) | .node span (.funcLit _ _) | .node span (.type _) => by
      simp only [placeOf]
      exact (IsLocal.fail _).at' span

/-- Expressions as places. -/
theorem placesOf_isLocal : ∀ (es : List Expr) {begins : Bool}, ∀ p ∈ placesOf es, IsLocal begins p
  | [] => by
      simp only [placesOf]
      exact List.forall_mem_nil _
  | e :: rest => by
      simp only [placesOf, List.forall_mem_cons]
      exact ⟨placeOf_isLocal e, placesOf_isLocal rest⟩

/-- A type expression. -/
theorem typeExpr_isLocal : ∀ (t : TypeExpr) {begins : Bool}, IsLocal begins (typeExpr t)
  | .node span kind => by
      simp only [typeExpr]
      exact (typeOfKind_isLocal kind).at' span

/-- A form of type expression. -/
theorem typeOfKind_isLocal : ∀ (kind : TypeKind) {begins : Bool}, IsLocal begins (typeOfKind kind)
  | .named name => by
      simp only [typeOfKind]
      exact namedType_isLocal name
  | .qualified _ _ => by
      simp only [typeOfKind]
      exact .fail _
  | .slice elem => by
      simp only [typeOfKind]
      exact (typeExpr_isLocal elem).bind fun _ => IsLocal.build _
  | .array length elem => by
      simp only [typeOfKind]
      exact (operand_isLocal length).bind fun _ => (arrayLength_isLocal _).bind fun _ =>
        (typeExpr_isLocal elem).bind fun _ => IsLocal.build _
  | .map key value => by
      simp only [typeOfKind]
      exact (typeExpr_isLocal key).bind fun _ => (typeExpr_isLocal value).bind fun _ =>
        IsLocal.build _
  | .pointer elem => by
      simp only [typeOfKind]
      exact (typeExpr_isLocal elem).bind fun _ => IsLocal.build _
  | .func sig => by
      simp only [typeOfKind]
      exact (heading_isLocal sig).bind fun _ => IsLocal.build _
  | .struct fields => by
      simp only [typeOfKind]
      exact (fieldTypes_isLocal fields).bind fun _ => IsLocal.build _
  | .interface methods => by
      simp only [typeOfKind]
      exact (methodTypes_isLocal methods).bind fun _ => IsLocal.build _

/-- An optional type expression. -/
theorem typeExpr?_isLocal : ∀ (t : Option TypeExpr) {begins : Bool}, IsLocal begins (typeExpr? t)
  | none => by
      simp only [typeExpr?]
      exact .pure _
  | some t => by
      simp only [typeExpr?]
      exact (typeExpr_isLocal t).map some

/-- Types of fields. -/
theorem fieldTypes_isLocal : ∀ (fields : List FieldDecl) {begins : Bool},
    IsLocal begins (fieldTypes fields)
  | [] => by
      simp only [fieldTypes]
      exact .pure _
  | .mk name ty embedded :: rest => by
      simp only [fieldTypes]
      exact (typeExpr_isLocal ty).bind fun _ => (fieldTypes_isLocal rest).bind fun _ =>
        .pure _

/-- Types of methods. -/
theorem methodTypes_isLocal : ∀ (methods : List MethodSpec) {begins : Bool},
    IsLocal begins (methodTypes methods)
  | [] => by
      simp only [methodTypes]
      exact .pure _
  | .mk name sig :: rest => by
      simp only [methodTypes]
      exact (heading_isLocal sig).bind fun _ => (IsLocal.build _).bind fun _ =>
        (methodTypes_isLocal rest).bind fun _ => .pure _

/-- A signature. -/
theorem heading_isLocal : ∀ (sig : Sig) {begins : Bool}, IsLocal begins (heading sig)
  | .mk params results variadic => by
      simp only [heading]
      exact (paramTypes_isLocal params variadic).bind fun _ =>
        (paramTypes_isLocal results false).bind fun _ => .pure _

/-- Types of parameters. -/
theorem paramTypes_isLocal : ∀ (params : List Param) (variadic : Bool) {begins : Bool},
    IsLocal begins (paramTypes variadic params)
  | [], _ => by
      simp only [paramTypes]
      exact .pure _
  | .mk name ty :: rest, variadic => by
      simp only [paramTypes]
      exact (typeExpr_isLocal ty).bind fun _ => (paramType_isLocal _ _).bind fun _ =>
        (paramTypes_isLocal rest variadic).bind fun _ => .pure _

/-- A statement. -/
theorem statement_isLocal : ∀ (s : Stmt) {begins : Bool}, Emit.IsLocal begins (statement s)
  | .node span kind => by
      simp only [statement]
      exact (statementOf_isLocal kind).at' span

/-- A form of statement. -/
theorem statementOf_isLocal : ∀ (kind : StmtKind) {begins : Bool},
    Emit.IsLocal begins (statementOf kind)
  | .expr e => by
      simp only [statementOf]
      exact (Emit.IsLocal.lift (operand_isLocal e)).bind fun _ => .modifyGet _
  | .assign lhs rhs => by
      simp only [statementOf]
      exact .all (assign_isLocal (placesOf_isLocal lhs) (operands_isLocal rhs))
  | .opAssign op lhs rhs => by
      simp only [statementOf]
      exact .one (update_isLocal op (placeOf_isLocal lhs) (operand_isLocal rhs))
  | .define names values => by
      simp only [statementOf]
      exact .one (declareValues_isLocal names none (operands_isLocal values) true)
  | .var spec => by
      simp only [statementOf]
      exact .one (declare_isLocal spec)
  | .incDec target increment => by
      simp only [statementOf]
      exact .one (step_isLocal (placeOf_isLocal target) increment)
  | .cond test body otherwise => by
      simp only [statementOf]
      exact ifThenElse_isLocal (operand_isLocal test) (block_isLocal body)
        (statement?_isLocal otherwise)
  | .loop init test post body => by
      simp only [statementOf]
      exact loop_isLocal (statement?_isLocal init) (operand?_isLocal test)
        (statement?_isLocal post) (block_isLocal body)
  | .break | .continue => by
      simp only [statementOf]
      exact branchOut_isLocal _ _
  | .return values => by
      simp only [statementOf]
      exact .one (returnStmt_isLocal (operands_isLocal values))
  | .block body => by
      simp only [statementOf]
      exact inBlock_isLocal (block_isLocal body)

/-- A local declaration. -/
theorem declare_isLocal : ∀ (spec : ValueSpec) {begins : Bool}, IsLocal begins (declare spec)
  | .mk names ty [] _ => by
      simp only [declare]
      exact (typeExpr?_isLocal ty).bind fun declared => declareZeros_isLocal names declared
  | .mk names ty (value :: rest) _ => by
      simp only [declare]
      refine (typeExpr?_isLocal ty).bind fun declared =>
        declareValues_isLocal names declared ?_ false
      rw [List.forall_mem_cons]
      exact ⟨operand_isLocal value, operands_isLocal rest⟩

/-- An optional statement. -/
theorem statement?_isLocal : ∀ (s : Option Stmt) {begins : Bool},
    ∀ p ∈ statement? s, Emit.IsLocal begins p
  | none => by
      simp only [statement?]
      intro p hp
      cases hp
  | some s => by
      simp only [statement?]
      intro p hp
      cases hp
      exact statement_isLocal s

/-- A block. -/
theorem block_isLocal : ∀ (body : Block) {begins : Bool}, Emit.IsLocal begins (block body)
  | .mk stmts _ => by
      simp only [block]
      exact statements_isLocal stmts

/-- Statements in order. -/
theorem statements_isLocal : ∀ (stmts : List Stmt) {begins : Bool},
    Emit.IsLocal begins (statements stmts)
  | [] => by
      simp only [statements]
      exact .pure _
  | s :: rest => by
      simp only [statements]
      exact (statement_isLocal s).bind fun _ => statements_isLocal rest

end

end ScriptCore.Compile
