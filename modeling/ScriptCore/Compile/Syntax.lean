import ScriptCore.Compile.Control
import ScriptCore.Compile.Operators
import ScriptCore.Syntax.Tree

/-!
# Compilation of syntax

Every form of expression, type and statement is compiled by the rule for its form, from its parts.
An expression is read in one of several ways: as an operand, as a type, as a place to assign to, or
as what a call calls.

An error that has no place yet gets the span of the innermost expression, type or statement being
compiled.

Main statement: `operand_node`, the operand of an expression is that of its form, with errors
placed at its span.
-/

namespace ScriptCore

/-- The name that an expression is, if it is one. -/
def Expr.identifier? : Expr → Option Name
  | .node _ (.ident name) => some name
  | _ => none

namespace Compile

mutual

/-- An expression as an operand. -/
def operand : Expr → Compile Operand
  | .node span kind => at' span (operandOf kind)

/-- The operand of a form of expression. -/
def operandOf : ExprKind → Compile Operand
  | .ident name => identifier name
  | .nil => return .untyped .nil
  | .bool b => return .untyped (.bool b)
  | .int i => return .untyped (.int i)
  | .float x => return .untyped (.float x)
  | .imag x => return .untyped (.complex 0 x)
  | .str s => return .untyped (.str s)
  | .unary op e => do
    let x ← check (← operand e).single
    return .term (← rule fun t => x.unary t op)
  | .binary op a b => do
    let x ← check (← operand a).single
    let y ← check (← operand b).single
    return .term (← rule fun t => x.binary t op y)
  | .call f args => call (typeOf? f) (callee f) (operand f) (firstType? args) (operands args)
  | .index container key => index (operand container) (operand key)
  | .selector base field => selector base.identifier? (operand base) field
  | .paren e => operand e
  | .composite ty elems => do composite (← typeExpr ty) (elements elems)
  | .funcLit sig body => funcLit (heading sig) (block body)
  | .type _ => fail (.notAnExpression "type")

/-- Expressions as operands. -/
def operands : List Expr → List (Compile Operand)
  | [] => []
  | e :: rest => operand e :: operands rest

/-- An optional expression as an operand. -/
def operand? : Option Expr → Option (Compile Operand)
  | none => none
  | some e => some (operand e)

/-- Elements of a literal. -/
def elements : List Elem → List Element
  | [] => []
  | .mk key value :: rest =>
    ⟨key.bind Expr.identifier?, operand? key, operand value⟩ :: elements rest

/-- The type that an expression names, if it names one. -/
def typeOf? : Expr → Compile (Option Ty)
  | .node _ (.ident name) => identifiedType? name
  | .node _ (.paren e) => typeOf? e
  | .node _ (.type ty) => some <$> typeExpr ty
  | _ => return none

/-- The type that the first expression names, if it names one. -/
def firstType? : List Expr → Compile (Option Ty)
  | [] => return none
  | e :: _ => typeOf? e

/-- What a call of an expression calls. -/
def callee : Expr → Callee
  | .node _ (.ident name) => .name name
  | .node _ (.selector base field) => .selector base.identifier? (operand base) field
  | _ => .other

/-- An expression as a place. -/
def placeOf : Expr → Compile (Option Place)
  | .node span (.ident name) => at' span (namedPlace name)
  | .node span (.paren e) => at' span (placeOf e)
  | .node span (.index container key) => at' span (indexPlace (operand container) (operand key))
  | .node span (.selector base field) => at' span (selectorPlace (placeOf base) field)
  | .node span _ => at' span (fail (.cannotAssign "expression"))

/-- Expressions as places. -/
def placesOf : List Expr → List (Compile (Option Place))
  | [] => []
  | e :: rest => placeOf e :: placesOf rest

/-- A type expression as a type. -/
def typeExpr : TypeExpr → Compile Ty
  | .node span kind => at' span (typeOfKind kind)

/-- The type of a form of type expression. -/
def typeOfKind : TypeKind → Compile Ty
  | .named name => namedType name
  | .qualified package name => fail (.undefined (package ++ "." ++ name))
  | .slice elem => do sliceType (← typeExpr elem)
  | .array length elem => do
    let n ← arrayLength (← operand length)
    arrayType n (← typeExpr elem)
  | .map key value => do
    let k ← typeExpr key
    let v ← typeExpr value
    mapType k v
  | .pointer elem => do pointerType (← typeExpr elem)
  | .func sig => do headingType none (← heading sig)
  | .struct fields => do structType (← fieldTypes fields)
  | .interface methods => do interfaceType (← methodTypes methods)

/-- An optional type expression as a type. -/
def typeExpr? : Option TypeExpr → Compile (Option Ty)
  | none => return none
  | some ty => some <$> typeExpr ty

/-- Types of struct fields. -/
def fieldTypes : List FieldDecl → Compile (List Field)
  | [] => return []
  | .mk name ty embedded :: rest => do
    let ty ← typeExpr ty
    return ⟨name, ty, embedded⟩ :: (← fieldTypes rest)

/-- Types of interface methods. -/
def methodTypes : List MethodSpec → Compile (List Method)
  | [] => return []
  | .mk name sig :: rest => do
    let ty ← headingType none (← heading sig)
    return ⟨name, ty⟩ :: (← methodTypes rest)

/-- A signature as a heading. -/
def heading : Sig → Compile Heading
  | .mk params results variadic => do
    let ps ← paramTypes variadic params
    let rs ← paramTypes false results
    return ⟨ps, rs, variadic⟩

/-- Types of parameters, the last of which may collect arguments. -/
def paramTypes (variadic : Bool) : List Param → Compile (List (Option Name × Ty))
  | [] => return []
  | .mk name ty :: rest => do
    let ty ← paramType (variadic && rest.isEmpty) (← typeExpr ty)
    return (name, ty) :: (← paramTypes variadic rest)

/-- Compile a statement. -/
def statement : Stmt → Emit Unit
  | .node span kind => Emit.at' span (statementOf kind)

/-- Compile a form of statement. -/
def statementOf : StmtKind → Emit Unit
  | .expr e => do Emit.all (discard (← operand e))
  | .assign lhs rhs => do Emit.all (← assign (placesOf lhs) (operands rhs))
  | .opAssign op lhs rhs => do Emit.one (← update op (placeOf lhs) (operand rhs))
  | .define names values => do Emit.one (← declareValues names none (operands values) true)
  | .var spec => do Emit.one (← declare spec)
  | .incDec target increment => do Emit.one (← step (placeOf target) increment)
  | .cond test body otherwise => ifThenElse (operand test) (block body) (statement? otherwise)
  | .loop init test post body =>
    loop (statement? init) (operand? test) (statement? post) (block body)
  | .break => branchOut "break" LoopLabels.exit
  | .continue => branchOut "continue" LoopLabels.next
  | .return values => do Emit.one (← returnStmt (operands values))
  | .block body => inBlock (block body)

/-- Compile a local declaration of variables. -/
def declare : ValueSpec → Compile Code.Instr
  | .mk names ty values _ => do
    let declared ← typeExpr? ty
    match values with
    | [] => declareZeros names declared
    | value :: rest => declareValues names declared (operand value :: operands rest) false

/-- Compile an optional statement. -/
def statement? : Option Stmt → Option (Emit Unit)
  | none => none
  | some s => some (statement s)

/-- Compile the statements of a block. -/
def block : Block → Emit Unit
  | .mk stmts _ => statements stmts

/-- Compile statements in order. -/
def statements : List Stmt → Emit Unit
  | [] => return ()
  | s :: rest => do
    statement s
    statements rest

end

/-- The operand of an expression is that of its form, with errors placed at its span. -/
theorem operand_node (span : Span) (kind : ExprKind) :
    operand (.node span kind) = at' span (operandOf kind) := by
  simp only [operand]

/-- There are as many operands as expressions. -/
theorem operands_length (es : List Expr) : (operands es).length = es.length := by
  induction es with
  | nil => simp only [operands, List.length_nil]
  | cons e es ih => simp only [operands, List.length_cons, ih]

/-- There are as many places as expressions. -/
theorem placesOf_length (es : List Expr) : (placesOf es).length = es.length := by
  induction es with
  | nil => simp only [placesOf, List.length_nil]
  | cons e es ih => simp only [placesOf, List.length_cons, ih]

end Compile

end ScriptCore
