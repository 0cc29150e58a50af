import ScriptCore.Proofs.Dependencies.Occurrences

/-!
# Regular syntax

The names that a declaration is said to use are found without a look at types, and the clauses of a
loop are walked in the order in which they are written.  This misses two kinds of occurrences: a
bare identifier that is the key of an element of a literal whose type is a name for a map type, and
a name in the body of a loop whose last clause declares that name.  Syntax is regular where there
are none of these.

The predicate `plain` says of a type name that it does not stand for a map type.

Main definition: `Decl.Regular`.
-/

namespace ScriptCore

/-- The element has a key that is a bare identifier. -/
def Elem.hasBareKey : Elem → Bool
  | .mk (some key) _ => key.isIdent
  | .mk none _ => false

/-- If the type of a literal is a name, it does not stand for a map type. -/
def TypeExpr.Plain (plain : Name → Prop) : TypeExpr → Prop
  | .node _ (.named m) => plain m
  | _ => True

section Regular

variable (plain : Name → Prop)

mutual

/-- An expression is regular. -/
def Expr.Regular : Expr → Prop
  | .node _ kind => kind.Regular

/-- A form of expression is regular. -/
def ExprKind.Regular : ExprKind → Prop
  | .ident _ | .nil | .bool _ | .int _ | .float _ | .imag _ | .str _ => True
  | .unary _ e | .paren e | .selector e _ => e.Regular
  | .binary _ a b | .index a b => a.Regular ∧ b.Regular
  | .call f args => f.Regular ∧ RegularExprs args
  | .composite t elems =>
    t.Regular ∧ RegularElems elems ∧
      (t.hasExprKeys = true ∨ (∀ e ∈ elems, e.hasBareKey = false) ∨ t.Plain plain)
  | .funcLit sig body => sig.Regular ∧ body.Regular
  | .type t => t.Regular

/-- Expressions are regular. -/
def RegularExprs : List Expr → Prop
  | [] => True
  | e :: rest => e.Regular ∧ RegularExprs rest

/-- An optional expression is regular. -/
def RegularExpr? : Option Expr → Prop
  | none => True
  | some e => e.Regular

/-- Elements are regular. -/
def RegularElems : List Elem → Prop
  | [] => True
  | .mk key value :: rest => RegularExpr? key ∧ value.Regular ∧ RegularElems rest

/-- A type expression is regular. -/
def TypeExpr.Regular : TypeExpr → Prop
  | .node _ kind => kind.Regular

/-- An optional type expression is regular. -/
def RegularType? : Option TypeExpr → Prop
  | none => True
  | some t => t.Regular

/-- A form of type expression is regular. -/
def TypeKind.Regular : TypeKind → Prop
  | .named _ | .qualified _ _ => True
  | .slice t | .pointer t => t.Regular
  | .array len t => len.Regular ∧ t.Regular
  | .map k v => k.Regular ∧ v.Regular
  | .func sig => sig.Regular
  | .struct fields => RegularFields fields
  | .interface methods => RegularMethods methods

/-- A signature is regular. -/
def Sig.Regular : Sig → Prop
  | .mk params results _ => RegularParams params ∧ RegularParams results

/-- Parameters are regular. -/
def RegularParams : List Param → Prop
  | [] => True
  | .mk _ t :: rest => t.Regular ∧ RegularParams rest

/-- Fields are regular. -/
def RegularFields : List FieldDecl → Prop
  | [] => True
  | .mk _ t _ :: rest => t.Regular ∧ RegularFields rest

/-- Methods are regular. -/
def RegularMethods : List MethodSpec → Prop
  | [] => True
  | .mk _ sig :: rest => sig.Regular ∧ RegularMethods rest

/-- A statement is regular. -/
def Stmt.Regular : Stmt → Prop
  | .node _ kind => kind.Regular

/-- An optional statement is regular. -/
def RegularStmt? : Option Stmt → Prop
  | none => True
  | some s => s.Regular

/-- A form of statement is regular. -/
def StmtKind.Regular : StmtKind → Prop
  | .expr e | .incDec e _ => e.Regular
  | .assign lhs rhs => RegularExprs lhs ∧ RegularExprs rhs
  | .opAssign _ l r => l.Regular ∧ r.Regular
  | .define _ values | .return values => RegularExprs values
  | .var spec => spec.Regular
  | .cond test body otherwise => test.Regular ∧ body.Regular ∧ RegularStmt? otherwise
  | .loop init test post body =>
    RegularStmt? init ∧ RegularExpr? test ∧ RegularStmt? post ∧ body.Regular ∧
      declaresOf? post = []
  | .break | .continue => True
  | .block b => b.Regular

/-- A value line is regular. -/
def ValueSpec.Regular : ValueSpec → Prop
  | .mk _ type values _ => RegularType? type ∧ RegularExprs values

/-- A block is regular. -/
def Block.Regular : Block → Prop
  | .mk stmts _ => RegularStmts stmts

/-- Statements are regular. -/
def RegularStmts : List Stmt → Prop
  | [] => True
  | s :: rest => s.Regular ∧ RegularStmts rest

end

/-- A function or method is regular. -/
def FuncDecl.Regular (d : FuncDecl) : Prop :=
  RegularParams plain d.recv.toList ∧ d.sig.Regular plain ∧ ∀ b ∈ d.body, b.Regular plain

/-- A declaration is regular; of a line with several initializers only its own counts. -/
def Decl.Regular (d : Decl) : Prop :=
  match d.node with
  | .importSpec _ | .forward => True
  | .type spec => spec.type.Regular plain
  | .func decl => decl.Regular plain
  | .value spec | .tuple spec => spec.Regular plain
  | .grouped spec index =>
    RegularType? plain spec.type ∧ RegularExpr? plain spec.values[index]?

end Regular

end ScriptCore
