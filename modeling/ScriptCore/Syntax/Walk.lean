import ScriptCore.Syntax.Tree

/-!
# Walks over syntax trees

A walk meets every node of a list of items once, each parent before its children and siblings in
source order, and reports what it meets as a list of events.

Main statement: `walkItems_append`, the walk of two lists is one walk after the other.
-/

namespace ScriptCore

/-- What a walk meets. -/
inductive Event where
  | item (item : Item)
  | spec (span : Span)
  | decl (span : Span)
  | expr (e : Expr)
  | stmt (s : Stmt)
  | type (t : TypeExpr)
  | sig (s : Sig)

mutual

/-- Walk of an expression. -/
def Expr.walk (e : Expr) : List Event :=
  .expr e :: match e with
    | .node _ kind => kind.walk

/-- Walk of the children of an expression. -/
def ExprKind.walk : ExprKind → List Event
  | .ident _ | .nil | .bool _ | .int _ | .float _ | .imag _ | .str _ => []
  | .unary _ e | .selector e _ | .paren e => e.walk
  | .binary _ a b | .index a b => a.walk ++ b.walk
  | .call f args => f.walk ++ walkExprs args
  | .composite t elems => t.walk ++ walkElems elems
  | .funcLit s b => s.walk ++ b.walk
  | .type t => t.walk

/-- Walk of expressions from left to right. -/
def walkExprs : List Expr → List Event
  | [] => []
  | e :: rest => e.walk ++ walkExprs rest

/-- Walk of an optional expression. -/
def walkExpr? : Option Expr → List Event
  | none => []
  | some e => e.walk

/-- Walk of an element, its key first. -/
def Elem.walk : Elem → List Event
  | .mk key value => walkExpr? key ++ value.walk

/-- Walk of elements from left to right. -/
def walkElems : List Elem → List Event
  | [] => []
  | e :: rest => e.walk ++ walkElems rest

/-- Walk of a type expression. -/
def TypeExpr.walk (t : TypeExpr) : List Event :=
  .type t :: match t with
    | .node _ kind => kind.walk

/-- Walk of an optional type expression. -/
def walkType? : Option TypeExpr → List Event
  | none => []
  | some t => t.walk

/-- Walk of the children of a type expression. -/
def TypeKind.walk : TypeKind → List Event
  | .named _ | .qualified _ _ => []
  | .slice t | .pointer t => t.walk
  | .array len t => len.walk ++ t.walk
  | .map k v => k.walk ++ v.walk
  | .func s => s.walk
  | .struct fields => walkFields fields
  | .interface methods => walkMethods methods

/-- Walk of a signature, parameters before results. -/
def Sig.walk (s : Sig) : List Event :=
  .sig s :: match s with
    | .mk params results _ => walkParams params ++ walkParams results

/-- Walk of a parameter's type. -/
def Param.walk : Param → List Event
  | .mk _ t => t.walk

/-- Walk of parameters from left to right. -/
def walkParams : List Param → List Event
  | [] => []
  | p :: rest => p.walk ++ walkParams rest

/-- Walk of a field's type. -/
def FieldDecl.walk : FieldDecl → List Event
  | .mk _ t _ => t.walk

/-- Walk of fields from left to right. -/
def walkFields : List FieldDecl → List Event
  | [] => []
  | f :: rest => f.walk ++ walkFields rest

/-- Walk of a method's signature. -/
def MethodSpec.walk : MethodSpec → List Event
  | .mk _ s => s.walk

/-- Walk of methods from left to right. -/
def walkMethods : List MethodSpec → List Event
  | [] => []
  | m :: rest => m.walk ++ walkMethods rest

/-- Walk of a statement. -/
def Stmt.walk (s : Stmt) : List Event :=
  .stmt s :: match s with
    | .node _ kind => kind.walk

/-- Walk of an optional statement. -/
def walkStmt? : Option Stmt → List Event
  | none => []
  | some s => s.walk

/-- Walk of the children of a statement. -/
def StmtKind.walk : StmtKind → List Event
  | .expr e | .incDec e _ => e.walk
  | .assign lhs rhs => walkExprs lhs ++ walkExprs rhs
  | .opAssign _ l r => l.walk ++ r.walk
  | .define _ values | .return values => walkExprs values
  | .var spec => spec.walk
  | .cond test body els => test.walk ++ body.walk ++ walkStmt? els
  | .loop init test post body => walkStmt? init ++ walkExpr? test ++ walkStmt? post ++ body.walk
  | .break | .continue => []
  | .block b => b.walk

/-- Walk of a value line, its type before its values. -/
def ValueSpec.walk : ValueSpec → List Event
  | .mk _ type values span => .spec span :: walkType? type ++ walkExprs values

/-- Walk of a block's statements. -/
def Block.walk : Block → List Event
  | .mk stmts _ => walkStmts stmts

/-- Walk of statements in order. -/
def walkStmts : List Stmt → List Event
  | [] => []
  | s :: rest => s.walk ++ walkStmts rest

end

/-- Walk of a function: receiver, signature, body. -/
def FuncDecl.walk (d : FuncDecl) : List Event :=
  .decl d.span ::
    (match d.recv with | none => [] | some p => p.walk) ++ d.sig.walk ++
    (match d.body with | none => [] | some b => b.walk)

/-- Walk of an item. -/
def Item.walk (i : Item) : List Event :=
  .item i :: match i with
    | .const specs | .var specs => specs.flatMap ValueSpec.walk
    | .type spec => spec.type.walk
    | .func d | .macroDecl d => d.walk
    | .importDecl _ => []

/-- Walk of a list of items. -/
def walkItems (items : List Item) : List Event :=
  items.flatMap Item.walk

/-- The walk of two lists is one walk after the other. -/
theorem walkItems_append (a b : List Item) : walkItems (a ++ b) = walkItems a ++ walkItems b :=
  List.flatMap_append

/-- Names of the identifier expressions a walk meets. -/
def identifiersOf (events : List Event) : List Name :=
  events.filterMap fun
    | .expr (.node _ (.ident name)) => some name
    | _ => none

end ScriptCore
