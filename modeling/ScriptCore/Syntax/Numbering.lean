import ScriptCore.Syntax.Tree

/-!
# Numbering of syntax nodes

Trees that were not read from a file get their spans here.  Every expression, type expression,
statement, block, value line and item takes the next position as its span, children before their
parent and from left to right; blocks of constants or variables take none of their own.  The
numbering also counts the nodes of the three families.

Main statement: `Numbering.place_next`, every node moves the position on by one.
-/

namespace ScriptCore

/-- The next free position and the number of nodes made so far. -/
structure Numbering where
  next : Nat
  exprs : Nat
  stmts : Nat
  types : Nat
deriving Repr, DecidableEq

/-- The state before the first node. -/
def Numbering.start : Numbering := ⟨0, 0, 0, 0⟩

/-- Computations that number nodes. -/
abbrev Numbered := StateM Numbering

namespace Numbering

/-- Take the next position as a span. -/
def place : Numbered Span := fun s => (⟨s.next, s.next + 1⟩, { s with next := s.next + 1 })

/-- Every node moves the position on by one. -/
theorem place_next (s : Numbering) : (place s).2.next = s.next + 1 := rfl

/-- Span of a new expression. -/
def placeExpr : Numbered Span := do
  modify fun s => { s with exprs := s.exprs + 1 }
  place

/-- Span of a new statement. -/
def placeStmt : Numbered Span := do
  modify fun s => { s with stmts := s.stmts + 1 }
  place

/-- Span of a new type expression. -/
def placeType : Numbered Span := do
  modify fun s => { s with types := s.types + 1 }
  place

end Numbering

open ScriptCore.Numbering

mutual

/-- Number an expression. -/
def Expr.number : Expr → Numbered Expr
  | .node _ kind => do
    let kind ← kind.number
    return .node (← placeExpr) kind

/-- Number the children of an expression. -/
def ExprKind.number : ExprKind → Numbered ExprKind
  | .ident n => return .ident n
  | .nil => return .nil
  | .bool b => return .bool b
  | .int i => return .int i
  | .float x => return .float x
  | .imag x => return .imag x
  | .str s => return .str s
  | .unary op e => return .unary op (← e.number)
  | .binary op a b => return .binary op (← a.number) (← b.number)
  | .call f args => return .call (← f.number) (← numberExprs args)
  | .index c k => return .index (← c.number) (← k.number)
  | .selector b f => return .selector (← b.number) f
  | .paren e => return .paren (← e.number)
  | .composite t es => return .composite (← t.number) (← numberElems es)
  | .funcLit s b => return .funcLit (← s.number) (← b.number)
  | .type t => return .type (← t.number)

/-- Number expressions from left to right. -/
def numberExprs : List Expr → Numbered (List Expr)
  | [] => return []
  | e :: rest => return (← e.number) :: (← numberExprs rest)

/-- Number an optional expression. -/
def numberExpr? : Option Expr → Numbered (Option Expr)
  | none => return none
  | some e => return some (← e.number)

/-- Number an element, its key first. -/
def Elem.number : Elem → Numbered Elem
  | .mk key value => return .mk (← numberExpr? key) (← value.number)

/-- Number elements from left to right. -/
def numberElems : List Elem → Numbered (List Elem)
  | [] => return []
  | e :: rest => return (← e.number) :: (← numberElems rest)

/-- Number a type expression. -/
def TypeExpr.number : TypeExpr → Numbered TypeExpr
  | .node _ kind => do
    let kind ← kind.number
    return .node (← placeType) kind

/-- Number an optional type expression. -/
def numberType? : Option TypeExpr → Numbered (Option TypeExpr)
  | none => return none
  | some t => return some (← t.number)

/-- Number the children of a type expression. -/
def TypeKind.number : TypeKind → Numbered TypeKind
  | .named n => return .named n
  | .qualified p n => return .qualified p n
  | .slice t => return .slice (← t.number)
  | .array len t => return .array (← len.number) (← t.number)
  | .map k v => return .map (← k.number) (← v.number)
  | .pointer t => return .pointer (← t.number)
  | .func s => return .func (← s.number)
  | .struct fs => return .struct (← numberFields fs)
  | .interface ms => return .interface (← numberMethods ms)

/-- Number a signature, parameters before results. -/
def Sig.number : Sig → Numbered Sig
  | .mk params results variadic =>
    return .mk (← numberParams params) (← numberParams results) variadic

/-- Number a parameter's type. -/
def Param.number : Param → Numbered Param
  | .mk name type => return .mk name (← type.number)

/-- Number parameters from left to right. -/
def numberParams : List Param → Numbered (List Param)
  | [] => return []
  | p :: rest => return (← p.number) :: (← numberParams rest)

/-- Number a field's type. -/
def FieldDecl.number : FieldDecl → Numbered FieldDecl
  | .mk name type embedded => return .mk name (← type.number) embedded

/-- Number fields from left to right. -/
def numberFields : List FieldDecl → Numbered (List FieldDecl)
  | [] => return []
  | f :: rest => return (← f.number) :: (← numberFields rest)

/-- Number a method's signature. -/
def MethodSpec.number : MethodSpec → Numbered MethodSpec
  | .mk name sig => return .mk name (← sig.number)

/-- Number methods from left to right. -/
def numberMethods : List MethodSpec → Numbered (List MethodSpec)
  | [] => return []
  | m :: rest => return (← m.number) :: (← numberMethods rest)

/-- Number a statement. -/
def Stmt.number : Stmt → Numbered Stmt
  | .node _ kind => do
    let kind ← kind.number
    return .node (← placeStmt) kind

/-- Number an optional statement. -/
def numberStmt? : Option Stmt → Numbered (Option Stmt)
  | none => return none
  | some s => return some (← s.number)

/-- Number the children of a statement. -/
def StmtKind.number : StmtKind → Numbered StmtKind
  | .expr e => return .expr (← e.number)
  | .assign lhs rhs => return .assign (← numberExprs lhs) (← numberExprs rhs)
  | .opAssign op l r => return .opAssign op (← l.number) (← r.number)
  | .define names values => return .define names (← numberExprs values)
  | .var spec => return .var (← spec.number)
  | .incDec t inc => return .incDec (← t.number) inc
  | .cond test body els =>
    return .cond (← test.number) (← body.number) (← numberStmt? els)
  | .loop init test post body =>
    return .loop (← numberStmt? init) (← numberExpr? test) (← numberStmt? post) (← body.number)
  | .break => return .break
  | .continue => return .continue
  | .return values => return .return (← numberExprs values)
  | .block b => return .block (← b.number)

/-- Number a value line, its type before its values. -/
def ValueSpec.number : ValueSpec → Numbered ValueSpec
  | .mk names type values _ => do
    let type ← numberType? type
    let values ← numberExprs values
    return .mk names type values (← place)

/-- Number a block after its statements. -/
def Block.number : Block → Numbered Block
  | .mk stmts _ => do
    let stmts ← numberStmts stmts
    return .mk stmts (← place)

/-- Number statements in order. -/
def numberStmts : List Stmt → Numbered (List Stmt)
  | [] => return []
  | s :: rest => return (← s.number) :: (← numberStmts rest)

end

/-- Number value lines in order. -/
def numberSpecs : List ValueSpec → Numbered (List ValueSpec)
  | [] => return []
  | s :: rest => return (← s.number) :: (← numberSpecs rest)

/-- Number a function: receiver, signature, body, then the function itself. -/
def FuncDecl.number (d : FuncDecl) : Numbered FuncDecl := do
  let recv ← match d.recv with
    | none => pure none
    | some p => some <$> p.number
  let sig ← d.sig.number
  let body ← match d.body with
    | none => pure none
    | some b => some <$> b.number
  return { d with recv, sig, body, span := ← place }

/-- Number a top-level item. -/
def Item.number : Item → Numbered Item
  | .const specs => return .const (← numberSpecs specs)
  | .var specs => return .var (← numberSpecs specs)
  | .type spec => do
    let type ← spec.type.number
    return .type { spec with type, span := ← place }
  | .func d => return .func (← d.number)
  | .macroDecl d => return .macroDecl (← d.number)
  | .importDecl spec => return .importDecl { spec with span := ← place }

/-- Number items in order. -/
def numberItems : List Item → Numbered (List Item)
  | [] => return []
  | i :: rest => return (← i.number) :: (← numberItems rest)

end ScriptCore
