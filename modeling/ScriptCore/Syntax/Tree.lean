import ScriptCore.Syntax.Basic

/-!
# Syntax trees

Expressions, type expressions and statements are three families of nodes that refer to each other;
every node carries its span.  Signatures, parameters, struct fields, interface methods and the
elements of composite literals are parts of nodes without a span of their own.
-/

namespace ScriptCore

mutual

/-- An expression with its span. -/
inductive Expr where
  | node (span : Span) (kind : ExprKind)

/-- Forms of expressions. -/
inductive ExprKind where
  | ident (name : Name)
  | nil
  | bool (value : Bool)
  | int (value : Int)
  | float (value : Float)
  | imag (value : Float)
  | str (text : String)
  | unary (op : UnaryOp) (operand : Expr)
  | binary (op : BinaryOp) (left right : Expr)
  | call (func : Expr) (args : List Expr)
  | index (container key : Expr)
  | selector (base : Expr) (field : Name)
  | paren (inner : Expr)
  | composite (type : TypeExpr) (elems : List Elem)
  | funcLit (sig : Sig) (body : Block)
  | type (type : TypeExpr)

/-- An element of a composite literal; the key is a map key or a field name. -/
inductive Elem where
  | mk (key : Option Expr) (value : Expr)

/-- A type expression with its span. -/
inductive TypeExpr where
  | node (span : Span) (kind : TypeKind)

/-- Forms of type expressions. -/
inductive TypeKind where
  | named (name : Name)
  | qualified (package name : Name)
  | slice (elem : TypeExpr)
  | array (len : Expr) (elem : TypeExpr)
  | map (key value : TypeExpr)
  | pointer (elem : TypeExpr)
  | func (sig : Sig)
  | struct (fields : List FieldDecl)
  | interface (methods : List MethodSpec)

/-- Parameters and results.  The last parameter of a variadic signature is written with the
element type of the slice it stands for. -/
inductive Sig where
  | mk (params results : List Param) (variadic : Bool)

/-- A parameter or result, with or without a name. -/
inductive Param where
  | mk (name : Option Name) (type : TypeExpr)

/-- A struct field. -/
inductive FieldDecl where
  | mk (name : Name) (type : TypeExpr) (embedded : Bool)

/-- An interface method. -/
inductive MethodSpec where
  | mk (name : Name) (sig : Sig)

/-- A statement with its span. -/
inductive Stmt where
  | node (span : Span) (kind : StmtKind)

/-- Forms of statements. -/
inductive StmtKind where
  | expr (e : Expr)
  | assign (lhs rhs : List Expr)
  | opAssign (op : BinaryOp) (lhs rhs : Expr)
  | define (names : List Name) (values : List Expr)
  | var (spec : ValueSpec)
  | incDec (target : Expr) (increment : Bool)
  | cond (test : Expr) (body : Block) (otherwise : Option Stmt)
  | loop (init : Option Stmt) (test : Option Expr) (post : Option Stmt) (body : Block)
  | break
  | continue
  | return (values : List Expr)
  | block (body : Block)

/-- One line of a constant or variable declaration. -/
inductive ValueSpec where
  | mk (names : List Name) (type : Option TypeExpr) (values : List Expr) (span : Span)

/-- A list of statements in braces. -/
inductive Block where
  | mk (stmts : List Stmt) (span : Span)

end

/-- The span of an expression. -/
def Expr.span : Expr → Span
  | .node span _ => span

/-- The form of an expression. -/
def Expr.kind : Expr → ExprKind
  | .node _ kind => kind

/-- The span of a type expression. -/
def TypeExpr.span : TypeExpr → Span
  | .node span _ => span

/-- The form of a type expression. -/
def TypeExpr.kind : TypeExpr → TypeKind
  | .node _ kind => kind

/-- The form of a statement. -/
def Stmt.kind : Stmt → StmtKind
  | .node _ kind => kind

/-- The statements of a block. -/
def Block.stmts : Block → List Stmt
  | .mk stmts _ => stmts

namespace Sig

/-- Parameters, the receiver not among them. -/
def params : Sig → List Param
  | .mk params _ _ => params

/-- Results. -/
def results : Sig → List Param
  | .mk _ results _ => results

/-- The last parameter collects the remaining arguments. -/
def variadic : Sig → Bool
  | .mk _ _ variadic => variadic

end Sig

/-- Name of a parameter, if it has one. -/
def Param.name : Param → Option Name
  | .mk name _ => name

/-- Type of a parameter as written. -/
def Param.type : Param → TypeExpr
  | .mk _ type => type

namespace ValueSpec

/-- Declared names. -/
def names : ValueSpec → List Name
  | .mk names _ _ _ => names

/-- Declared type, if any. -/
def type : ValueSpec → Option TypeExpr
  | .mk _ type _ _ => type

/-- Initializers. -/
def values : ValueSpec → List Expr
  | .mk _ _ values _ => values

/-- Span of the line. -/
def span : ValueSpec → Span
  | .mk _ _ _ span => span

end ValueSpec

/-- A type declaration; an alias gives a second name to a type, other declarations make a new
one. -/
structure TypeSpec where
  name : Name
  type : TypeExpr
  isAlias : Bool
  span : Span

/-- A function, method or macro; without a body it is provided from outside. -/
structure FuncDecl where
  name : Name
  recv : Option Param
  sig : Sig
  body : Option Block
  span : Span

/-- An import of a package by its path, under the last part of the path or a
local name. -/
structure ImportSpec where
  path : String
  localName : Option Name
  span : Span

/-- A top-level item. -/
inductive Item where
  | const (specs : List ValueSpec)
  | var (specs : List ValueSpec)
  | type (spec : TypeSpec)
  | func (decl : FuncDecl)
  | macroDecl (decl : FuncDecl)
  | importDecl (spec : ImportSpec)

/-- The span of an item; a block of constants or variables covers its lines. -/
def Item.span : Item → Span
  | .const specs | .var specs => Span.mergeAll (specs.map ValueSpec.span)
  | .type spec => spec.span
  | .func decl | .macroDecl decl => decl.span
  | .importDecl spec => spec.span

end ScriptCore
