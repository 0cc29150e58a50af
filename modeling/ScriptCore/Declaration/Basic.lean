import ScriptCore.Declaration.Uses

/-!
# Declarations

A declaration is one named top-level entity together with its syntax: an import, a type, a
function, method or macro, a constant or a variable.  Several names of one line share the line; a
call with several results may bind several variables at once.
-/

namespace ScriptCore

/-- Kinds of declarations.  A forward declaration stands for a type before its definition. -/
inductive DeclKind where
  | const | func | importDecl | macroDecl | method | type | typeForward | var
deriving Repr, DecidableEq

namespace DeclKind

/-- Name of a kind. -/
def text : DeclKind → String
  | const => "Const" | func => "Func" | importDecl => "Import" | macroDecl => "Macro"
  | method => "Method" | type => "Type" | typeForward => "TypeFwd" | var => "Var"

/-- Kinds that hold an initializer. -/
def isValue : DeclKind → Bool
  | const | var => true
  | _ => false

end DeclKind

/-- Syntax of a declaration. -/
inductive DeclNode where
  | importSpec (spec : ImportSpec)
  | type (spec : TypeSpec)
  | func (decl : FuncDecl)
  | value (spec : ValueSpec)
  | grouped (spec : ValueSpec) (index : Nat)
  | tuple (spec : ValueSpec)
  | forward

/-- Name of a form of syntax. -/
def DeclNode.form : DeclNode → String
  | importSpec _ => "Import" | type _ => "Type" | func _ => "Func" | value _ => "Value"
  | grouped _ _ => "Grouped" | tuple _ => "Tuple" | forward => "Forward"

/-- A named top-level entity.  `iota` is the line number within a constant block, `group` the
block a constant or variable came from, and `seq` the position within the scope. -/
structure Decl where
  kind : DeclKind
  name : Name
  node : DeclNode
  span : Span
  iota : Option Nat
  group : Option Nat
  seq : Nat

namespace Decl

/-- Forward declaration of a type. -/
def forward (d : Decl) : Decl :=
  { d with kind := .typeForward, node := .forward, iota := none, group := none }

/-- Every name the declaration binds. -/
def boundNames (d : Decl) : List Name :=
  match d.node with
  | .tuple spec => spec.names
  | _ => [d.name]

/-- Declared type of a constant or variable. -/
def valueType (d : Decl) : Option TypeExpr :=
  match d.node with
  | .value spec | .grouped spec _ | .tuple spec => spec.type
  | _ => none

/-- Initializer of a constant or variable that has one to itself. -/
def value (d : Decl) : Option Expr :=
  match d.node with
  | .value spec => spec.values.head?
  | .grouped spec index => spec.values[index]?
  | _ => none

/-- The function, method or macro. -/
def func (d : Decl) : Option FuncDecl :=
  match d.node with
  | .func decl => some decl
  | _ => none

/-- The type declaration. -/
def typeSpec (d : Decl) : Option TypeSpec :=
  match d.node with
  | .type spec => some spec
  | _ => none

/-- The import. -/
def importSpec (d : Decl) : Option ImportSpec :=
  match d.node with
  | .importSpec spec => some spec
  | _ => none

/-- What the declaration uses; of a line with several initializers only its own. -/
def uses (d : Decl) : List Use :=
  match d.node with
  | .importSpec _ | .forward => []
  | .type spec => spec.type.uses []
  | .func decl => decl.uses
  | .value spec | .tuple spec => spec.uses []
  | .grouped spec index => usesOfType? [] spec.type ++ usesOfExpr? [] spec.values[index]?

/-- Names the declaration refers to, in first-use order. -/
def deps (d : Decl) : List Name :=
  namesOf d.uses

/-- Names the declaration selects, in first-use order. -/
def methodDeps (d : Decl) : List Name :=
  methodsOf d.uses

end Decl

end ScriptCore
