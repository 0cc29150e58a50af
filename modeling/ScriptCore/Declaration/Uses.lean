import ScriptCore.Syntax.Tree

/-!
# What a declaration uses

The names a piece of syntax mentions outside the scope of a local binding, and the names it selects
with a dot, in the order in which they are met.  Parameters, results and receivers bind in the body
of their function, `:=` and local `var` from the following statement to the end of their block, and
the clauses of a loop to its end.

Main statement: `nameUse_bound`, a bound name is not a use.
-/

namespace ScriptCore

/-- One mention: a free name, or a selected field, method or package member. -/
inductive Use where
  | name (n : Name)
  | method (n : Name)
deriving Repr, DecidableEq

/-- A mention of a name where `bound` are the local names in scope. -/
def nameUse (bound : List Name) (n : Name) : List Use :=
  if bound.contains n then [] else [.name n]

/-- A bound name is not a use. -/
theorem nameUse_bound {bound : List Name} {n : Name} (h : n ∈ bound) : nameUse bound n = [] := by
  simp [nameUse, h]

/-- Names of parameters and results. -/
def Sig.boundNames (s : Sig) : List Name :=
  s.params.filterMap Param.name ++ s.results.filterMap Param.name

/-- A composite literal of this type has expressions for keys even where they are identifiers. -/
def TypeExpr.hasExprKeys : TypeExpr → Bool
  | .node _ (.map _ _) | .node _ (.slice _) | .node _ (.array _ _) => true
  | _ => false

/-- The key is a bare identifier. -/
def Expr.isIdent : Expr → Bool
  | .node _ (.ident _) => true
  | _ => false

mutual

/-- Uses of an expression. -/
def Expr.uses (bound : List Name) : Expr → List Use
  | .node _ kind => kind.uses bound

/-- Uses of a form of expression. -/
def ExprKind.uses (bound : List Name) : ExprKind → List Use
  | .ident n => nameUse bound n
  | .nil | .bool _ | .int _ | .float _ | .imag _ | .str _ => []
  | .unary _ e | .paren e => e.uses bound
  | .binary _ a b | .index a b => a.uses bound ++ b.uses bound
  | .call f args => f.uses bound ++ usesOfExprs bound args
  | .selector base field => base.uses bound ++ [.method field]
  | .composite t elems => t.uses bound ++ usesOfElems bound t.hasExprKeys elems
  | .funcLit sig body => sig.uses bound ++ body.uses (sig.boundNames ++ bound)
  | .type t => t.uses bound

/-- Uses of expressions from left to right. -/
def usesOfExprs (bound : List Name) : List Expr → List Use
  | [] => []
  | e :: rest => e.uses bound ++ usesOfExprs bound rest

/-- Uses of an optional expression. -/
def usesOfExpr? (bound : List Name) : Option Expr → List Use
  | none => []
  | some e => e.uses bound

/-- Uses of an element; an identifier key is a field name unless keys are expressions. -/
def Elem.uses (bound : List Name) (exprKeys : Bool) : Elem → List Use
  | .mk none value => value.uses bound
  | .mk (some key) value =>
    (if exprKeys || !key.isIdent then key.uses bound else []) ++ value.uses bound

/-- Uses of elements from left to right. -/
def usesOfElems (bound : List Name) (exprKeys : Bool) : List Elem → List Use
  | [] => []
  | e :: rest => e.uses bound exprKeys ++ usesOfElems bound exprKeys rest

/-- Uses of a type expression. -/
def TypeExpr.uses (bound : List Name) : TypeExpr → List Use
  | .node _ kind => kind.uses bound

/-- Uses of an optional type expression. -/
def usesOfType? (bound : List Name) : Option TypeExpr → List Use
  | none => []
  | some t => t.uses bound

/-- Uses of a form of type expression. -/
def TypeKind.uses (bound : List Name) : TypeKind → List Use
  | .named n => nameUse bound n
  | .qualified package _ => nameUse bound package
  | .slice t | .pointer t => t.uses bound
  | .array len t => len.uses bound ++ t.uses bound
  | .map k v => k.uses bound ++ v.uses bound
  | .func sig => sig.uses bound
  | .struct fields => usesOfFields bound fields
  | .interface methods => usesOfMethods bound methods

/-- Uses of a signature's types. -/
def Sig.uses (bound : List Name) : Sig → List Use
  | .mk params results _ => usesOfParams bound params ++ usesOfParams bound results

/-- Uses of a parameter's type. -/
def Param.uses (bound : List Name) : Param → List Use
  | .mk _ t => t.uses bound

/-- Uses of parameters from left to right. -/
def usesOfParams (bound : List Name) : List Param → List Use
  | [] => []
  | p :: rest => p.uses bound ++ usesOfParams bound rest

/-- Uses of a field's type. -/
def FieldDecl.uses (bound : List Name) : FieldDecl → List Use
  | .mk _ t _ => t.uses bound

/-- Uses of fields from left to right. -/
def usesOfFields (bound : List Name) : List FieldDecl → List Use
  | [] => []
  | f :: rest => f.uses bound ++ usesOfFields bound rest

/-- Uses of a method's signature. -/
def MethodSpec.uses (bound : List Name) : MethodSpec → List Use
  | .mk _ sig => sig.uses bound

/-- Uses of methods from left to right. -/
def usesOfMethods (bound : List Name) : List MethodSpec → List Use
  | [] => []
  | m :: rest => m.uses bound ++ usesOfMethods bound rest

/-- Uses of a statement, and the local names in scope after it. -/
def Stmt.uses (bound : List Name) : Stmt → List Use × List Name
  | .node _ kind => kind.uses bound

/-- Uses of an optional statement, and the local names in scope after it. -/
def usesOfStmt? (bound : List Name) : Option Stmt → List Use × List Name
  | none => ([], bound)
  | some s => s.uses bound

/-- Uses of a form of statement, and the local names in scope after it. -/
def StmtKind.uses (bound : List Name) : StmtKind → List Use × List Name
  | .expr e | .incDec e _ => (e.uses bound, bound)
  | .assign lhs rhs => (usesOfExprs bound lhs ++ usesOfExprs bound rhs, bound)
  | .opAssign _ l r => (l.uses bound ++ r.uses bound, bound)
  | .define names values => (usesOfExprs bound values, names ++ bound)
  | .var spec => (spec.uses bound, spec.names ++ bound)
  | .cond test body els =>
    let after := usesOfStmt? bound els
    (test.uses bound ++ body.uses bound ++ after.1, after.2)
  | .loop init test post body =>
    let first := usesOfStmt? bound init
    let last := usesOfStmt? first.2 post
    (first.1 ++ usesOfExpr? first.2 test ++ last.1 ++ body.uses last.2, bound)
  | .break | .continue => ([], bound)
  | .return values => (usesOfExprs bound values, bound)
  | .block b => (b.uses bound, bound)

/-- Uses of a value line: its type, then its values. -/
def ValueSpec.uses (bound : List Name) : ValueSpec → List Use
  | .mk _ type values _ => usesOfType? bound type ++ usesOfExprs bound values

/-- Uses of a block, whose bindings end with it. -/
def Block.uses (bound : List Name) : Block → List Use
  | .mk stmts _ => usesOfStmts bound stmts

/-- Uses of statements in order, each in the scope the ones before it leave. -/
def usesOfStmts (bound : List Name) : List Stmt → List Use
  | [] => []
  | s :: rest =>
    let first := s.uses bound
    first.1 ++ usesOfStmts first.2 rest

end

/-- Uses of a function: the types of its receiver and signature, then its body, in which the
receiver, parameters and results are bound. -/
def FuncDecl.uses (d : FuncDecl) : List Use :=
  (match d.recv with | none => [] | some p => p.uses []) ++ d.sig.uses [] ++
  (match d.body with
    | none => []
    | some b => b.uses ((d.recv.bind Param.name).toList ++ d.sig.boundNames))

/-- The names among some uses, each where it is first met. -/
def namesOf (uses : List Use) : List Name :=
  (uses.filterMap fun | .name n => some n | .method _ => none).eraseDups

/-- The selected names among some uses, each where it is first met. -/
def methodsOf (uses : List Use) : List Name :=
  (uses.filterMap fun | .method n => some n | .name _ => none).eraseDups

end ScriptCore
