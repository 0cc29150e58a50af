import ScriptCore.Declaration.Basic

/-!
# Free occurrences

A name occurs free in a piece of syntax if it stands there for something that is declared outside of
it.  A statement declares names for the statements after it, parameters and results are declared in
the body of their function, and the first clause of a loop declares names for the rest of the loop.
A bare identifier that is the key of an element is a field name, unless the literal is written with
the type of a map, slice or array.

What a declaration is said to use occurs free in it.

Main statement: `Decl.free_of_mem_deps`.
-/

namespace ScriptCore

/-! ### Declared names -/

mutual

/-- Names that a statement declares for those after it. -/
def Stmt.declares : Stmt → List Name
  | .node _ kind => kind.declares

/-- Names that a form of statement declares for those after it. -/
def StmtKind.declares : StmtKind → List Name
  | .define names _ => names
  | .var spec => spec.names
  | .cond _ _ otherwise => declaresOf? otherwise
  | _ => []

/-- Names that an optional statement declares for those after it. -/
def declaresOf? : Option Stmt → List Name
  | none => []
  | some s => s.declares

end

mutual

/-- After a statement its names are bound. -/
theorem Stmt.uses_snd : ∀ (s : Stmt) (bound : List Name), (s.uses bound).2 = s.declares ++ bound
  | .node _ kind, bound => by
      rw [Stmt.uses, Stmt.declares]
      exact kind.uses_snd bound

/-- After a form of statement its names are bound. -/
theorem StmtKind.uses_snd : ∀ (kind : StmtKind) (bound : List Name),
    (kind.uses bound).2 = kind.declares ++ bound
  | .cond test body otherwise, bound => by
      rw [StmtKind.uses, StmtKind.declares]
      exact usesOfStmt?_snd otherwise bound
  | .define _ _, _ | .var _, _ => by rw [StmtKind.uses, StmtKind.declares]
  | .expr _, _ | .assign _ _, _ | .opAssign _ _ _, _ | .incDec _ _, _ | .loop _ _ _ _, _
  | .break, _ | .continue, _ | .return _, _ | .block _, _ => by
      simp only [StmtKind.uses, StmtKind.declares, List.nil_append]

/-- After an optional statement its names are bound. -/
theorem usesOfStmt?_snd : ∀ (s : Option Stmt) (bound : List Name),
    (usesOfStmt? bound s).2 = declaresOf? s ++ bound
  | none, bound => by rw [usesOfStmt?, declaresOf?, List.nil_append]
  | some s, bound => by
      rw [usesOfStmt?, declaresOf?]
      exact s.uses_snd bound

end

/-! ### Free occurrences -/

section Free

variable (n : Name)

mutual

/-- The name occurs free in an expression. -/
def Expr.Free : Expr → Prop
  | .node _ kind => kind.Free

/-- The name occurs free in a form of expression. -/
def ExprKind.Free : ExprKind → Prop
  | .ident m => m = n
  | .nil | .bool _ | .int _ | .float _ | .imag _ | .str _ => False
  | .unary _ e | .paren e => e.Free
  | .binary _ a b | .index a b => a.Free ∨ b.Free
  | .call f args => f.Free ∨ FreeInExprs args
  | .selector base _ => base.Free
  | .composite t elems => t.Free ∨ FreeInElems t.hasExprKeys elems
  | .funcLit sig body => sig.Free ∨ (n ∉ sig.boundNames ∧ body.Free)
  | .type t => t.Free

/-- The name occurs free in one of some expressions. -/
def FreeInExprs : List Expr → Prop
  | [] => False
  | e :: rest => e.Free ∨ FreeInExprs rest

/-- The name occurs free in an optional expression. -/
def FreeInExpr? : Option Expr → Prop
  | none => False
  | some e => e.Free

/-- The name occurs free in an element, in its key only if that is an expression. -/
def Elem.Free (exprKeys : Bool) : Elem → Prop
  | .mk none value => value.Free
  | .mk (some key) value => ((exprKeys || !key.isIdent) = true ∧ key.Free) ∨ value.Free

/-- The name occurs free in one of some elements. -/
def FreeInElems (exprKeys : Bool) : List Elem → Prop
  | [] => False
  | e :: rest => e.Free exprKeys ∨ FreeInElems exprKeys rest

/-- The name occurs free in a type expression. -/
def TypeExpr.Free : TypeExpr → Prop
  | .node _ kind => kind.Free

/-- The name occurs free in an optional type expression. -/
def FreeInType? : Option TypeExpr → Prop
  | none => False
  | some t => t.Free

/-- The name occurs free in a form of type expression. -/
def TypeKind.Free : TypeKind → Prop
  | .named m | .qualified m _ => m = n
  | .slice t | .pointer t => t.Free
  | .array len t => len.Free ∨ t.Free
  | .map k v => k.Free ∨ v.Free
  | .func sig => sig.Free
  | .struct fields => FreeInFields fields
  | .interface methods => FreeInMethods methods

/-- The name occurs free in a signature. -/
def Sig.Free : Sig → Prop
  | .mk params results _ => FreeInParams params ∨ FreeInParams results

/-- The name occurs free in the type of a parameter. -/
def Param.Free : Param → Prop
  | .mk _ t => t.Free

/-- The name occurs free in the type of one of some parameters. -/
def FreeInParams : List Param → Prop
  | [] => False
  | p :: rest => p.Free ∨ FreeInParams rest

/-- The name occurs free in the type of a field. -/
def FieldDecl.Free : FieldDecl → Prop
  | .mk _ t _ => t.Free

/-- The name occurs free in the type of one of some fields. -/
def FreeInFields : List FieldDecl → Prop
  | [] => False
  | f :: rest => f.Free ∨ FreeInFields rest

/-- The name occurs free in the signature of a method. -/
def MethodSpec.Free : MethodSpec → Prop
  | .mk _ sig => sig.Free

/-- The name occurs free in the signature of one of some methods. -/
def FreeInMethods : List MethodSpec → Prop
  | [] => False
  | m :: rest => m.Free ∨ FreeInMethods rest

/-- The name occurs free in a statement. -/
def Stmt.Free : Stmt → Prop
  | .node _ kind => kind.Free

/-- The name occurs free in an optional statement. -/
def FreeInStmt? : Option Stmt → Prop
  | none => False
  | some s => s.Free

/-- The name occurs free in a form of statement.  What the last clause of a loop declares is not
declared in its body. -/
def StmtKind.Free : StmtKind → Prop
  | .expr e | .incDec e _ => e.Free
  | .assign lhs rhs => FreeInExprs lhs ∨ FreeInExprs rhs
  | .opAssign _ l r => l.Free ∨ r.Free
  | .define _ values => FreeInExprs values
  | .var spec => spec.Free
  | .cond test body otherwise => test.Free ∨ body.Free ∨ FreeInStmt? otherwise
  | .loop init test post body =>
    FreeInStmt? init ∨
      (n ∉ declaresOf? init ∧ (FreeInExpr? test ∨ FreeInStmt? post ∨ body.Free))
  | .break | .continue => False
  | .return values => FreeInExprs values
  | .block b => b.Free

/-- The name occurs free in a value line. -/
def ValueSpec.Free : ValueSpec → Prop
  | .mk _ type values _ => FreeInType? type ∨ FreeInExprs values

/-- The name occurs free in a block. -/
def Block.Free : Block → Prop
  | .mk stmts _ => FreeInStmts stmts

/-- The name occurs free in one of some statements and none of those before it declares it. -/
def FreeInStmts : List Stmt → Prop
  | [] => False
  | s :: rest => s.Free ∨ (n ∉ s.declares ∧ FreeInStmts rest)

end

end Free

/-- The name occurs free in a function or method. -/
def FuncDecl.Free (n : Name) (d : FuncDecl) : Prop :=
  (∃ p ∈ d.recv, p.Free n) ∨ d.sig.Free n ∨
    ∃ b ∈ d.body, n ∉ (d.recv.bind Param.name).toList ++ d.sig.boundNames ∧ b.Free n

/-- The name occurs free in a declaration; of a line with several initializers only its own
counts. -/
def Decl.Free (n : Name) (d : Decl) : Prop :=
  match d.node with
  | .importSpec _ | .forward => False
  | .type spec => spec.type.Free n
  | .func decl => decl.Free n
  | .value spec | .tuple spec => spec.Free n
  | .grouped spec index => FreeInType? n spec.type ∨ FreeInExpr? n spec.values[index]?

/-! ### Uses occur free -/

section Uses

variable {n : Name}

/-- A used name is not bound. -/
theorem mem_nameUse {bound : List Name} {m : Name} (h : Use.name n ∈ nameUse bound m) :
    n ∉ bound ∧ m = n := by
  rw [nameUse] at h
  split at h
  · cases h
  · rename_i hbound
    rw [List.mem_singleton] at h
    cases h
    exact ⟨fun hmem => hbound (List.contains_iff_mem.2 hmem), rfl⟩

mutual

/-- Uses of an expression are not bound and occur free in it. -/
theorem Expr.free_of_mem_uses : ∀ (e : Expr) (bound : List Name), .name n ∈ e.uses bound →
    n ∉ bound ∧ e.Free n
  | .node _ kind, bound, h => by
      rw [Expr.uses] at h
      rw [Expr.Free]
      exact kind.free_of_mem_uses bound h

/-- Uses of a form of expression are not bound and occur free in it. -/
theorem ExprKind.free_of_mem_uses : ∀ (kind : ExprKind) (bound : List Name),
    .name n ∈ kind.uses bound → n ∉ bound ∧ kind.Free n
  | .ident m, bound, h => by
      rw [ExprKind.uses] at h
      rw [ExprKind.Free]
      exact mem_nameUse h
  | .nil, _, h | .bool _, _, h | .int _, _, h | .float _, _, h | .imag _, _, h | .str _, _, h => by
      rw [ExprKind.uses] at h
      cases h
  | .unary _ e, bound, h | .paren e, bound, h => by
      rw [ExprKind.uses] at h
      rw [ExprKind.Free]
      exact e.free_of_mem_uses bound h
  | .binary _ a b, bound, h | .index a b, bound, h => by
      rw [ExprKind.uses, List.mem_append] at h
      rw [ExprKind.Free]
      cases h with
      | inl h => exact (a.free_of_mem_uses bound h).imp_right .inl
      | inr h => exact (b.free_of_mem_uses bound h).imp_right .inr
  | .call f args, bound, h => by
      rw [ExprKind.uses, List.mem_append] at h
      rw [ExprKind.Free]
      cases h with
      | inl h => exact (f.free_of_mem_uses bound h).imp_right .inl
      | inr h => exact (free_of_mem_usesOfExprs args bound h).imp_right .inr
  | .selector base field, bound, h => by
      rw [ExprKind.uses, List.mem_append] at h
      rw [ExprKind.Free]
      cases h with
      | inl h => exact base.free_of_mem_uses bound h
      | inr h => exact absurd (List.mem_singleton.1 h) (by intro h; cases h)
  | .composite t elems, bound, h => by
      rw [ExprKind.uses, List.mem_append] at h
      rw [ExprKind.Free]
      cases h with
      | inl h => exact (t.free_of_mem_uses bound h).imp_right .inl
      | inr h => exact (free_of_mem_usesOfElems t.hasExprKeys elems bound h).imp_right .inr
  | .funcLit sig body, bound, h => by
      rw [ExprKind.uses, List.mem_append] at h
      rw [ExprKind.Free]
      cases h with
      | inl h => exact (sig.free_of_mem_uses bound h).imp_right .inl
      | inr h =>
          obtain ⟨hbound, hfree⟩ := body.free_of_mem_uses _ h
          rw [List.mem_append, not_or] at hbound
          exact ⟨hbound.2, .inr ⟨hbound.1, hfree⟩⟩
  | .type t, bound, h => by
      rw [ExprKind.uses] at h
      rw [ExprKind.Free]
      exact t.free_of_mem_uses bound h

/-- Uses of expressions are not bound and occur free in them. -/
theorem free_of_mem_usesOfExprs : ∀ (es : List Expr) (bound : List Name),
    .name n ∈ usesOfExprs bound es → n ∉ bound ∧ FreeInExprs n es
  | [], _, h => by
      rw [usesOfExprs] at h
      cases h
  | e :: rest, bound, h => by
      rw [usesOfExprs, List.mem_append] at h
      rw [FreeInExprs]
      cases h with
      | inl h => exact (e.free_of_mem_uses bound h).imp_right .inl
      | inr h => exact (free_of_mem_usesOfExprs rest bound h).imp_right .inr

/-- Uses of an optional expression are not bound and occur free in it. -/
theorem free_of_mem_usesOfExpr? : ∀ (e : Option Expr) (bound : List Name),
    .name n ∈ usesOfExpr? bound e → n ∉ bound ∧ FreeInExpr? n e
  | none, _, h => by
      rw [usesOfExpr?] at h
      cases h
  | some e, bound, h => by
      rw [usesOfExpr?] at h
      rw [FreeInExpr?]
      exact e.free_of_mem_uses bound h

/-- Uses of an element are not bound and occur free in it. -/
theorem Elem.free_of_mem_uses (exprKeys : Bool) : ∀ (e : Elem) (bound : List Name),
    .name n ∈ e.uses bound exprKeys → n ∉ bound ∧ e.Free n exprKeys
  | .mk none value, bound, h => by
      rw [Elem.uses] at h
      rw [Elem.Free]
      exact value.free_of_mem_uses bound h
  | .mk (some key) value, bound, h => by
      rw [Elem.uses, List.mem_append] at h
      rw [Elem.Free]
      cases h with
      | inl h =>
          split at h
          · rename_i hkey
            exact (key.free_of_mem_uses bound h).imp_right fun hfree => .inl ⟨hkey, hfree⟩
          · cases h
      | inr h => exact (value.free_of_mem_uses bound h).imp_right .inr

/-- Uses of elements are not bound and occur free in them. -/
theorem free_of_mem_usesOfElems (exprKeys : Bool) : ∀ (es : List Elem) (bound : List Name),
    .name n ∈ usesOfElems bound exprKeys es → n ∉ bound ∧ FreeInElems n exprKeys es
  | [], _, h => by
      rw [usesOfElems] at h
      cases h
  | e :: rest, bound, h => by
      rw [usesOfElems, List.mem_append] at h
      rw [FreeInElems]
      cases h with
      | inl h => exact (e.free_of_mem_uses exprKeys bound h).imp_right .inl
      | inr h => exact (free_of_mem_usesOfElems exprKeys rest bound h).imp_right .inr

/-- Uses of a type expression are not bound and occur free in it. -/
theorem TypeExpr.free_of_mem_uses : ∀ (t : TypeExpr) (bound : List Name),
    .name n ∈ t.uses bound → n ∉ bound ∧ t.Free n
  | .node _ kind, bound, h => by
      rw [TypeExpr.uses] at h
      rw [TypeExpr.Free]
      exact kind.free_of_mem_uses bound h

/-- Uses of an optional type expression are not bound and occur free in it. -/
theorem free_of_mem_usesOfType? : ∀ (t : Option TypeExpr) (bound : List Name),
    .name n ∈ usesOfType? bound t → n ∉ bound ∧ FreeInType? n t
  | none, _, h => by
      rw [usesOfType?] at h
      cases h
  | some t, bound, h => by
      rw [usesOfType?] at h
      rw [FreeInType?]
      exact t.free_of_mem_uses bound h

/-- Uses of a form of type expression are not bound and occur free in it. -/
theorem TypeKind.free_of_mem_uses : ∀ (kind : TypeKind) (bound : List Name),
    .name n ∈ kind.uses bound → n ∉ bound ∧ kind.Free n
  | .named m, bound, h | .qualified m _, bound, h => by
      rw [TypeKind.uses] at h
      rw [TypeKind.Free]
      exact mem_nameUse h
  | .slice t, bound, h | .pointer t, bound, h => by
      rw [TypeKind.uses] at h
      rw [TypeKind.Free]
      exact t.free_of_mem_uses bound h
  | .array len t, bound, h => by
      rw [TypeKind.uses, List.mem_append] at h
      rw [TypeKind.Free]
      cases h with
      | inl h => exact (len.free_of_mem_uses bound h).imp_right .inl
      | inr h => exact (t.free_of_mem_uses bound h).imp_right .inr
  | .map k v, bound, h => by
      rw [TypeKind.uses, List.mem_append] at h
      rw [TypeKind.Free]
      cases h with
      | inl h => exact (k.free_of_mem_uses bound h).imp_right .inl
      | inr h => exact (v.free_of_mem_uses bound h).imp_right .inr
  | .func sig, bound, h => by
      rw [TypeKind.uses] at h
      rw [TypeKind.Free]
      exact sig.free_of_mem_uses bound h
  | .struct fields, bound, h => by
      rw [TypeKind.uses] at h
      rw [TypeKind.Free]
      exact free_of_mem_usesOfFields fields bound h
  | .interface methods, bound, h => by
      rw [TypeKind.uses] at h
      rw [TypeKind.Free]
      exact free_of_mem_usesOfMethods methods bound h

/-- Uses of a signature are not bound and occur free in it. -/
theorem Sig.free_of_mem_uses : ∀ (sig : Sig) (bound : List Name),
    .name n ∈ sig.uses bound → n ∉ bound ∧ sig.Free n
  | .mk params results _, bound, h => by
      rw [Sig.uses, List.mem_append] at h
      rw [Sig.Free]
      cases h with
      | inl h => exact (free_of_mem_usesOfParams params bound h).imp_right .inl
      | inr h => exact (free_of_mem_usesOfParams results bound h).imp_right .inr

/-- Uses of a parameter are not bound and occur free in it. -/
theorem Param.free_of_mem_uses : ∀ (p : Param) (bound : List Name),
    .name n ∈ p.uses bound → n ∉ bound ∧ p.Free n
  | .mk _ t, bound, h => by
      rw [Param.uses] at h
      rw [Param.Free]
      exact t.free_of_mem_uses bound h

/-- Uses of parameters are not bound and occur free in them. -/
theorem free_of_mem_usesOfParams : ∀ (ps : List Param) (bound : List Name),
    .name n ∈ usesOfParams bound ps → n ∉ bound ∧ FreeInParams n ps
  | [], _, h => by
      rw [usesOfParams] at h
      cases h
  | p :: rest, bound, h => by
      rw [usesOfParams, List.mem_append] at h
      rw [FreeInParams]
      cases h with
      | inl h => exact (p.free_of_mem_uses bound h).imp_right .inl
      | inr h => exact (free_of_mem_usesOfParams rest bound h).imp_right .inr

/-- Uses of a field are not bound and occur free in it. -/
theorem FieldDecl.free_of_mem_uses : ∀ (f : FieldDecl) (bound : List Name),
    .name n ∈ f.uses bound → n ∉ bound ∧ f.Free n
  | .mk _ t _, bound, h => by
      rw [FieldDecl.uses] at h
      rw [FieldDecl.Free]
      exact t.free_of_mem_uses bound h

/-- Uses of fields are not bound and occur free in them. -/
theorem free_of_mem_usesOfFields : ∀ (fs : List FieldDecl) (bound : List Name),
    .name n ∈ usesOfFields bound fs → n ∉ bound ∧ FreeInFields n fs
  | [], _, h => by
      rw [usesOfFields] at h
      cases h
  | f :: rest, bound, h => by
      rw [usesOfFields, List.mem_append] at h
      rw [FreeInFields]
      cases h with
      | inl h => exact (f.free_of_mem_uses bound h).imp_right .inl
      | inr h => exact (free_of_mem_usesOfFields rest bound h).imp_right .inr

/-- Uses of a method are not bound and occur free in it. -/
theorem MethodSpec.free_of_mem_uses : ∀ (m : MethodSpec) (bound : List Name),
    .name n ∈ m.uses bound → n ∉ bound ∧ m.Free n
  | .mk _ sig, bound, h => by
      rw [MethodSpec.uses] at h
      rw [MethodSpec.Free]
      exact sig.free_of_mem_uses bound h

/-- Uses of methods are not bound and occur free in them. -/
theorem free_of_mem_usesOfMethods : ∀ (ms : List MethodSpec) (bound : List Name),
    .name n ∈ usesOfMethods bound ms → n ∉ bound ∧ FreeInMethods n ms
  | [], _, h => by
      rw [usesOfMethods] at h
      cases h
  | m :: rest, bound, h => by
      rw [usesOfMethods, List.mem_append] at h
      rw [FreeInMethods]
      cases h with
      | inl h => exact (m.free_of_mem_uses bound h).imp_right .inl
      | inr h => exact (free_of_mem_usesOfMethods rest bound h).imp_right .inr

/-- Uses of a statement are not bound and occur free in it. -/
theorem Stmt.free_of_mem_uses : ∀ (s : Stmt) (bound : List Name),
    .name n ∈ (s.uses bound).1 → n ∉ bound ∧ s.Free n
  | .node _ kind, bound, h => by
      rw [Stmt.uses] at h
      rw [Stmt.Free]
      exact kind.free_of_mem_uses bound h

/-- Uses of an optional statement are not bound and occur free in it. -/
theorem free_of_mem_usesOfStmt? : ∀ (s : Option Stmt) (bound : List Name),
    .name n ∈ (usesOfStmt? bound s).1 → n ∉ bound ∧ FreeInStmt? n s
  | none, _, h => by
      rw [usesOfStmt?] at h
      cases h
  | some s, bound, h => by
      rw [usesOfStmt?] at h
      rw [FreeInStmt?]
      exact s.free_of_mem_uses bound h

/-- Uses of a form of statement are not bound and occur free in it. -/
theorem StmtKind.free_of_mem_uses : ∀ (kind : StmtKind) (bound : List Name),
    .name n ∈ (kind.uses bound).1 → n ∉ bound ∧ kind.Free n
  | .expr e, bound, h | .incDec e _, bound, h => by
      rw [StmtKind.uses] at h
      rw [StmtKind.Free]
      exact e.free_of_mem_uses bound h
  | .assign lhs rhs, bound, h => by
      rw [StmtKind.uses] at h
      rw [StmtKind.Free]
      cases List.mem_append.1 h with
      | inl h => exact (free_of_mem_usesOfExprs lhs bound h).imp_right .inl
      | inr h => exact (free_of_mem_usesOfExprs rhs bound h).imp_right .inr
  | .opAssign _ l r, bound, h => by
      rw [StmtKind.uses] at h
      rw [StmtKind.Free]
      cases List.mem_append.1 h with
      | inl h => exact (l.free_of_mem_uses bound h).imp_right .inl
      | inr h => exact (r.free_of_mem_uses bound h).imp_right .inr
  | .define _ values, bound, h | .return values, bound, h => by
      rw [StmtKind.uses] at h
      rw [StmtKind.Free]
      exact free_of_mem_usesOfExprs values bound h
  | .var spec, bound, h => by
      rw [StmtKind.uses] at h
      rw [StmtKind.Free]
      exact spec.free_of_mem_uses bound h
  | .cond test body otherwise, bound, h => by
      rw [StmtKind.uses] at h
      rw [StmtKind.Free]
      rcases List.mem_append.1 h with h | h
      · rcases List.mem_append.1 h with h | h
        · exact (test.free_of_mem_uses bound h).imp_right .inl
        · exact (body.free_of_mem_uses bound h).imp_right fun h => .inr (.inl h)
      · exact (free_of_mem_usesOfStmt? otherwise bound h).imp_right fun h => .inr (.inr h)
  | .loop init test post body, bound, h => by
      rw [StmtKind.uses] at h
      rw [StmtKind.Free]
      have hafter (more : List Name) {rest : Prop}
          (h : n ∉ more ++ (declaresOf? init ++ bound) ∧ rest) :
          n ∉ bound ∧ n ∉ declaresOf? init ∧ rest := by
        simp only [List.mem_append, not_or] at h
        exact ⟨h.1.2.2, h.1.2.1, h.2⟩
      simp only [usesOfStmt?_snd] at h
      rcases List.mem_append.1 h with h | h
      · rcases List.mem_append.1 h with h | h
        · rcases List.mem_append.1 h with h | h
          · exact (free_of_mem_usesOfStmt? init bound h).imp_right .inl
          · obtain ⟨hbound, hinit, hfree⟩ := hafter [] (free_of_mem_usesOfExpr? test _ h)
            exact ⟨hbound, .inr ⟨hinit, .inl hfree⟩⟩
        · obtain ⟨hbound, hinit, hfree⟩ := hafter [] (free_of_mem_usesOfStmt? post _ h)
          exact ⟨hbound, .inr ⟨hinit, .inr (.inl hfree)⟩⟩
      · obtain ⟨hbound, hinit, hfree⟩ := hafter _ (body.free_of_mem_uses _ h)
        exact ⟨hbound, .inr ⟨hinit, .inr (.inr hfree)⟩⟩
  | .break, _, h | .continue, _, h => by
      rw [StmtKind.uses] at h
      cases h
  | .block b, bound, h => by
      rw [StmtKind.uses] at h
      rw [StmtKind.Free]
      exact b.free_of_mem_uses bound h

/-- Uses of a value line are not bound and occur free in it. -/
theorem ValueSpec.free_of_mem_uses : ∀ (spec : ValueSpec) (bound : List Name),
    .name n ∈ spec.uses bound → n ∉ bound ∧ spec.Free n
  | .mk _ type values _, bound, h => by
      rw [ValueSpec.uses, List.mem_append] at h
      rw [ValueSpec.Free]
      cases h with
      | inl h => exact (free_of_mem_usesOfType? type bound h).imp_right .inl
      | inr h => exact (free_of_mem_usesOfExprs values bound h).imp_right .inr

/-- Uses of a block are not bound and occur free in it. -/
theorem Block.free_of_mem_uses : ∀ (b : Block) (bound : List Name),
    .name n ∈ b.uses bound → n ∉ bound ∧ b.Free n
  | .mk stmts _, bound, h => by
      rw [Block.uses] at h
      rw [Block.Free]
      exact free_of_mem_usesOfStmts stmts bound h

/-- Uses of statements are not bound and occur free in them. -/
theorem free_of_mem_usesOfStmts : ∀ (stmts : List Stmt) (bound : List Name),
    .name n ∈ usesOfStmts bound stmts → n ∉ bound ∧ FreeInStmts n stmts
  | [], _, h => by
      rw [usesOfStmts] at h
      cases h
  | s :: rest, bound, h => by
      rw [usesOfStmts, List.mem_append, s.uses_snd] at h
      rw [FreeInStmts]
      cases h with
      | inl h => exact (s.free_of_mem_uses bound h).imp_right .inl
      | inr h =>
          obtain ⟨hbound, hfree⟩ := free_of_mem_usesOfStmts rest _ h
          rw [List.mem_append, not_or] at hbound
          exact ⟨hbound.2, .inr ⟨hbound.1, hfree⟩⟩

end

/-- Uses of a function occur free in it. -/
theorem FuncDecl.free_of_mem_uses {d : FuncDecl} (h : .name n ∈ d.uses) : d.Free n := by
  rw [FuncDecl.uses] at h
  rw [FuncDecl.Free]
  rcases List.mem_append.1 h with h | h
  · rcases List.mem_append.1 h with h | h
    · cases hrecv : d.recv with
      | none =>
          rw [hrecv] at h
          cases h
      | some p =>
          rw [hrecv] at h
          exact .inl ⟨p, rfl, (p.free_of_mem_uses [] h).2⟩
    · exact .inr (.inl (d.sig.free_of_mem_uses [] h).2)
  · cases hbody : d.body with
    | none =>
        rw [hbody] at h
        cases h
    | some b =>
        rw [hbody] at h
        exact .inr (.inr ⟨b, rfl, b.free_of_mem_uses _ h⟩)

/-- The names among some uses. -/
theorem mem_namesOf {uses : List Use} : n ∈ namesOf uses ↔ .name n ∈ uses := by
  rw [namesOf, List.mem_eraseDups, List.mem_filterMap]
  constructor
  · rintro ⟨u, hu, hn⟩
    cases u with
    | name m => exact Option.some.inj hn ▸ hu
    | method m => cases hn
  · exact fun h => ⟨_, h, rfl⟩

/-- The methods among some uses. -/
theorem mem_methodsOf {uses : List Use} : n ∈ methodsOf uses ↔ .method n ∈ uses := by
  rw [methodsOf, List.mem_eraseDups, List.mem_filterMap]
  constructor
  · rintro ⟨u, hu, hn⟩
    cases u with
    | method m => exact Option.some.inj hn ▸ hu
    | name m => cases hn
  · exact fun h => ⟨_, h, rfl⟩

/-- **A name that a declaration depends on occurs free in it.** -/
theorem Decl.free_of_mem_deps {d : Decl} (h : n ∈ d.deps) : d.Free n := by
  rw [Decl.deps, mem_namesOf, Decl.uses] at h
  rw [Decl.Free]
  cases hnode : d.node with
  | importSpec _ | forward =>
      rw [hnode] at h
      cases h
  | type spec =>
      rw [hnode] at h
      exact (spec.type.free_of_mem_uses [] h).2
  | func decl =>
      rw [hnode] at h
      exact decl.free_of_mem_uses h
  | value spec | tuple spec =>
      rw [hnode] at h
      exact (spec.free_of_mem_uses [] h).2
  | grouped spec index =>
      rw [hnode] at h
      cases List.mem_append.1 h with
      | inl h => exact .inl (free_of_mem_usesOfType? _ [] h).2
      | inr h => exact .inr (free_of_mem_usesOfExpr? _ [] h).2

end Uses

end ScriptCore
