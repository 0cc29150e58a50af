import ScriptCore.Proofs.Syntax.Building
import ScriptCore.Syntax.Numbering

/-!
# Numbered trees

Numbering builds a tree again, children before their parents: each node that it makes gets the next
free position and refers to nodes made before.  It uses every node once, and it counts the nodes of
the three families.

A step of the numbering is given nodes that wait to be used, and gives nodes that wait.  All other
nodes that it makes or is given are used by what it makes (`Makes`).  This is kept by sequences, and
a new node takes its children from those that wait and waits in their place.

Main statement: `walks_meet_once`.
-/

namespace ScriptCore

/-- The numbering has made and counted the nodes. -/
structure Numbering.Holds (s : Numbering) (nodes : List Node) : Prop where
  built : Built s.next nodes
  exprs : s.exprs = nodes.countP Node.isExpr
  stmts : s.stmts = nodes.countP Node.isStmt
  types : s.types = nodes.countP Node.isType

open ScriptCore.Numbering List

/-- One more node is made and counted. -/
theorem Numbering.Holds.node {s : Numbering} {nodes : List Node} (h : Holds s nodes) (n : Node)
    (hspan : n.span = ⟨s.next, s.next + 1⟩) (hchildren : ∀ c ∈ n.children, c ∈ nodes) :
    Holds ⟨s.next + 1, s.exprs + [n].countP Node.isExpr, s.stmts + [n].countP Node.isStmt,
      s.types + [n].countP Node.isType⟩ (nodes ++ [n]) where
  built := .node n h.built hspan hchildren
  exprs := by rw [countP_append, h.exprs]
  stmts := by rw [countP_append, h.stmts]
  types := by rw [countP_append, h.types]

/-- A step of the numbering, given nodes that wait to be used, makes more nodes: those that wait
then and the children of the new nodes are the nodes that waited and the new nodes. -/
def Makes {α : Type} (waiting : List Node) (step : Numbered α) (roots : α → List Node) : Prop :=
  ∀ s nodes, Holds s nodes → (∀ n ∈ waiting, n ∈ nodes) →
    ∃ more, Holds (step s).2 (nodes ++ more) ∧
      (roots (step s).1 ++ more.flatMap Node.children).Perm (waiting ++ more)

namespace Makes

variable {α β : Type} {waiting : List Node} {step : Numbered α} {roots : α → List Node}

/-- Two lists after another change places. -/
theorem append_right_comm (a b c : List Node) : a ++ b ++ c ~ a ++ c ++ b := by
  rw [List.append_assoc, List.append_assoc]
  exact List.perm_append_comm.append_left a

/-- A new node waits in place of its children. -/
theorem new_perm (n : Node) : [n] ++ [n].flatMap Node.children ~ n.children ++ [n] := by
  rw [flatMap_singleton]
  exact perm_append_comm

/-- Nodes that wait after a step have been made. -/
theorem mem {a : α} {nodes more : List Node} (hwaiting : ∀ n ∈ waiting, n ∈ nodes)
    (h : (roots a ++ more.flatMap Node.children).Perm (waiting ++ more)) :
    ∀ n ∈ roots a, n ∈ nodes ++ more := by
  intro n hn
  rcases List.mem_append.1 (h.mem_iff.1 (List.mem_append_left _ hn)) with hn | hn
  · exact List.mem_append_left _ (hwaiting n hn)
  · exact List.mem_append_right _ hn

/-- Nothing is made. -/
theorem pure {a : α} (h : roots a = waiting) : Makes waiting (Pure.pure a) roots := by
  intro s nodes hs _
  refine ⟨[], by rwa [List.append_nil], ?_⟩
  change (roots a ++ []).Perm (waiting ++ [])
  rw [h]

/-- One step after the other. -/
theorem bind {f : α → Numbered β} {tops : β → List Node} (h : Makes waiting step roots)
    (hf : ∀ a, Makes (roots a) (f a) tops) : Makes waiting (step >>= f) tops := by
  intro s nodes hs hwaiting
  obtain ⟨more, hs', hperm⟩ := h s nodes hs hwaiting
  obtain ⟨rest, hs'', hperm'⟩ := hf (step s).1 (step s).2 _ hs' (mem hwaiting hperm)
  refine ⟨more ++ rest, ?_, ?_⟩
  · rw [← List.append_assoc]
    exact hs''
  · -- the children of the nodes that the first step made are carried along
    change (tops (f (step s).1 (step s).2).1 ++ (more ++ rest).flatMap Node.children).Perm _
    rw [List.flatMap_append, ← List.append_assoc waiting, ← List.append_assoc]
    calc _
      _ ~ tops (f (step s).1 (step s).2).1 ++ rest.flatMap Node.children ++
            more.flatMap Node.children := append_right_comm ..
      _ ~ roots (step s).1 ++ rest ++ more.flatMap Node.children := hperm'.append_right _
      _ ~ roots (step s).1 ++ more.flatMap Node.children ++ rest := append_right_comm ..
      _ ~ waiting ++ more ++ rest := hperm.append_right rest

/-- Nodes that a step is not given wait on. -/
theorem frame (h : Makes [] step roots) (waiting : List Node) :
    Makes waiting step fun a => waiting ++ roots a := by
  intro s nodes hs _
  obtain ⟨more, hs', hperm⟩ := h s nodes hs fun n hn => absurd hn not_mem_nil
  refine ⟨more, hs', ?_⟩
  rw [append_assoc]
  exact hperm.append_left waiting

/-- A step that needs nothing, and what comes then. -/
theorem andThen {f : α → Numbered β} {tops : β → List Node} (h : Makes [] step roots)
    (hf : ∀ a, Makes (waiting ++ roots a) (f a) tops) : Makes waiting (step >>= f) tops :=
  (h.frame waiting).bind hf

/-- A position for something that is no node. -/
theorem place : Makes waiting Numbering.place fun _ => waiting := by
  intro s nodes hs _
  refine ⟨[], ⟨?_, ?_, ?_, ?_⟩, by rw [flatMap_nil]⟩ <;> rw [append_nil]
  · exact .place hs.built
  · exact hs.exprs
  · exact hs.stmts
  · exact hs.types

/-- A new expression takes its children from those that wait, and waits in their place. -/
theorem expr (kind : ExprKind) :
    Makes kind.children (do return Expr.node (← placeExpr) kind) fun e => [.expr e] :=
  fun s _ hs hchildren =>
    let new : Node := .expr (.node ⟨s.next, s.next + 1⟩ kind)
    ⟨[new], hs.node new rfl hchildren, new_perm new⟩

/-- So does a new statement. -/
theorem stmt (kind : StmtKind) :
    Makes kind.children (do return Stmt.node (← placeStmt) kind) fun s => [.stmt s] :=
  fun s _ hs hchildren =>
    let new : Node := .stmt (.node ⟨s.next, s.next + 1⟩ kind)
    ⟨[new], hs.node new rfl hchildren, new_perm new⟩

/-- So does a new type expression. -/
theorem type (kind : TypeKind) :
    Makes kind.children (do return TypeExpr.node (← placeType) kind) fun t => [.type t] :=
  fun s _ hs hchildren =>
    let new : Node := .type (.node ⟨s.next, s.next + 1⟩ kind)
    ⟨[new], hs.node new rfl hchildren, new_perm new⟩

end Makes

/-! ### Numbering makes what it gives -/

mutual

/-- An expression. -/
theorem Expr.number_makes : ∀ e : Expr, Makes [] e.number fun e => [.expr e]
  | .node _ kind => kind.number_makes.andThen fun kind => .expr kind

/-- The children of an expression. -/
theorem ExprKind.number_makes : ∀ kind : ExprKind, Makes [] kind.number ExprKind.children
  | .ident _ | .nil | .bool _ | .int _ | .float _ | .imag _ | .str _ => .pure rfl
  | .unary _ e | .selector e _ | .paren e => e.number_makes.andThen fun _ => .pure rfl
  | .binary _ a b | .index a b =>
      a.number_makes.andThen fun _ => b.number_makes.andThen fun _ => .pure rfl
  | .call f args =>
      f.number_makes.andThen fun _ => (numberExprs_makes args).andThen fun _ => .pure rfl
  | .composite t elems =>
      t.number_makes.andThen fun _ => (numberElems_makes elems).andThen fun _ => .pure rfl
  | .funcLit sig body =>
      sig.number_makes.andThen fun _ => body.number_makes.andThen fun _ => .pure rfl
  | .type t => t.number_makes.andThen fun _ => .pure rfl

/-- Expressions from left to right. -/
theorem numberExprs_makes : ∀ es : List Expr,
    Makes [] (numberExprs es) fun es => es.map Node.expr
  | [] => .pure rfl
  | e :: es => e.number_makes.andThen fun _ => (numberExprs_makes es).andThen fun _ => .pure rfl

/-- An optional expression. -/
theorem numberExpr?_makes : ∀ e : Option Expr,
    Makes [] (numberExpr? e) fun e => e.toList.map Node.expr
  | none => .pure rfl
  | some e => e.number_makes.andThen fun _ => .pure rfl

/-- An element. -/
theorem Elem.number_makes : ∀ e : Elem, Makes [] e.number Elem.children
  | .mk key value => (numberExpr?_makes key).andThen fun _ =>
      value.number_makes.andThen fun _ => .pure (by simp [Elem.children])

/-- Elements from left to right. -/
theorem numberElems_makes : ∀ es : List Elem,
    Makes [] (numberElems es) fun es => es.flatMap Elem.children
  | [] => .pure rfl
  | e :: es => e.number_makes.andThen fun _ => (numberElems_makes es).andThen fun _ =>
      .pure (by simp)

/-- A type expression. -/
theorem TypeExpr.number_makes : ∀ t : TypeExpr, Makes [] t.number fun t => [.type t]
  | .node _ kind => kind.number_makes.andThen fun kind => .type kind

/-- An optional type expression. -/
theorem numberType?_makes : ∀ t : Option TypeExpr,
    Makes [] (numberType? t) fun t => t.toList.map Node.type
  | none => .pure rfl
  | some t => t.number_makes.andThen fun _ => .pure rfl

/-- The children of a type expression. -/
theorem TypeKind.number_makes : ∀ kind : TypeKind, Makes [] kind.number TypeKind.children
  | .named _ | .qualified _ _ => .pure rfl
  | .slice t | .pointer t => t.number_makes.andThen fun _ => .pure rfl
  | .array len t => len.number_makes.andThen fun _ => t.number_makes.andThen fun _ => .pure rfl
  | .map k v => k.number_makes.andThen fun _ => v.number_makes.andThen fun _ => .pure rfl
  | .func sig => sig.number_makes.andThen fun _ => .pure rfl
  | .struct fields => (numberFields_makes fields).andThen fun _ => .pure rfl
  | .interface methods => (numberMethods_makes methods).andThen fun _ => .pure rfl

/-- A signature. -/
theorem Sig.number_makes : ∀ sig : Sig, Makes [] sig.number Sig.children
  | .mk params results _ => (numberParams_makes params).andThen fun _ =>
      (numberParams_makes results).andThen fun _ =>
        .pure (by simp [Sig.children, Sig.params, Sig.results])

/-- A parameter. -/
theorem Param.number_makes : ∀ p : Param, Makes [] p.number Param.children
  | .mk _ type => type.number_makes.andThen fun _ => .pure rfl

/-- Parameters from left to right. -/
theorem numberParams_makes : ∀ ps : List Param,
    Makes [] (numberParams ps) fun ps => ps.flatMap Param.children
  | [] => .pure rfl
  | p :: ps => p.number_makes.andThen fun _ => (numberParams_makes ps).andThen fun _ =>
      .pure (by simp)

/-- A field. -/
theorem FieldDecl.number_makes : ∀ f : FieldDecl, Makes [] f.number FieldDecl.children
  | .mk _ type _ => type.number_makes.andThen fun _ => .pure rfl

/-- Fields from left to right. -/
theorem numberFields_makes : ∀ fs : List FieldDecl,
    Makes [] (numberFields fs) fun fs => fs.flatMap FieldDecl.children
  | [] => .pure rfl
  | f :: fs => f.number_makes.andThen fun _ => (numberFields_makes fs).andThen fun _ =>
      .pure (by simp)

/-- A method. -/
theorem MethodSpec.number_makes : ∀ m : MethodSpec, Makes [] m.number MethodSpec.children
  | .mk _ sig => sig.number_makes.andThen fun _ => .pure rfl

/-- Methods from left to right. -/
theorem numberMethods_makes : ∀ ms : List MethodSpec,
    Makes [] (numberMethods ms) fun ms => ms.flatMap MethodSpec.children
  | [] => .pure rfl
  | m :: ms => m.number_makes.andThen fun _ => (numberMethods_makes ms).andThen fun _ =>
      .pure (by simp)

/-- A statement. -/
theorem Stmt.number_makes : ∀ s : Stmt, Makes [] s.number fun s => [.stmt s]
  | .node _ kind => kind.number_makes.andThen fun kind => .stmt kind

/-- An optional statement. -/
theorem numberStmt?_makes : ∀ s : Option Stmt,
    Makes [] (numberStmt? s) fun s => s.toList.map Node.stmt
  | none => .pure rfl
  | some s => s.number_makes.andThen fun _ => .pure rfl

/-- The children of a statement. -/
theorem StmtKind.number_makes : ∀ kind : StmtKind, Makes [] kind.number StmtKind.children
  | .expr e | .incDec e _ => e.number_makes.andThen fun _ => .pure rfl
  | .assign lhs rhs => (numberExprs_makes lhs).andThen fun _ =>
      (numberExprs_makes rhs).andThen fun _ => .pure (by simp [StmtKind.children])
  | .opAssign _ l r => l.number_makes.andThen fun _ => r.number_makes.andThen fun _ => .pure rfl
  | .define _ values | .return values => (numberExprs_makes values).andThen fun _ => .pure rfl
  | .var spec => spec.number_makes.andThen fun _ => .pure rfl
  | .cond test body els => test.number_makes.andThen fun _ => body.number_makes.andThen fun _ =>
      (numberStmt?_makes els).andThen fun _ => .pure rfl
  | .loop init test post body => (numberStmt?_makes init).andThen fun _ =>
      (numberExpr?_makes test).andThen fun _ => (numberStmt?_makes post).andThen fun _ =>
        body.number_makes.andThen fun _ => .pure rfl
  | .break | .continue => .pure rfl
  | .block body => body.number_makes.andThen fun _ => .pure rfl

/-- A value line. -/
theorem ValueSpec.number_makes : ∀ spec : ValueSpec, Makes [] spec.number ValueSpec.children
  | .mk _ type values _ => (numberType?_makes type).andThen fun _ =>
      (numberExprs_makes values).andThen fun _ => .bind .place fun _ => .pure rfl

/-- A block. -/
theorem Block.number_makes : ∀ b : Block, Makes [] b.number Block.children
  | .mk stmts _ => (numberStmts_makes stmts).andThen fun _ => .bind .place fun _ => .pure rfl

/-- Statements in order. -/
theorem numberStmts_makes : ∀ ss : List Stmt,
    Makes [] (numberStmts ss) fun ss => ss.map Node.stmt
  | [] => .pure rfl
  | s :: ss => s.number_makes.andThen fun _ => (numberStmts_makes ss).andThen fun _ => .pure rfl

end

/-- Value lines in order. -/
theorem numberSpecs_makes (specs : List ValueSpec) :
    Makes [] (numberSpecs specs) fun specs => specs.flatMap ValueSpec.children := by
  induction specs with
  | nil => exact .pure rfl
  | cons spec rest ih =>
      exact spec.number_makes.andThen fun _ => ih.andThen fun _ => .pure (by simp)

/-- A function. -/
theorem FuncDecl.number_makes (d : FuncDecl) : Makes [] d.number FuncDecl.children := by
  have hnone : ∀ {α : Type} {f : α → List Node},
      Makes [] (pure none : Numbered (Option α)) fun o => o.toList.flatMap f := .pure rfl
  have hrecv : ∀ p : Param, Makes [] (some <$> p.number) fun o => o.toList.flatMap Param.children :=
    fun p => p.number_makes.andThen fun _ => .pure (by simp)
  have hbody : ∀ b : Block, Makes [] (some <$> b.number) fun o => o.toList.flatMap Block.children :=
    fun b => b.number_makes.andThen fun _ => .pure (by simp)
  have hend : ∀ recv sig body,
      Makes ({ d with recv, sig, body }).children (do
        return { d with recv, sig, body, span := ← Numbering.place }) FuncDecl.children :=
    fun _ _ _ => .bind .place fun _ => .pure rfl
  rw [FuncDecl.number]
  cases d.recv <;> cases d.body <;> dsimp only
  case none.none =>
    exact .andThen hnone fun _ => .andThen d.sig.number_makes fun _ => .andThen hnone (hend _ _)
  case none.some b =>
    exact .andThen hnone fun _ => .andThen d.sig.number_makes fun _ => .andThen (hbody b) (hend _ _)
  case some.none p =>
    exact .andThen (hrecv p) fun _ => .andThen d.sig.number_makes fun _ => .andThen hnone (hend _ _)
  case some.some p b =>
    exact .andThen (hrecv p) fun _ => .andThen d.sig.number_makes fun _ =>
      .andThen (hbody b) (hend _ _)

/-- An item. -/
theorem Item.number_makes (i : Item) : Makes [] i.number Item.children := by
  cases i with
  | const specs | var specs => exact (numberSpecs_makes specs).andThen fun _ => .pure rfl
  | type spec => exact spec.type.number_makes.andThen fun _ => .bind .place fun _ => .pure rfl
  | func d | macroDecl d => exact d.number_makes.andThen fun _ => .pure rfl
  | importDecl spec => exact .bind .place fun _ => .pure rfl

/-- Items in order. -/
theorem numberItems_makes (items : List Item) :
    Makes [] (numberItems items) fun items => items.flatMap Item.children := by
  induction items with
  | nil => exact .pure rfl
  | cons i rest ih => exact i.number_makes.andThen fun _ => ih.andThen fun _ => .pure (by simp)

/-- **Numbering builds a tree in which every node is used once**, and counts its nodes. -/
theorem numberItems_built (items : List Item) :
    ∃ nodes, Holds (numberItems items .start).2 nodes ∧
      UsedOnce nodes ((numberItems items .start).1.flatMap Item.children) := by
  have hstart : Holds .start [] := ⟨.start, rfl, rfl, rfl⟩
  obtain ⟨nodes, hs, hused⟩ := numberItems_makes items .start [] hstart fun n hn => hn
  exact ⟨nodes, hs, hused⟩

/-- **Walks miss nothing and repeat nothing.**  If items are built node by node, and every node that
was made is used once as a child, then a walk over the items meets each node once, parents before
their children and children in source order; so it meets as many expressions, statements and type
expressions as were made.  Numbered items are built in this way, and the numbering counts what the
walk meets. -/
theorem walks_meet_once :
    (∀ next nodes items, Built next nodes → UsedOnce nodes (items.flatMap Item.children) →
      Meets items nodes) ∧
    ∀ items, ∃ nodes, Holds (numberItems items .start).2 nodes ∧
      Meets (numberItems items .start).1 nodes := by
  refine ⟨fun next nodes items hbuilt hused => hbuilt.meets hused, fun items => ?_⟩
  obtain ⟨nodes, hs, hused⟩ := numberItems_built items
  exact ⟨nodes, hs, hs.built.meets hused⟩

namespace Built

/-- The number `1`, made first. -/
def one : Expr := .node ⟨0, 1⟩ (.int 1)

/-- The name `x`, made second. -/
def mention : Expr := .node ⟨1, 2⟩ (.ident "x")

/-- `x + 1`, made third. -/
def sum : Expr := .node ⟨2, 3⟩ (.binary .add mention one)

/-- In `var y = x + 1`, the right operand of which was made first, the sum, the name and the number
are met once, in this order. -/
theorem sum_met_once :
    let items : List Item := [.var [.mk ["y"] none [sum] ⟨3, 4⟩]]
    let nodes : List Node := [.expr one, .expr mention, .expr sum]
    Built 4 nodes ∧ UsedOnce nodes (items.flatMap Item.children) ∧ Meets items nodes ∧
      met (walkItems items) = [.expr sum, .expr mention, .expr one] := by
  intro items nodes
  have hchildren : ∀ c ∈ (Node.expr sum).children, c ∈ [Node.expr one, .expr mention] := fun c hc =>
    (List.Perm.swap _ _ []).mem_iff.1 hc
  have hbuilt : Built 4 nodes :=
    .place (.node (.expr sum) (.node (.expr mention) (.node (.expr one) .start rfl
      fun c hc => hc) rfl fun c hc => absurd hc List.not_mem_nil) rfl hchildren)
  have hused : UsedOnce nodes (items.flatMap Item.children) :=
    List.reverse_perm [Node.expr one, .expr mention, .expr sum]
  exact ⟨hbuilt, hused, walks_meet_once.1 4 nodes items hbuilt hused, rfl⟩

end Built

end ScriptCore
