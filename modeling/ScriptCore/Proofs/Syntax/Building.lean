import ScriptCore.Syntax.Walk

/-!
# Trees that are built node by node

Expressions, statements and type expressions are the nodes of a syntax tree.  The children of a node
are the nodes that it refers to, in source order.  Signatures, blocks, value lines, fields, methods
and elements are no nodes: what they refer to are children of the node in which they stand.  A walk
also reports other parts of the tree.  Of the nodes it meets first the one where it starts, and
then, for each child in turn, all that a walk from there meets.

A builder makes nodes one after the other.  Each gets the next free position as its span, and refers
to nodes that were made before.  Blocks, value lines and items take positions of their own in
between.  The nodes may be made in any order that lets children come before their parents, and
nothing keeps a builder from using a node twice, or not at all.

If every node is used once, as the child of one other node or of one item, then a walk over the
items meets each of them once.  The proof takes the nodes away again, the last one first: it is the
child of none of the others, so it is used by an item, and in its place its children are used by the
items (`Built.met_perm`).

Main statements: `Node.met_eq`, `met_walkItems` and `Built.meets`.
-/

namespace ScriptCore

/-- A node of a syntax tree. -/
inductive Node where
  | expr (e : Expr)
  | stmt (s : Stmt)
  | type (t : TypeExpr)

/-! ### Children -/

/-- The type of a parameter. -/
def Param.children (p : Param) : List Node :=
  [.type p.type]

/-- Types of parameters before those of results. -/
def Sig.children (s : Sig) : List Node :=
  (s.params ++ s.results).flatMap Param.children

/-- The type of a field. -/
def FieldDecl.children : FieldDecl → List Node
  | .mk _ type _ => [.type type]

/-- The types in the signature of a method. -/
def MethodSpec.children : MethodSpec → List Node
  | .mk _ sig => sig.children

/-- The key, if there is one, before the value. -/
def Elem.children : Elem → List Node
  | .mk key value => (key.toList ++ [value]).map .expr

/-- The statements of a block. -/
def Block.children (b : Block) : List Node :=
  b.stmts.map .stmt

/-- The type of a value line, if there is one, before its values. -/
def ValueSpec.children (s : ValueSpec) : List Node :=
  s.type.toList.map .type ++ s.values.map .expr

/-- Children of an expression. -/
def ExprKind.children : ExprKind → List Node
  | .ident _ | .nil | .bool _ | .int _ | .float _ | .imag _ | .str _ => []
  | .unary _ e | .selector e _ | .paren e => [.expr e]
  | .binary _ a b | .index a b => [.expr a, .expr b]
  | .call f args => (f :: args).map .expr
  | .composite t elems => .type t :: elems.flatMap Elem.children
  | .funcLit sig body => sig.children ++ body.children
  | .type t => [.type t]

/-- Children of a type expression. -/
def TypeKind.children : TypeKind → List Node
  | .named _ | .qualified _ _ => []
  | .slice t | .pointer t => [.type t]
  | .array len t => [.expr len, .type t]
  | .map k v => [.type k, .type v]
  | .func sig => sig.children
  | .struct fields => fields.flatMap FieldDecl.children
  | .interface methods => methods.flatMap MethodSpec.children

/-- Children of a statement. -/
def StmtKind.children : StmtKind → List Node
  | .expr e | .incDec e _ => [.expr e]
  | .assign lhs rhs => (lhs ++ rhs).map .expr
  | .opAssign _ l r => [.expr l, .expr r]
  | .define _ values | .return values => values.map .expr
  | .var spec => spec.children
  | .cond test body els => .expr test :: body.children ++ els.toList.map .stmt
  | .loop init test post body =>
    init.toList.map .stmt ++ test.toList.map .expr ++ post.toList.map .stmt ++ body.children
  | .break | .continue => []
  | .block body => body.children

/-- Receiver, signature and body of a function. -/
def FuncDecl.children (d : FuncDecl) : List Node :=
  d.recv.toList.flatMap Param.children ++ d.sig.children ++ d.body.toList.flatMap Block.children

/-- The outermost nodes of an item. -/
def Item.children : Item → List Node
  | .const specs | .var specs => specs.flatMap ValueSpec.children
  | .type spec => [.type spec.type]
  | .func d | .macroDecl d => d.children
  | .importDecl _ => []

namespace Node

/-- Children of a node. -/
def children : Node → List Node
  | .expr e => e.kind.children
  | .stmt s => s.kind.children
  | .type t => t.kind.children

/-- The span of a node. -/
def span : Node → Span
  | .expr (.node span _) | .stmt (.node span _) | .type (.node span _) => span

/-- Expressions. -/
def isExpr : Node → Bool
  | .expr _ => true
  | _ => false

/-- Statements. -/
def isStmt : Node → Bool
  | .stmt _ => true
  | _ => false

/-- Type expressions. -/
def isType : Node → Bool
  | .type _ => true
  | _ => false

end Node

/-! ### What walks meet -/

/-- Nodes that a walk meets, in the order in which it does. -/
def met (events : List Event) : List Node :=
  events.filterMap fun
    | .expr e => some (.expr e)
    | .stmt s => some (.stmt s)
    | .type t => some (.type t)
    | _ => none

/-- Nodes that a walk from a node meets. -/
def Node.met : Node → List Node
  | .expr e => ScriptCore.met e.walk
  | .stmt s => ScriptCore.met s.walk
  | .type t => ScriptCore.met t.walk

@[simp] theorem met_nil : met [] = [] := rfl

@[simp] theorem met_append (a b : List Event) : met (a ++ b) = met a ++ met b :=
  List.filterMap_append

@[simp] theorem met_sig (s : Sig) (rest : List Event) : met (.sig s :: rest) = met rest := rfl

@[simp] theorem met_spec (span : Span) (rest : List Event) :
    met (.spec span :: rest) = met rest := rfl

@[simp] theorem met_decl (span : Span) (rest : List Event) :
    met (.decl span :: rest) = met rest := rfl

@[simp] theorem met_item (i : Item) (rest : List Event) : met (.item i :: rest) = met rest := rfl

@[simp] theorem met_expr (e : Expr) : met e.walk = (Node.expr e).met := rfl

@[simp] theorem met_stmt (s : Stmt) : met s.walk = (Node.stmt s).met := rfl

@[simp] theorem met_type (t : TypeExpr) : met t.walk = (Node.type t).met := rfl

/-- Expressions from left to right. -/
@[simp] theorem met_walkExprs (es : List Expr) :
    met (walkExprs es) = (es.map Node.expr).flatMap Node.met := by
  induction es with
  | nil => rfl
  | cons e es ih => simp [walkExprs, ih]

/-- An optional expression. -/
@[simp] theorem met_walkExpr? (e : Option Expr) :
    met (walkExpr? e) = (e.toList.map Node.expr).flatMap Node.met := by
  cases e <;> simp [walkExpr?]

/-- An optional statement. -/
@[simp] theorem met_walkStmt? (s : Option Stmt) :
    met (walkStmt? s) = (s.toList.map Node.stmt).flatMap Node.met := by
  cases s <;> simp [walkStmt?]

/-- An optional type expression. -/
@[simp] theorem met_walkType? (t : Option TypeExpr) :
    met (walkType? t) = (t.toList.map Node.type).flatMap Node.met := by
  cases t <;> simp [walkType?]

/-- Statements in order. -/
@[simp] theorem met_walkStmts (ss : List Stmt) :
    met (walkStmts ss) = (ss.map Node.stmt).flatMap Node.met := by
  induction ss with
  | nil => rfl
  | cons s ss ih => simp [walkStmts, ih]

/-- A block. -/
@[simp] theorem met_block (b : Block) : met b.walk = b.children.flatMap Node.met := by
  cases b
  simp [Block.walk, Block.children, Block.stmts]

/-- A parameter. -/
@[simp] theorem met_param (p : Param) : met p.walk = p.children.flatMap Node.met := by
  cases p
  simp [Param.walk, Param.children, Param.type]

/-- Parameters from left to right. -/
@[simp] theorem met_walkParams (ps : List Param) :
    met (walkParams ps) = (ps.flatMap Param.children).flatMap Node.met := by
  induction ps with
  | nil => rfl
  | cons p ps ih => simp [walkParams, ih]

/-- A signature. -/
@[simp] theorem met_signature (s : Sig) : met s.walk = s.children.flatMap Node.met := by
  cases s
  simp [Sig.walk, Sig.children, Sig.params, Sig.results]

/-- Fields from left to right. -/
@[simp] theorem met_walkFields (fs : List FieldDecl) :
    met (walkFields fs) = (fs.flatMap FieldDecl.children).flatMap Node.met := by
  induction fs with
  | nil => rfl
  | cons f fs ih =>
      cases f
      simp [walkFields, FieldDecl.walk, FieldDecl.children, ih]

/-- Methods from left to right. -/
@[simp] theorem met_walkMethods (ms : List MethodSpec) :
    met (walkMethods ms) = (ms.flatMap MethodSpec.children).flatMap Node.met := by
  induction ms with
  | nil => rfl
  | cons m ms ih =>
      cases m
      simp [walkMethods, MethodSpec.walk, MethodSpec.children, ih]

/-- Elements from left to right. -/
@[simp] theorem met_walkElems (es : List Elem) :
    met (walkElems es) = (es.flatMap Elem.children).flatMap Node.met := by
  induction es with
  | nil => rfl
  | cons e es ih =>
      cases e
      simp [walkElems, Elem.walk, Elem.children, ih]

/-- A value line. -/
@[simp] theorem met_valueSpec (s : ValueSpec) : met s.walk = s.children.flatMap Node.met := by
  cases s
  simp [ValueSpec.walk, ValueSpec.children, ValueSpec.type, ValueSpec.values]

/-! ### Walks start with a node and go on with its children -/

/-- The walk of an expression's children. -/
theorem ExprKind.met_walk (kind : ExprKind) :
    met kind.walk = kind.children.flatMap Node.met := by
  cases kind <;> simp [ExprKind.walk, ExprKind.children]

/-- The walk of a type expression's children. -/
theorem TypeKind.met_walk (kind : TypeKind) :
    met kind.walk = kind.children.flatMap Node.met := by
  cases kind <;> simp [TypeKind.walk, TypeKind.children]

/-- The walk of a statement's children. -/
theorem StmtKind.met_walk (kind : StmtKind) :
    met kind.walk = kind.children.flatMap Node.met := by
  cases kind <;> simp [StmtKind.walk, StmtKind.children]

/-- **A walk meets a node first, and then what walks from its children meet**, one child after the
other. -/
theorem Node.met_eq (n : Node) : n.met = n :: n.children.flatMap Node.met := by
  cases n with
  | expr e =>
      cases e with
      | node span kind =>
          rw [Node.met, Expr.walk]
          exact congrArg (_ :: ·) kind.met_walk
  | stmt s =>
      cases s with
      | node span kind =>
          rw [Node.met, Stmt.walk]
          exact congrArg (_ :: ·) kind.met_walk
  | type t =>
      cases t with
      | node span kind =>
          rw [Node.met, TypeExpr.walk]
          exact congrArg (_ :: ·) kind.met_walk

/-- The walk of an item. -/
theorem Item.met_walk (i : Item) : met i.walk = i.children.flatMap Node.met := by
  cases i with
  | const specs | var specs =>
      simp only [Item.walk, met_item, Item.children]
      induction specs with
      | nil => rfl
      | cons s rest ih => simp [ih]
  | type spec => simp [Item.walk, Item.children]
  | func d | macroDecl d =>
      cases hrecv : d.recv <;> cases hbody : d.body <;>
        simp [Item.walk, Item.children, FuncDecl.walk, FuncDecl.children, hrecv, hbody]
  | importDecl spec => rfl

/-- **A walk over items meets what walks from their outermost nodes meet.** -/
theorem met_walkItems (items : List Item) :
    met (walkItems items) = (items.flatMap Item.children).flatMap Node.met := by
  induction items with
  | nil => rfl
  | cons i items ih =>
      have hcons : walkItems (i :: items) = i.walk ++ walkItems items := rfl
      rw [hcons, met_append, i.met_walk, ih, List.flatMap_cons, List.flatMap_append]

/-! ### Building -/

/-- Nodes made so far, in the order in which they were made, and the next free position. -/
inductive Built : Nat → List Node → Prop
  | start : Built 0 []
  /-- A node that refers to nodes made before. -/
  | node {next : Nat} {nodes : List Node} (n : Node) (before : Built next nodes)
      (span : n.span = ⟨next, next + 1⟩) (children : ∀ c ∈ n.children, c ∈ nodes) :
      Built (next + 1) (nodes ++ [n])
  /-- A block, a value line or an item. -/
  | place {next : Nat} {nodes : List Node} (before : Built next nodes) : Built (next + 1) nodes

/-- Every node is used once, as the child of another node or among the roots. -/
def UsedOnce (nodes roots : List Node) : Prop :=
  (roots ++ nodes.flatMap Node.children).Perm nodes

/-- What a walk over items meets are the given nodes, each of them once, parents before their
children and children in source order. -/
structure Meets (items : List Item) (nodes : List Node) : Prop where
  once : (met (walkItems items)).Perm nodes
  distinct : ((met (walkItems items)).map Node.span).Nodup
  exprs : (met (walkItems items)).countP Node.isExpr = nodes.countP Node.isExpr
  stmts : (met (walkItems items)).countP Node.isStmt = nodes.countP Node.isStmt
  types : (met (walkItems items)).countP Node.isType = nodes.countP Node.isType
  roots : (items.flatMap Item.children).Sublist (met (walkItems items))
  ordered : ∀ n ∈ nodes, (n :: n.children).Sublist (met (walkItems items))

/-- The children of a list of nodes are met in order. -/
theorem sublist_flatMap_met (ns : List Node) : ns.Sublist (ns.flatMap Node.met) := by
  induction ns with
  | nil => exact .slnil
  | cons n ns ih =>
      rw [List.flatMap_cons, n.met_eq, List.cons_append]
      exact (ih.trans (List.sublist_append_right _ _)).cons_cons n

/-- A node is met before its children, and they in order. -/
theorem Node.sublist_met (n : Node) : (n :: n.children).Sublist n.met := by
  rw [n.met_eq]
  exact (sublist_flatMap_met n.children).cons_cons n

/-- What a walk from one of several nodes meets is met by the walks from all of them. -/
theorem Node.met_sublist_flatMap {n : Node} {ns : List Node} (h : n ∈ ns) :
    n.met.Sublist (ns.flatMap Node.met) :=
  List.sublist_flatten_of_mem (List.mem_map_of_mem h)

namespace Built

variable {next : Nat} {nodes roots : List Node}

/-- Positions of nodes that were made are not free. -/
theorem span_lt (h : Built next nodes) : ∀ n ∈ nodes, n.span.start < next := by
  induction h with
  | start => exact fun n hn => absurd hn List.not_mem_nil
  | node m _ hspan _ ih =>
      intro n hn
      rcases List.mem_append.1 hn with hn | hn
      · exact Nat.lt_succ_of_lt (ih n hn)
      · rw [List.mem_singleton.1 hn, hspan]
        exact Nat.lt_succ_self _
  | place _ ih => exact fun n hn => Nat.lt_succ_of_lt (ih n hn)

/-- No two nodes have one span. -/
theorem distinct (h : Built next nodes) : (nodes.map Node.span).Nodup := by
  induction h with
  | start => exact List.nodup_nil
  | node m before hspan _ ih =>
      rw [List.map_append, List.nodup_append]
      refine ⟨ih, List.nodup_cons.2 ⟨List.not_mem_nil, List.nodup_nil⟩, fun a ha b hb heq => ?_⟩
      obtain ⟨n, hn, rfl⟩ := List.mem_map.1 ha
      rw [List.map_singleton, List.mem_singleton] at hb
      have hlt := before.span_lt n hn
      rw [heq, hb, hspan] at hlt
      exact Nat.lt_irrefl _ hlt
  | place _ ih => exact ih

/-- Nodes refer to nodes. -/
theorem children_mem (h : Built next nodes) : ∀ n ∈ nodes, ∀ c ∈ n.children, c ∈ nodes := by
  induction h with
  | start => exact fun n hn => absurd hn List.not_mem_nil
  | node m _ _ hchildren ih =>
      intro n hn c hc
      rcases List.mem_append.1 hn with hn | hn
      · exact List.mem_append_left _ (ih n hn c hc)
      · rw [List.mem_singleton.1 hn] at hc
        exact List.mem_append_left _ (hchildren c hc)
  | place _ ih => exact ih

/-- **A walk from the roots meets every node once.** -/
theorem met_perm (h : Built next nodes) (hused : UsedOnce nodes roots) :
    (roots.flatMap Node.met).Perm nodes := by
  induction h generalizing roots with
  | start =>
      rw [UsedOnce, List.flatMap_nil, List.append_nil, List.perm_nil] at hused
      rw [hused]
      exact .nil
  | @node next nodes m before hspan hchildren ih =>
      rw [UsedOnce, List.flatMap_append, List.flatMap_singleton] at hused
      -- the last node is the child of none of the others
      have hfresh : m ∉ nodes := fun hm => by
        have hlt := before.span_lt m hm
        rw [hspan] at hlt
        exact Nat.lt_irrefl _ hlt
      have hroot : m ∈ roots := by
        have hm : m ∈ roots ++ (nodes.flatMap Node.children ++ m.children) :=
          hused.mem_iff.2 (List.mem_append_right _ (List.mem_singleton.2 rfl))
        rcases List.mem_append.1 hm with hm | hm
        · exact hm
        · rcases List.mem_append.1 hm with hm | hm
          · obtain ⟨n, hn, hm⟩ := List.mem_flatMap.1 hm
            exact absurd (before.children_mem n hn m hm) hfresh
          · exact absurd (hchildren m hm) hfresh
      obtain ⟨left, right, rfl⟩ := List.append_of_mem hroot
      have hmiddle : (left ++ m :: right).Perm (m :: (left ++ right)) := List.perm_middle
      -- its children take its place
      have hrest : UsedOnce nodes (m.children ++ (left ++ right)) := by
        have huses : (m.children ++ (left ++ right) ++ nodes.flatMap Node.children).Perm
            (left ++ right ++ (nodes.flatMap Node.children ++ m.children)) := by
          rw [List.append_assoc, ← List.append_assoc (left ++ right)]
          exact List.perm_append_comm
        have hall : (m :: (m.children ++ (left ++ right) ++ nodes.flatMap Node.children)).Perm
            (m :: nodes) :=
          (huses.cons m).trans ((hmiddle.symm.append_right _).trans
            (hused.trans (List.perm_append_singleton m nodes)))
        exact hall.cons_inv
      have hmet : ((left ++ m :: right).flatMap Node.met).Perm
          (m :: (m.children ++ (left ++ right)).flatMap Node.met) := by
        have hfirst := hmiddle.flatMap_right Node.met
        rwa [List.flatMap_cons, m.met_eq, List.cons_append, ← List.flatMap_append] at hfirst
      exact hmet.trans (((ih hrest).cons m).trans (List.perm_append_singleton m nodes).symm)
  | place _ ih => exact ih hused

/-- What a walk from a node meets is met in the same order by every walk that meets the node. -/
theorem met_sublist (h : Built next nodes) :
    ∀ n ∈ nodes, ∀ m ∈ n.met, m.met.Sublist n.met := by
  induction h with
  | start => exact fun n hn => absurd hn List.not_mem_nil
  | node k _ _ hchildren ih =>
      intro n hn m hm
      rcases List.mem_append.1 hn with hn | hn
      · exact ih n hn m hm
      · rw [List.mem_singleton.1 hn] at hm ⊢
        rw [k.met_eq] at hm
        rcases List.mem_cons.1 hm with rfl | hm
        · exact .refl _
        · obtain ⟨c, hc, hm⟩ := List.mem_flatMap.1 hm
          have hinside : m.met.Sublist (k.children.flatMap Node.met) :=
            (ih c (hchildren c hc) m hm).trans (Node.met_sublist_flatMap hc)
          rw [k.met_eq]
          exact hinside.cons k
  | place _ ih => exact ih

/-- **Walks meet each node once**, if every node is used once, parents before their children and
children in source order. -/
theorem meets (h : Built next nodes) {items : List Item}
    (hused : UsedOnce nodes (items.flatMap Item.children)) : Meets items nodes := by
  have honce : (met (walkItems items)).Perm nodes := by
    rw [met_walkItems]
    exact h.met_perm hused
  refine ⟨honce, (honce.map Node.span).nodup_iff.2 h.distinct, honce.countP_eq _,
    honce.countP_eq _, honce.countP_eq _, ?_, fun n hn => ?_⟩
  · rw [met_walkItems]
    exact sublist_flatMap_met _
  · have hn' := honce.mem_iff.2 hn
    rw [met_walkItems] at hn' ⊢
    obtain ⟨root, hroot, hmet⟩ := List.mem_flatMap.1 hn'
    have hmem : root ∈ nodes := hused.mem_iff.1 (List.mem_append_left _ hroot)
    exact n.sublist_met.trans
      ((h.met_sublist root hmem n hmet).trans (Node.met_sublist_flatMap hroot))

end Built

end ScriptCore
