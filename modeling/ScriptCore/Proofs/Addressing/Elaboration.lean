import ScriptCore.Proofs.Addressing.Landing
import ScriptCore.Proofs.Addressing.Statements
import ScriptCore.Proofs.Results.Compiled

/-!
# Bodies with checked addresses

The compilation of every expression, type and statement agrees with the one that checks addresses,
by recursion on the syntax: one case for each form, by the rule for that form.  A statement takes
the level of its body to the level that the text gives after it.  A body that is compiled keeps to
its own record and to those around it.

Main statements: `operand_stays`, `blockTree_agrees` and `body_agrees`.
-/

namespace ScriptCore

/-! ### Slots are never given back -/

namespace Level

mutual

/-- A statement only adds declarations. -/
theorem le_after : ∀ (s : Stmt) (l : Level), l.next ≤ (s.after l).next
  | .node _ kind, l => by
      rw [Stmt.after]
      exact le_after_kind kind l

/-- A form of statement only adds declarations. -/
theorem le_after_kind : ∀ (kind : StmtKind) (l : Level), l.next ≤ (kind.after l).next
  | .expr _, l | .opAssign _ _ _, l | .incDec _ _, l | .break, l | .continue, l | .return _, l => by
      simp only [StmtKind.after, Nat.le_refl]
  | .assign lhs rhs, l => by
      rw [StmtKind.after, temporaries_next]
      exact Nat.le_add_right _ _
  | .define names _, l => by
      rw [StmtKind.after]
      exact (l.bindAll_lt true names).1
  | .var (.mk names _ _ _), l => by
      rw [StmtKind.after]
      exact (l.bindAll_lt false names).1
  | .cond _ body otherwise, l => by
      rw [StmtKind.after]
      exact Nat.le_trans (le_after_block body l.nested)
        (le_after_optional otherwise (body.after l.nested).unnested)
  | .loop init _ post body, l => by
      rw [StmtKind.after]
      have hbody := le_after_block body (afterOptional l.nested init).nested
      exact Nat.le_trans (le_after_optional init l.nested) (Nat.le_trans hbody
        (le_after_optional post (body.after (afterOptional l.nested init).nested).unnested))
  | .block body, l => by
      rw [StmtKind.after]
      exact le_after_block body l.nested

/-- An optional statement only adds declarations. -/
theorem le_after_optional : ∀ (s : Option Stmt) (l : Level), l.next ≤ (afterOptional l s).next
  | none, l => by simp only [afterOptional, Nat.le_refl]
  | some s, l => by
      rw [afterOptional]
      exact le_after s l

/-- A block only adds declarations. -/
theorem le_after_block : ∀ (b : Block) (l : Level), l.next ≤ (b.after l).next
  | .mk stmts _, l => by
      rw [Block.after]
      exact le_after_all stmts l

/-- Statements only add declarations. -/
theorem le_after_all : ∀ (stmts : List Stmt) (l : Level), l.next ≤ (afterAll l stmts).next
  | [], l => by simp only [afterAll, Nat.le_refl]
  | s :: rest, l => by
      rw [afterAll]
      exact Nat.le_trans (le_after s l) (le_after_all rest _)

end

end Level

namespace Compile

open Code

variable {w : World} {l l' : Level}

/-! ### Bodies -/

/-- The world around a body that is nested in others or not. -/
def around (w : World) (nested : Bool) : World :=
  if nested then w else { w with bodies := [] }

/-- A body begins with nothing declared. -/
theorem entered_fits {c : Compiler} (hc : c.Fits w) (nested : Bool) :
    (c.entered nested).Fits ((around w nested).push .empty) := by
  obtain ⟨hframes, hglobals, hnames, hmethods, hhosts⟩ := hc
  have hempty : Frame.Fits .empty .empty := ⟨rfl, rfl, rfl⟩
  cases nested with
  | true => exact ⟨.cons hempty hframes, hglobals, hnames, hmethods, hhosts.1, hhosts.2⟩
  | false => exact ⟨.cons hempty .nil, hglobals, hnames, hmethods, hhosts.1, hhosts.2⟩

/-- After a body the frames are again those before it. -/
theorem left_fits {c c' : Compiler} (hc : c.Fits w) {nested : Bool}
    (hc' : c'.Fits ((around w nested).push l)) :
    ({ c' with frame := c.frame, enclosing := c.enclosing } : Compiler).Fits w := by
  obtain ⟨-, hglobals, hnames, hmethods, hhosts⟩ := hc'
  cases nested <;> exact ⟨hc.frames, hglobals, hnames, hmethods, hhosts.1, hhosts.2⟩

/-- The finished code of a body without labels. -/
theorem finished_eq (p : Compile Routine) (c : Compiler) :
    (do let p ← p; return (p.write .empty).body (← get).frame.slots : Compile Body) c =
      (p c).map fun r => ((r.1.write .empty).body r.2.frame.slots, r.2) := by
  change (p c).bind _ = _
  cases p c <;> rfl

/-- **A body that is compiled keeps to its own record and to those around it.** -/
theorem body_agrees (nested : Bool) {p q : Compile Routine} {count : Nat}
    (h : Agrees ((around w nested).push .empty) p q ((around w nested).push l)
      ((around w nested).push l).Covers)
    (hwell : Gives (fun p => Plain p.entry ∧ p.body.WellFormed false) p)
    (hreturns : ∀ c : Compiler, c.frame = .empty → Yields (fun r => r.1.Returns count) (p c)) :
    Agrees w (inFrame nested do let p ← p; return (p.write .empty).body (← get).frame.slots)
      (inFrame nested do let p ← q; return (p.write .empty).body (← get).frame.slots) w
      fun body => (around w nested).Holds (.literal body) := by
  intro c hc
  obtain ⟨hsame, hleaves, halike⟩ := h (c.entered nested) (entered_fits hc nested)
  have hrun : ∀ body c', inFrame nested
        (do let p ← p; return (p.write .empty).body (← get).frame.slots) c = .ok (body, c') →
      ∃ r, p (c.entered nested) = .ok r ∧ body = (r.1.write .empty).body r.2.frame.slots ∧
        c' = { r.2 with frame := c.frame, enclosing := c.enclosing } := by
    intro body c' hrun
    rw [inFrame_eq, finished_eq] at hrun
    cases hp : p (c.entered nested) with
    | error e =>
        rw [hp] at hrun
        cases hrun
    | ok r =>
        rw [hp] at hrun
        cases hrun
        exact ⟨r, rfl, rfl, rfl⟩
  refine ⟨by simp only [inFrame_eq, finished_eq, hsame], fun body c' hbody => ?_,
    fun body c' hbody => ?_⟩
  · obtain ⟨r, hp, rfl, rfl⟩ := hrun body c' hbody
    obtain ⟨hfits, hcovers⟩ := hleaves r.1 r.2 hp
    obtain ⟨hentry, htree⟩ := hwell (c.entered nested) r hp
    have hbody := Routine.written_holds hentry htree
      (hreturns (c.entered nested) rfl r hp) hcovers
    rw [← hfits.frame.slots] at hbody
    exact ⟨left_fits hc hfits, hbody⟩
  · obtain ⟨r, hp, rfl, rfl⟩ := hrun body c' hbody
    have hr := halike r.1 r.2 hp
    unfold Compiler.Alike at *
    rw [hr]
    rfl

/-- The body of a function takes an empty level to the level after its statements. -/
theorem routine_agrees {recv : Option Param} {sig : Sig} {recvType : Option (Option Name × Ty)}
    {h : Heading} (hnames : Names recv sig recvType h) {content : Block}
    (hcontent : Agrees (w.push (Level.enter recv sig).nested) (blockTree false content)
      (Checked.blockTree (Level.enter recv sig).nested w.scopes false content)
      (w.push (content.after (Level.enter recv sig).nested))
      (w.push (content.after (Level.enter recv sig).nested)).Covers) :
    Agrees (w.push .empty) (routine recvType h content)
      (Checked.routine recv sig recvType h (fun l => Checked.blockTree l w.scopes false content)
        fun l => content.after l)
      (w.push (content.after (Level.enter recv sig).nested).unnested)
      (w.push (content.after (Level.enter recv sig).nested).unnested).Covers := by
  refine .bind (enterBody_agrees hnames) fun entry hentry => .getRight fun c hc =>
    Agrees.require (beq_iff_eq.2 hc.frame.results)
      (.bind (withBlock_agrees hcontent) fun t ht => ?_) c hc
  intro c hc
  have hslots : (c.frame.slots == (content.after (Level.enter recv sig).nested).next &&
      decide ((content.after (Level.enter recv sig).nested).declared.map Prod.snd).Nodup) =
        true := by
    rw [Bool.and_eq_true, beq_iff_eq, decide_eq_true_eq]
    exact ⟨hc.frame.slots, Level.slots_nodup _⟩
  refine ⟨?_, ?_, ?_⟩
  · change _ = (Checked.require _ >>= fun _ => _ : Compile Routine) c
    rw [hslots]
    rfl
  · rintro p c' ⟨⟩
    refine ⟨hc, World.admits_append.2 ⟨?_, World.admits_append.2 ⟨ht, ending_covers hc.frame _⟩⟩⟩
    exact World.admits_instrs.2 (hentry.mono (w.push_le
      (Level.le_after_block content (Level.enter recv sig).nested)))
  · rintro p c' ⟨⟩
    rfl

/-- A function literal. -/
theorem funcLit_stays {sig : Sig} {content : Block} {heading heading' : Compile Heading}
    (hheading : Agrees w heading heading' w (Names none sig none))
    (hcontent : Agrees (w.push (Level.enter none sig).nested) (blockTree false content)
      (Checked.blockTree (Level.enter none sig).nested w.scopes false content)
      (w.push (content.after (Level.enter none sig).nested))
      (w.push (content.after (Level.enter none sig).nested)).Covers) :
    Stays w (funcLit heading (block content)) (Checked.funcLit heading' fun h =>
      Checked.routine none sig none h (fun l => Checked.blockTree l w.scopes false content)
        fun l => content.after l) := by
  refine .bind hheading fun h hnames => .bind (build_agrees _) fun ty _ => ?_
  rw [assembled_bodyOf]
  exact .bind (body_agrees true (routine_agrees hnames hcontent)
      (routine_wellFormed none h content) fun _ hc => routine_returns none h content hc)
    fun body hbody => .pure (World.admits_cons.2 ⟨hbody, World.admits_nil⟩)

/-! ### Syntax -/

/-- The length of an array. -/
theorem arrayLength_keeps (op : Operand) : Keeps w (arrayLength op) (arrayLength op) := by
  unfold arrayLength
  split
  · split
    · exact .ite (fun _ => .pure trivial) fun _ => .fail _
    · exact .fail _
  · exact .fail _

/-- The type of a parameter. -/
theorem paramType_keeps (collects : Bool) (ty : Ty) :
    Keeps w (paramType collects ty) (paramType collects ty) :=
  .ite (fun _ => build_agrees _) fun _ => .pure trivial

/-- A constant. -/
theorem untyped_covers (c : Constant) : w.Covers (Operand.untyped c) :=
  Term.const_covers c none

/-- The scopes are the same whatever temporaries there are. -/
theorem temporaries_scopes (w : World) (l : Level) (n : Nat) :
    (w.push (l.temporaries n)).scopes = l.blocks :: w.scopes :=
  congrArg (· :: w.scopes) (l.temporaries_blocks n)

/-- Steps that agree one by one whatever temporaries there are. -/
theorem steady_of {α : Type} [HasCode α] {ps qs : List (Compile α)}
    (h : ∀ n, List.Forall₂ (Stays (w.push (l.temporaries n))) ps qs) :
    List.Forall₂ (Steady w l) ps qs := by
  induction ps generalizing qs with
  | nil =>
      cases h 0
      exact .nil
  | cons p ps ih =>
      cases qs with
      | nil => cases h 0
      | cons q qs =>
          exact .cons (fun n => (List.forall₂_cons.1 (h n)).1)
            (ih fun n => (List.forall₂_cons.1 (h n)).2)

/-- Instructions. -/
theorem act_covers {is : List Instr} (h : w.Covers is) : w.Covers (Tree.act is) :=
  World.admits_instrs.2 h

/-- One instruction. -/
theorem actOne_covers {i : Instr} (h : w.Covers i) : w.Covers (Tree.act [i]) :=
  act_covers (World.covers_cons.2 ⟨h, World.covers_nil⟩)

/-- A declaration fills the slots of the names it declares. -/
theorem declared_agrees {redeclare : Bool} {names : List Name} {i : Instr}
    (h : Declares w l redeclare names i) :
    Agrees (w.push (l.bindAll redeclare names).2) (pure (Tree.act [i])) (do
        Checked.requireTargets i (l.bindAll redeclare names).1
        return .act [i])
      (w.push (l.bindAll redeclare names).2) (w.push (l.bindAll redeclare names).2).Covers := by
  rw [h.2]
  exact .pure (actOne_covers h.1)

mutual

/-- An expression. -/
theorem operand_stays : ∀ (e : Expr) (w : World), Stays w (operand e) (Checked.operand w.scopes e)
  | .node span kind, w => by
      simp only [operand, Checked.operand]
      exact (operandOf_stays kind w).at' span

/-- A form of expression. -/
theorem operandOf_stays : ∀ (kind : ExprKind) (w : World),
    Stays w (operandOf kind) (Checked.operandOf w.scopes kind)
  | .ident name, w => by
      simp only [operandOf, Checked.operandOf]
      exact identifier_stays name
  | .nil, w | .bool _, w | .int _, w | .float _, w | .imag _, w | .str _, w => by
      simp only [operandOf, Checked.operandOf]
      exact .pure (untyped_covers _)
  | .unary op e, w => by
      simp only [operandOf, Checked.operandOf]
      exact .bind (operand_stays e w) fun _ ho => .bind (.check (Operand.single_covers ho))
        fun _ hx => .bind (.rule fun _ => Term.unary_covers op hx) fun _ hy => .pure hy
  | .binary op a b, w => by
      simp only [operandOf, Checked.operandOf]
      exact .bind (operand_stays a w) fun _ ho => .bind (.check (Operand.single_covers ho))
        fun _ hx => .bind (operand_stays b w) fun _ ho' =>
          .bind (.check (Operand.single_covers ho'))
          fun _ hy => .bind (.rule fun _ => Term.binary_covers op hx hy) fun _ hz => .pure hz
  | .call f args, w => by
      simp only [operandOf, Checked.operandOf]
      exact call_stays (typeOf?_stays f w) (callee_agrees f w) (operand_stays f w)
        (firstType?_stays args w) (operands_stays args w)
  | .index container key, w => by
      simp only [operandOf, Checked.operandOf]
      exact index_stays (operand_stays container w) (operand_stays key w)
  | .selector base field, w => by
      simp only [operandOf, Checked.operandOf]
      exact selector_stays (operand_stays base w) _ field
  | .paren e, w => by
      simp only [operandOf, Checked.operandOf]
      exact operand_stays e w
  | .composite ty elems, w => by
      simp only [operandOf, Checked.operandOf]
      exact .bind (typeExpr_keeps ty w) fun ty _ => composite_stays ty (elements_agree elems w)
  | .funcLit sig body, w => by
      simp only [operandOf, Checked.operandOf]
      exact funcLit_stays (heading_agrees sig w) (blockTree_agrees body false _ w)
  | .type _, w => by
      simp only [operandOf, Checked.operandOf]
      exact .fail _

/-- Expressions. -/
theorem operands_stays : ∀ (es : List Expr) (w : World),
    List.Forall₂ (Stays w) (operands es) (Checked.operands w.scopes es)
  | [], w => by
      simp only [operands, Checked.operands]
      exact .nil
  | e :: rest, w => by
      simp only [operands, Checked.operands]
      exact .cons (operand_stays e w) (operands_stays rest w)

/-- An optional expression. -/
theorem operand?_stays : ∀ (e : Option Expr) (w : World),
    Option.Rel (Stays w) (operand? e) (Checked.operand? w.scopes e)
  | none, w => by
      simp only [operand?, Checked.operand?]
      exact .none
  | some e, w => by
      simp only [operand?, Checked.operand?]
      exact .some (operand_stays e w)

/-- Elements of a literal. -/
theorem elements_agree : ∀ (es : List Elem) (w : World),
    List.Forall₂ (ElementAgrees w) (elements es) (Checked.elements w.scopes es)
  | [], w => by
      simp only [elements, Checked.elements]
      exact .nil
  | .mk key value :: rest, w => by
      simp only [elements, Checked.elements]
      exact .cons ⟨rfl, operand?_stays key w, operand_stays value w⟩ (elements_agree rest w)

/-- The type that an expression names. -/
theorem typeOf?_stays : ∀ (e : Expr) (w : World),
    Stays w (typeOf? e) (Checked.typeOf? w.scopes e)
  | .node span kind, w => by
      have hother : Stays w (pure none : Compile (Option Ty)) (pure none) := .pure World.covers_none
      have hany : ∀ {ty : Option Ty}, True → w.Covers ty := fun _ b _ => World.covers_type b
      cases kind with
      | ident name =>
          simp only [typeOf?, Checked.typeOf?]
          exact (identifiedType?_keeps name).imp fun _ => hany
      | paren e =>
          simp only [typeOf?, Checked.typeOf?]
          exact typeOf?_stays e w
      | type ty =>
          simp only [typeOf?, Checked.typeOf?]
          exact (typeExpr_keeps ty w).map fun _ _ => hany trivial
      | _ =>
          simp only [typeOf?, Checked.typeOf?]
          exact hother

/-- The type that the first expression names. -/
theorem firstType?_stays : ∀ (es : List Expr) (w : World),
    Stays w (firstType? es) (Checked.firstType? w.scopes es)
  | [], w => by
      simp only [firstType?, Checked.firstType?]
      exact .pure World.covers_none
  | e :: _, w => by
      simp only [firstType?, Checked.firstType?]
      exact typeOf?_stays e w

/-- What a call of an expression calls. -/
theorem callee_agrees : ∀ (e : Expr) (w : World),
    CalleeAgrees w (callee e) (Checked.callee w.scopes e)
  | .node span kind, w => by
      cases kind with
      | ident name =>
          simp only [callee, Checked.callee]
          exact .name name
      | selector base field =>
          simp only [callee, Checked.callee]
          exact .selector _ (operand_stays base w) field
      | _ =>
          simp only [callee, Checked.callee]
          exact .other

/-- An expression as a place. -/
theorem placeOf_stays : ∀ (e : Expr) (w : World),
    Stays w (placeOf e) (Checked.placeOf w.scopes e)
  | .node span kind, w => by
      cases kind with
      | ident name =>
          simp only [placeOf, Checked.placeOf]
          exact (namedPlace_stays name).at' span
      | paren e =>
          simp only [placeOf, Checked.placeOf]
          exact (placeOf_stays e w).at' span
      | index container key =>
          simp only [placeOf, Checked.placeOf]
          exact (indexPlace_stays (operand_stays container w) (operand_stays key w)).at' span
      | selector base field =>
          simp only [placeOf, Checked.placeOf]
          exact (selectorPlace_stays (placeOf_stays base w) field).at' span
      | _ =>
          simp only [placeOf, Checked.placeOf]
          exact (Agrees.fail _).at' span

/-- Expressions as places. -/
theorem placesOf_stays : ∀ (es : List Expr) (w : World),
    List.Forall₂ (Stays w) (placesOf es) (Checked.placesOf w.scopes es)
  | [], w => by
      simp only [placesOf, Checked.placesOf]
      exact .nil
  | e :: rest, w => by
      simp only [placesOf, Checked.placesOf]
      exact .cons (placeOf_stays e w) (placesOf_stays rest w)

/-- A type expression. -/
theorem typeExpr_keeps : ∀ (ty : TypeExpr) (w : World),
    Keeps w (typeExpr ty) (Checked.typeExpr w.scopes ty)
  | .node span kind, w => by
      simp only [typeExpr, Checked.typeExpr]
      exact (typeOfKind_keeps kind w).at' span

/-- A form of type expression. -/
theorem typeOfKind_keeps : ∀ (kind : TypeKind) (w : World),
    Keeps w (typeOfKind kind) (Checked.typeOfKind w.scopes kind)
  | .named name, w => by
      simp only [typeOfKind, Checked.typeOfKind]
      exact namedType_keeps name
  | .qualified package name, w => by
      simp only [typeOfKind, Checked.typeOfKind]
      exact .fail _
  | .slice elem, w => by
      simp only [typeOfKind, Checked.typeOfKind]
      exact .bind (typeExpr_keeps elem w) fun _ _ => build_agrees _
  | .array length elem, w => by
      simp only [typeOfKind, Checked.typeOfKind]
      exact .bind (operand_stays length w) fun op _ => .bind (arrayLength_keeps op) fun _ _ =>
        .bind (typeExpr_keeps elem w) fun _ _ => build_agrees _
  | .map key value, w => by
      simp only [typeOfKind, Checked.typeOfKind]
      exact .bind (typeExpr_keeps key w) fun _ _ => .bind (typeExpr_keeps value w) fun _ _ =>
        build_agrees _
  | .pointer elem, w => by
      simp only [typeOfKind, Checked.typeOfKind]
      exact .bind (typeExpr_keeps elem w) fun _ _ => build_agrees _
  | .func sig, w => by
      simp only [typeOfKind, Checked.typeOfKind]
      exact .bind (heading_agrees sig w) fun _ _ => build_agrees _
  | .struct fields, w => by
      simp only [typeOfKind, Checked.typeOfKind]
      exact .bind (fieldTypes_keeps fields w) fun _ _ => build_agrees _
  | .interface methods, w => by
      simp only [typeOfKind, Checked.typeOfKind]
      exact .bind (methodTypes_keeps methods w) fun _ _ => build_agrees _

/-- An optional type expression. -/
theorem typeExpr?_keeps : ∀ (ty : Option TypeExpr) (w : World),
    Keeps w (typeExpr? ty) (Checked.typeExpr? w.scopes ty)
  | none, w => by
      simp only [typeExpr?, Checked.typeExpr?]
      exact .pure trivial
  | some ty, w => by
      simp only [typeExpr?, Checked.typeExpr?]
      exact (typeExpr_keeps ty w).map fun _ _ => trivial

/-- Types of struct fields. -/
theorem fieldTypes_keeps : ∀ (fields : List FieldDecl) (w : World),
    Keeps w (fieldTypes fields) (Checked.fieldTypes w.scopes fields)
  | [], w => by
      simp only [fieldTypes, Checked.fieldTypes]
      exact .pure trivial
  | .mk name ty embedded :: rest, w => by
      simp only [fieldTypes, Checked.fieldTypes]
      exact .bind (typeExpr_keeps ty w) fun _ _ => .bind (fieldTypes_keeps rest w) fun _ _ =>
        .pure trivial

/-- Types of interface methods. -/
theorem methodTypes_keeps : ∀ (methods : List MethodSpec) (w : World),
    Keeps w (methodTypes methods) (Checked.methodTypes w.scopes methods)
  | [], w => by
      simp only [methodTypes, Checked.methodTypes]
      exact .pure trivial
  | .mk name sig :: rest, w => by
      simp only [methodTypes, Checked.methodTypes]
      exact .bind (heading_agrees sig w) fun _ _ => .bind (build_agrees _) fun _ _ =>
        .bind (methodTypes_keeps rest w) fun _ _ => .pure trivial

/-- A signature, whose names the heading keeps. -/
theorem heading_agrees : ∀ (sig : Sig) (w : World),
    Agrees w (heading sig) (Checked.heading w.scopes sig) w (Names none sig none)
  | .mk params results variadic, w => by
      simp only [heading, Checked.heading]
      exact .bind (paramTypes_agrees params variadic w) fun ps hps =>
        .bind (paramTypes_agrees results false w) fun rs hrs => .pure ⟨rfl, hps, hrs⟩

/-- Types of parameters, whose names stay. -/
theorem paramTypes_agrees : ∀ (params : List Param) (variadic : Bool) (w : World),
    Agrees w (paramTypes variadic params) (Checked.paramTypes w.scopes variadic params) w
      fun ps => ps.map Prod.fst = params.map Param.name
  | [], variadic, w => by
      simp only [paramTypes, Checked.paramTypes]
      exact .pure rfl
  | .mk name ty :: rest, variadic, w => by
      simp only [paramTypes, Checked.paramTypes]
      refine .bind (typeExpr_keeps ty w) fun t _ => .bind (paramType_keeps _ t) fun t _ =>
        .bind (paramTypes_agrees rest variadic w) fun ps hps => .pure ?_
      rw [List.map_cons, hps, List.map_cons, Param.name]

/-- A statement. -/
theorem tree_agrees : ∀ (s : Stmt) (inLoop : Bool) (l : Level) (w : World),
    Agrees (w.push l) (tree inLoop s) (Checked.tree l w.scopes inLoop s) (w.push (s.after l))
      (w.push (s.after l)).Covers
  | .node span kind, inLoop, l, w => by
      simp only [tree, Checked.tree, Stmt.after]
      exact (treeOf_agrees kind inLoop l w).at' span

/-- A form of statement. -/
theorem treeOf_agrees : ∀ (kind : StmtKind) (inLoop : Bool) (l : Level) (w : World),
    Agrees (w.push l) (treeOf inLoop kind) (Checked.treeOf l w.scopes inLoop kind)
      (w.push (kind.after l)) (w.push (kind.after l)).Covers
  | .expr e, inLoop, l, w => by
      simp only [treeOf, Checked.treeOf, StmtKind.after]
      exact .bind (operand_stays e (w.push l)) fun op hop => .pure (act_covers (discard_covers hop))
  | .assign lhs rhs, inLoop, l, w => by
      simp only [treeOf, Checked.treeOf, StmtKind.after]
      have hplaces := steady_of fun n => temporaries_scopes w l n ▸ placesOf_stays lhs _
      have hvalues := steady_of fun n => temporaries_scopes w l n ▸ operands_stays rhs _
      have hassign := assign_agrees hplaces hvalues
      rw [placesOf_length, operands_length] at hassign
      refine .bind hassign fun is his => ?_
      rw [his.2]
      exact .pure (act_covers his.1)
  | .opAssign op lhs rhs, inLoop, l, w => by
      simp only [treeOf, Checked.treeOf, StmtKind.after]
      exact .bind (update_stays op (placeOf_stays lhs (w.push l)) (operand_stays rhs (w.push l)))
        fun i hi => .pure (actOne_covers hi)
  | .define names values, inLoop, l, w => by
      simp only [treeOf, Checked.treeOf, StmtKind.after]
      exact .bind (declareValues_agrees names none true (operands_stays values (w.push l)))
        fun i hi => declared_agrees hi
  | .var (.mk names ty values _), inLoop, l, w => by
      rw [treeOf, Checked.treeOf, StmtKind.after, declare, bind_assoc]
      refine .bind (typeExpr?_keeps ty (w.push l)) fun declared _ => ?_
      cases values with
      | nil => exact .bind (declareZeros_agrees names declared) fun i hi => declared_agrees hi
      | cons value rest =>
          exact .bind (declareValues_agrees names declared false
            (.cons (operand_stays value (w.push l)) (operands_stays rest (w.push l))))
            fun i hi => declared_agrees hi
  | .incDec target increment, inLoop, l, w => by
      simp only [treeOf, Checked.treeOf, StmtKind.after]
      exact .bind (step_stays (placeOf_stays target (w.push l)) increment) fun i hi =>
        .pure (actOne_covers hi)
  | .cond test body otherwise, inLoop, l, w => by
      simp only [treeOf, Checked.treeOf, StmtKind.after]
      refine .bind (condition_stays (operand_stays test (w.push l))) fun e he =>
        .bind (withBlock_agrees (blockTree_agrees body inLoop l.nested w)) fun t ht =>
          elseTree_agrees otherwise inLoop _ w (he.mono (w.push_le ?_)) ht
      exact Level.le_after_block body l.nested
  | .loop init test post body, inLoop, l, w => by
      simp only [treeOf, Checked.treeOf, StmtKind.after]
      refine withBlock_agrees (.bind (optionalTree_agrees init inLoop l.nested w) fun i hi =>
        .bind (condition?_stays (operand?_stays test (w.push (afterOptional l.nested init))))
          fun e he => .bind (withBlock_agrees
            (blockTree_agrees body true (afterOptional l.nested init).nested w)) fun t ht =>
              .bind (optionalTree_agrees post inLoop _ w) fun p hp => .pure ?_)
      have hpost := w.push_le (Level.le_after_optional post
        (body.after (afterOptional l.nested init).nested).unnested)
      have hbody : (w.push (afterOptional l.nested init)).Le
          (w.push (body.after (afterOptional l.nested init).nested).unnested) :=
        w.push_le (Level.le_after_block body (afterOptional l.nested init).nested)
      refine World.admits_append.2 ⟨(hi.mono hbody).mono hpost, World.admits_append.2 ⟨?_,
        World.admits_append.2 ⟨ht.mono hpost, hp⟩⟩⟩
      exact World.admits_partsOf?.2 ((he.mono hbody).mono hpost)
  | .break, inLoop, l, w => by
      simp only [treeOf, Checked.treeOf, StmtKind.after]
      exact .ite (fun _ => .pure World.admits_nil) fun _ => .fail _
  | .continue, inLoop, l, w => by
      simp only [treeOf, Checked.treeOf, StmtKind.after]
      exact .ite (fun _ => .pure World.admits_nil) fun _ => .fail _
  | .return values, inLoop, l, w => by
      simp only [treeOf, Checked.treeOf, StmtKind.after]
      exact .bind (returnStmt_stays (operands_stays values (w.push l))) fun i hi =>
        .pure (actOne_covers hi)
  | .block body, inLoop, l, w => by
      simp only [treeOf, Checked.treeOf, StmtKind.after]
      exact withBlock_agrees (blockTree_agrees body inLoop l.nested w)

/-- A conditional statement. -/
theorem elseTree_agrees : ∀ (s : Option Stmt) (inLoop : Bool) (l : Level) (w : World)
    {e : Code.Expr} {t : Tree}, (w.push l).Covers e → (w.push l).Covers t →
    Agrees (w.push l) (elseTree inLoop e t s) (Checked.elseTree l w.scopes inLoop e t s)
      (w.push (afterOptional l s)) (w.push (afterOptional l s)).Covers
  | none, inLoop, l, w, e, t, he, ht => by
      simp only [elseTree, Checked.elseTree, afterOptional]
      exact .pure (World.admits_append.2 ⟨he, ht⟩)
  | some s, inLoop, l, w, e, t, he, ht => by
      simp only [elseTree, Checked.elseTree, afterOptional]
      have hle := w.push_le (Level.le_after s l)
      exact .bind (tree_agrees s inLoop l w) fun t' ht' => .pure (World.admits_append.2
        ⟨he.mono hle, World.admits_append.2 ⟨ht.mono hle, ht'⟩⟩)

/-- An optional statement. -/
theorem optionalTree_agrees : ∀ (s : Option Stmt) (inLoop : Bool) (l : Level) (w : World),
    Agrees (w.push l) (optionalTree inLoop s) (Checked.optionalTree l w.scopes inLoop s)
      (w.push (afterOptional l s)) (w.push (afterOptional l s)).Covers
  | none, inLoop, l, w => by
      simp only [optionalTree, Checked.optionalTree, afterOptional]
      exact .pure World.admits_nil
  | some s, inLoop, l, w => by
      simp only [optionalTree, Checked.optionalTree, afterOptional]
      exact tree_agrees s inLoop l w

/-- A block. -/
theorem blockTree_agrees : ∀ (b : Block) (inLoop : Bool) (l : Level) (w : World),
    Agrees (w.push l) (blockTree inLoop b) (Checked.blockTree l w.scopes inLoop b)
      (w.push (b.after l)) (w.push (b.after l)).Covers
  | .mk stmts _, inLoop, l, w => by
      simp only [blockTree, Checked.blockTree, Block.after]
      exact treesOf_agrees stmts inLoop l w

/-- Statements in order. -/
theorem treesOf_agrees : ∀ (stmts : List Stmt) (inLoop : Bool) (l : Level) (w : World),
    Agrees (w.push l) (treesOf inLoop stmts) (Checked.treesOf l w.scopes inLoop stmts)
      (w.push (afterAll l stmts)) (w.push (afterAll l stmts)).Covers
  | [], inLoop, l, w => by
      simp only [treesOf, Checked.treesOf, afterAll]
      exact .pure World.admits_nil
  | s :: rest, inLoop, l, w => by
      simp only [treesOf, Checked.treesOf, afterAll]
      refine .bind (tree_agrees s inLoop l w) fun t ht =>
        .bind (treesOf_agrees rest inLoop (s.after l) w) fun t' ht' =>
          .pure (World.admits_append.2 ⟨ht.mono (w.push_le ?_), ht'⟩)
      exact Level.le_after_all rest (s.after l)

end

end Compile

end ScriptCore
