import ScriptCore.Proofs.Control.Placed

/-!
# Trees of syntax are well formed

Simple statements compile to instructions that neither jump nor branch, all but `return` to
instructions that go on with the next one, and `break` and `continue` are refused outside of loops.
These are facts about the result of a step of the compilation, whatever state it starts from
(`Compile.Gives`); a step has them if what it returns last has them.

Main statements: `Compile.tree_wellFormed` and `Compile.routine_wellFormed`.
-/

namespace ScriptCore

/-- A computation that may fail gives only results with a property. -/
def Yields {α ε : Type} (P : α → Prop) (e : Except ε α) : Prop :=
  ∀ a, e = .ok a → P a

namespace Yields

variable {α β ε : Type} {P : α → Prop} {Q : β → Prop}

/-- A result. -/
theorem ok {a : α} (h : P a) : Yields P (.ok a : Except ε α) := by
  rintro b ⟨⟩
  exact h

/-- A failure. -/
theorem error (e : ε) : Yields P (.error e : Except ε α) := by
  rintro a ⟨⟩

/-- What comes last decides. -/
theorem bind {e : Except ε β} {f : β → Except ε α} (h : ∀ b, Yields P (f b)) :
    Yields P (e >>= f) := by
  cases e with
  | error e => exact .error e
  | ok b => exact h b

end Yields

/-- Instructions that go on with the next one. -/
def Code.Instr.goesOn : Instr → Bool
  | .jump _ | .branch _ _ | .ret _ | .retCall _ => false
  | _ => true

/-- What goes on does not jump. -/
theorem Code.Instr.isPlain_of_goesOn {i : Instr} (h : i.goesOn = true) : i.isPlain = true := by
  cases i <;> first | rfl | cases h

/-- Plain instructions. -/
def Code.Plain (is : List Code.Instr) : Prop :=
  ∀ i ∈ is, i.isPlain = true

namespace Code.Plain

/-- No instruction. -/
theorem nil : Plain [] := by
  intro i hi
  cases hi

/-- One instruction more. -/
theorem cons {i : Instr} {is : List Instr} (hi : i.isPlain = true) (his : Plain is) :
    Plain (i :: is) := by
  intro j hj
  rcases List.mem_cons.1 hj with rfl | hj
  · exact hi
  · exact his j hj

/-- One instruction. -/
theorem one {i : Instr} (hi : i.isPlain = true) : Plain [i] :=
  cons hi nil

/-- Instructions after others. -/
theorem append {is js : List Instr} (his : Plain is) (hjs : Plain js) : Plain (is ++ js) := by
  intro i hi
  rcases List.mem_append.1 hi with hi | hi
  · exact his i hi
  · exact hjs i hi

end Code.Plain

/-- Instructions each of which goes on with the next one. -/
def Code.GoOn (is : List Code.Instr) : Prop :=
  ∀ i ∈ is, i.goesOn = true

/-- Instructions that go on are plain. -/
theorem Code.GoOn.plain {is : List Instr} (h : GoOn is) : Plain is :=
  fun i hi => Instr.isPlain_of_goesOn (h i hi)

namespace Place

variable {t : TypeTable} {p : Place}

/-- A constant is assigned by an instruction that goes on. -/
theorem setConst_goesOn (c : Constant) :
    Yields (fun i => Code.Instr.goesOn i = true) (p.setConst t c) := by
  unfold setConst
  split
  · refine .bind fun d => ?_
    split
    · exact .ok rfl
    · exact .error _
  all_goals first | exact .bind fun v => .ok rfl | skip
  split
  · exact .error _
  · split
    · exact .ok rfl
    · exact .bind fun v => .ok rfl

/-- The value of an expression is assigned by an instruction that goes on. -/
theorem setExpr_goesOn (e : Code.Typed) :
    Yields (fun i => Code.Instr.goesOn i = true) (p.setExpr t e) := by
  unfold setExpr
  dsimp only
  split <;> first | exact .ok rfl | exact .error _ | skip
  all_goals
    split
    · exact .error _
    · exact .ok rfl

/-- An operand is assigned by an instruction that goes on. -/
theorem set_goesOn (op : Operand) :
    Yields (fun i => Code.Instr.goesOn i = true) (p.set t op) := by
  unfold set
  split
  · exact setConst_goesOn _
  · exact .bind fun _ => setConst_goesOn _
  · exact .bind fun e => setExpr_goesOn e

/-- An operator is applied in place by an instruction that goes on. -/
theorem setOp_goesOn (op : BinaryOp) (e : Code.Typed) :
    Yields (fun i => Code.Instr.goesOn i = true) (p.setOp t op e) := by
  unfold setOp
  dsimp only
  split
  · exact .error _
  · split
    · split
      · exact .ok rfl
      · exact .error _
    · split
      · exact .ok rfl
      · exact .error _

end Place

namespace Compile

variable {α β : Type} {P : α → Prop} {Q : β → Prop}

/-- A step gives only results with a property. -/
def Gives (P : α → Prop) (step : Compile α) : Prop :=
  ∀ c, Yields (fun r => P r.1) (step c)

namespace Gives

/-- A result. -/
theorem pure {a : α} (h : P a) : Gives P (Pure.pure a : Compile α) :=
  fun _ => .ok h

/-- A failure. -/
theorem fail (f : Fault) : Gives P (Compile.fail f : Compile α) :=
  fun _ => .error _

/-- What comes last decides. -/
theorem bind {step : Compile β} {f : β → Compile α} (h : ∀ b, Gives P (f b)) :
    Gives P (step >>= f) :=
  fun _ => .bind fun r => h r.1 r.2

/-- What comes last decides, knowing what came before. -/
theorem bind_of {step : Compile β} {f : β → Compile α} (hstep : Gives Q step)
    (h : ∀ b, Q b → Gives P (f b)) : Gives P (step >>= f) := by
  intro c
  change Yields _ ((step c).bind fun r => f r.1 r.2)
  cases hc : step c with
  | error e => exact .error e
  | ok r => exact h r.1 (hstep c r hc) r.2

/-- Errors that get a place. -/
theorem at' {step : Compile α} (span : Span) (h : Gives P step) :
    Gives P (Compile.at' span step) := by
  intro c
  unfold Compile.at'
  cases hc : step c with
  | error e => exact .error _
  | ok r => exact .ok (h c r hc)

/-- A rule. -/
theorem rule {f : TypeTable → Except Fault α} (h : ∀ t, Yields P (f t)) :
    Gives P (Compile.rule f) := by
  refine bind fun t => ?_
  cases ht : f t with
  | error e => exact fail e
  | ok a => exact pure (h t a ht)

/-- A step with a block of its own. -/
theorem withBlock {step : Compile α} (h : Gives P step) : Gives P (Compile.withBlock step) :=
  bind fun _ => bind_of h fun _ ha => bind fun _ => pure ha

end Gives

/-! ### Simple statements -/

open Code

/-- An operand is evaluated by instructions that go on. -/
theorem discard_goesOn (op : Operand) : GoOn (discard op) := by
  unfold discard
  split
  · exact List.forall_mem_nil _
  · exact List.forall_mem_singleton.2 rfl
  · exact List.forall_mem_singleton.2 rfl

/-- A value is stored by an instruction that goes on. -/
theorem store_goesOn (place : Place) (op : Operand) :
    Gives (fun i => Instr.goesOn i = true) (store place op) :=
  .rule fun _ => Place.set_goesOn op

/-- A slot is assigned by instructions that go on. -/
theorem assignSlot_goesOn (target : Compile (Option Place)) (ty : Ty) (slot : Nat) :
    Gives GoOn (assignSlot target ty slot) := by
  refine .bind fun place => ?_
  cases place with
  | none => exact .pure (List.forall_mem_nil _)
  | some place =>
      exact .bind fun t => .bind_of (store_goesOn place _) fun i hi =>
        .pure (List.forall_mem_singleton.2 hi)

/-- Slots are assigned by instructions that go on. -/
theorem assignSlots_goesOn (targets : List (Compile (Option Place))) (slots : List (Ty × Nat)) :
    Gives GoOn (assignSlots targets slots) := by
  induction targets generalizing slots with
  | nil => exact .pure (List.forall_mem_nil _)
  | cons target targets ih =>
      cases slots with
      | nil => exact .pure (List.forall_mem_nil _)
      | cons slot rest =>
          exact .bind_of (assignSlot_goesOn target slot.1 slot.2) fun first hfirst =>
            .bind_of (ih rest) fun others hothers =>
              .pure (List.forall_mem_append.2 ⟨hfirst, hothers⟩)

/-- One value is assigned by instructions that go on. -/
theorem assignOne_goesOn (target : Compile (Option Place)) (value : Compile Operand) :
    Gives GoOn (assignOne target value) := by
  refine .bind fun place => .bind fun op => ?_
  cases place with
  | none => exact .bind fun x => .pure (discard_goesOn _)
  | some place =>
      exact .bind_of (store_goesOn place op) fun i hi => .pure (List.forall_mem_singleton.2 hi)

/-- Results of a call are assigned by instructions that go on. -/
theorem assignResults_goesOn (targets : List (Compile (Option Place))) (value : Compile Operand) :
    Gives GoOn (assignResults targets value) := by
  refine .bind fun op => ?_
  cases op with
  | term x => exact .fail _
  | results call types =>
      dsimp only
      split
      · exact .bind fun _ => .bind fun slots =>
          .bind_of (assignSlots_goesOn targets slots) fun is his =>
            .pure (List.forall_mem_cons.2 ⟨rfl, his⟩)
      · exact .bind fun slots =>
          .bind_of (assignSlots_goesOn targets slots) fun is his =>
            .pure (List.forall_mem_cons.2 ⟨rfl, his⟩)

/-- Values are assigned by instructions that go on. -/
theorem assignEach_goesOn (targets : List (Compile (Option Place)))
    (values : List (Compile Operand)) : Gives GoOn (assignEach targets values) := by
  unfold assignEach
  split
  · exact .bind fun _ => .bind fun staged =>
      .bind_of (assignSlots_goesOn targets _) fun is his =>
        .pure (List.forall_mem_cons.2 ⟨rfl, his⟩)
  · exact .bind fun staged =>
      .bind_of (assignSlots_goesOn targets _) fun is his =>
        .pure (List.forall_mem_cons.2 ⟨rfl, his⟩)

/-- An assignment consists of instructions that go on. -/
theorem assign_goesOn (targets : List (Compile (Option Place))) (values : List (Compile Operand)) :
    Gives GoOn (assign targets values) := by
  unfold assign
  split
  · exact assignOne_goesOn _ _
  · exact assignResults_goesOn _ _
  · exact assignEach_goesOn _ _

/-- An increment is an instruction that goes on. -/
theorem step_goesOn (target : Compile (Option Place)) (increment : Bool) :
    Gives (fun i => Instr.goesOn i = true) (step target increment) :=
  .bind fun _ => .rule fun _ => .bind fun e => Place.setOp_goesOn _ e

/-- An update is an instruction that goes on. -/
theorem update_goesOn (op : BinaryOp) (target : Compile (Option Place)) (value : Compile Operand) :
    Gives (fun i => Instr.goesOn i = true) (update op target value) := by
  refine .bind fun place => .bind fun v => .rule fun t => ?_
  dsimp only
  split
  · exact .bind fun e => Place.setOp_goesOn op e
  · exact .bind fun e => Place.setOp_goesOn op e

/-- A declaration with values is an instruction that goes on. -/
theorem declareValues_goesOn (names : List Name) (declared : Option Ty)
    (values : List (Compile Operand)) (redeclare : Bool) :
    Gives (fun i => Instr.goesOn i = true) (declareValues names declared values redeclare) := by
  refine .bind fun ops => ?_
  split
  · split
    · exact .bind fun _ => .bind fun _ => .pure rfl
    · exact .bind fun _ => .pure rfl
  · split
    · exact .bind fun _ => .bind fun _ => .bind fun _ => .pure rfl
    · exact .bind fun _ => .bind fun _ => .pure rfl

/-- A declaration without values is an instruction that goes on. -/
theorem declareZeros_goesOn (names : List Name) (declared : Option Ty) :
    Gives (fun i => Instr.goesOn i = true) (declareZeros names declared) := by
  cases declared with
  | none => exact .fail _
  | some ty => exact .bind fun _ => .bind fun _ => .pure rfl

/-- A declaration is an instruction that goes on. -/
theorem declare_goesOn (spec : ValueSpec) :
    Gives (fun i => Instr.goesOn i = true) (declare spec) := by
  obtain ⟨names, ty, values, span⟩ := spec
  rw [declare]
  refine .bind fun declared => ?_
  cases values with
  | nil => exact declareZeros_goesOn names declared
  | cons value rest => exact declareValues_goesOn names declared _ false

/-- A return of each value is a plain instruction. -/
theorem returnEach_plain (values : List (Compile Operand)) :
    Gives (fun i => Instr.isPlain i = true) (returnEach values) := by
  refine .bind fun c => ?_
  dsimp only
  split
  · exact .bind fun _ => .bind fun _ => .pure rfl
  · exact .bind fun _ => .pure rfl

/-- A return without values is a plain instruction. -/
theorem returnNothing_plain : Gives (fun i => Instr.isPlain i = true) returnNothing := by
  refine .bind fun c => ?_
  dsimp only
  split
  · exact .pure rfl
  · split
    · exact .pure rfl
    · exact .fail _

/-- A return of the results of a call is a plain instruction. -/
theorem returnResults_plain (value : Compile Operand) :
    Gives (fun i => Instr.isPlain i = true) (returnResults value) := by
  refine .bind fun c => .bind fun op => ?_
  cases op with
  | term x => exact .fail _
  | results call types =>
      dsimp only
      split
      · exact .bind fun _ => .bind fun _ => .pure rfl
      · exact .bind fun _ => .pure rfl

/-- A return is a plain instruction. -/
theorem returnStmt_plain (values : List (Compile Operand)) :
    Gives (fun i => Instr.isPlain i = true) (returnStmt values) := by
  unfold returnStmt
  split
  · exact returnNothing_plain
  · refine .bind fun c => ?_
    split
    · exact returnEach_plain _
    · exact returnResults_plain _
  · exact returnEach_plain _

/-- A body begins with instructions that go on. -/
theorem enterBody_goesOn (recv : Option (Option Name × Ty)) (h : Heading) :
    Gives GoOn (enterBody recv h) := by
  refine .bind fun _ => .bind fun _ => ?_
  unfold bindResultSlots
  split
  · exact .bind fun _ => .bind fun _ => .bind fun _ => .pure (List.forall_mem_singleton.2 rfl)
  · exact .pure (List.forall_mem_nil _)

/-! ### Headings -/

/-- A heading has the names of its parameters. -/
theorem paramTypes_fst (params : List Param) (variadic : Bool) :
    Gives (fun ps => ps.map Prod.fst = params.map Param.name) (paramTypes variadic params) := by
  induction params with
  | nil =>
      rw [paramTypes]
      exact .pure rfl
  | cons p rest ih =>
      obtain ⟨name, ty⟩ := p
      rw [paramTypes]
      refine .bind fun ty => .bind fun ty => .bind_of ih fun ps hps => .pure ?_
      rw [List.map_cons, List.map_cons, hps]
      rfl

/-- A heading has the names of its signature. -/
theorem heading_fst (sig : Sig) :
    Gives (fun h => h.params.map Prod.fst = sig.params.map Param.name ∧
      h.results.map Prod.fst = sig.results.map Param.name) (heading sig) := by
  obtain ⟨params, results, variadic⟩ := sig
  rw [heading]
  exact .bind_of (paramTypes_fst params variadic) fun ps hps =>
    .bind_of (paramTypes_fst results false) fun rs hrs => .pure ⟨hps, hrs⟩

/-! ### Statements -/

mutual

/-- The tree of a statement is well formed. -/
theorem tree_wellFormed (inLoop : Bool) : ∀ s : Stmt, Gives (Tree.WellFormed inLoop) (tree inLoop s)
  | .node span kind => by
      rw [tree]
      exact .at' span (treeOf_wellFormed inLoop kind)

/-- The tree of a form of statement is well formed. -/
theorem treeOf_wellFormed (inLoop : Bool) :
    ∀ kind : StmtKind, Gives (Tree.WellFormed inLoop) (treeOf inLoop kind)
  | .expr e => by
      rw [treeOf]
      exact .bind fun op => .pure (discard_goesOn op).plain
  | .assign lhs rhs => by
      rw [treeOf]
      exact .bind_of (assign_goesOn _ _) fun is his => .pure his.plain
  | .opAssign op lhs rhs => by
      rw [treeOf]
      exact .bind_of (update_goesOn _ _ _) fun i hi =>
        .pure (Plain.one (Instr.isPlain_of_goesOn hi))
  | .define names values => by
      rw [treeOf]
      exact .bind_of (declareValues_goesOn _ _ _ _) fun i hi =>
        .pure (Plain.one (Instr.isPlain_of_goesOn hi))
  | .var spec => by
      rw [treeOf]
      exact .bind_of (declare_goesOn spec) fun i hi =>
        .pure (Plain.one (Instr.isPlain_of_goesOn hi))
  | .incDec target increment => by
      rw [treeOf]
      exact .bind_of (step_goesOn _ _) fun i hi =>
        .pure (Plain.one (Instr.isPlain_of_goesOn hi))
  | .cond test body otherwise => by
      rw [treeOf]
      exact .bind fun e => .bind_of (.withBlock (blockTree_wellFormed inLoop body)) fun t ht =>
        elseTree_wellFormed inLoop e t ht otherwise
  | .loop init test post body => by
      rw [treeOf]
      exact .withBlock (.bind_of (optionalTree_wellFormed inLoop init) fun i hi => .bind fun e =>
        .bind_of (.withBlock (blockTree_wellFormed true body)) fun t ht =>
          .bind_of (optionalTree_wellFormed inLoop post) fun p hp => .pure ⟨hi, hp, ht⟩)
  | .break => by
      rw [treeOf]
      split
      · next hloop => exact .pure hloop
      · exact .fail _
  | .continue => by
      rw [treeOf]
      split
      · next hloop => exact .pure hloop
      · exact .fail _
  | .return values => by
      rw [treeOf]
      exact .bind_of (returnStmt_plain _) fun i hi => .pure (Plain.one hi)
  | .block body => by
      rw [treeOf]
      exact .withBlock (blockTree_wellFormed inLoop body)

/-- A conditional statement is well formed if its first branch is. -/
theorem elseTree_wellFormed (inLoop : Bool) (e : Code.Expr) (t : Tree)
    (ht : t.WellFormed inLoop) :
    ∀ otherwise : Option Stmt, Gives (Tree.WellFormed inLoop) (elseTree inLoop e t otherwise)
  | none => by
      rw [elseTree]
      exact .pure ht
  | some s => by
      rw [elseTree]
      exact .bind_of (tree_wellFormed inLoop s) fun u hu => .pure ⟨ht, hu⟩

/-- The tree of an optional statement is well formed. -/
theorem optionalTree_wellFormed (inLoop : Bool) :
    ∀ s : Option Stmt, Gives (Tree.WellFormed inLoop) (optionalTree inLoop s)
  | none => by
      rw [optionalTree]
      exact .pure Plain.nil
  | some s => by
      rw [optionalTree]
      exact tree_wellFormed inLoop s

/-- The tree of a block is well formed. -/
theorem blockTree_wellFormed (inLoop : Bool) :
    ∀ b : Block, Gives (Tree.WellFormed inLoop) (blockTree inLoop b)
  | .mk stmts _ => by
      rw [blockTree]
      exact treesOf_wellFormed inLoop stmts

/-- The tree of statements is well formed. -/
theorem treesOf_wellFormed (inLoop : Bool) :
    ∀ stmts : List Stmt, Gives (Tree.WellFormed inLoop) (treesOf inLoop stmts)
  | [] => by
      rw [treesOf]
      exact .pure Plain.nil
  | s :: rest => by
      rw [treesOf]
      exact .bind_of (tree_wellFormed inLoop s) fun first hfirst =>
        .bind_of (treesOf_wellFormed inLoop rest) fun others hothers =>
          .pure ⟨hfirst, hothers⟩

end

/-- A body begins with plain instructions, and its statements are well formed outside of loops. -/
theorem routine_wellFormed (recv : Option (Option Name × Ty)) (h : Heading) (content : Block) :
    Gives (fun p => Plain p.entry ∧ p.body.WellFormed false) (routine recv h content) :=
  .bind_of (enterBody_goesOn recv h) fun _ hentry =>
    .bind_of (.withBlock (blockTree_wellFormed false content)) fun _ ht =>
      .bind fun _ => .bind fun _ => .pure ⟨hentry.plain, ht⟩

end Compile

end ScriptCore
