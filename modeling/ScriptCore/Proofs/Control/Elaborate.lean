import ScriptCore.Compile.Syntax
import ScriptCore.Proofs.Control.Structured

/-!
# From syntax to structured code and on to labels

The syntax of a body is read once more, this time into a tree: names are resolved and types are
checked as before, but control flow stays as it is written (`Compile.tree`).  Writing the tree down
with labels and jumps (`Tree.write`) is a second step that looks at nothing but the tree.  The
compilation of statements is the one step after the other.

Main statements: `statement_eq` and `assembled_bodyOf`.
-/

namespace ScriptCore

/-- Leave for a label unless the condition of a loop holds. -/
def Assembly.branchOn (k : Assembly) (test : Option Code.Expr) (label : Nat) : Assembly :=
  test.elim k fun e => k.push (.branch e label)

/-- Write a statement down with labels and jumps. -/
def Tree.write : Tree → Assembly → Assembly
  | .act is, k => k.pushAll is
  | .seq first rest, k => rest.write (first.write k)
  | .ifThen e body, k =>
    let (skip, k) := k.newLabel
    (body.write (k.push (.branch e skip))).place skip
  | .ifElse e body otherwise, k =>
    let (skip, k) := k.newLabel
    let (done, k) := (body.write (k.push (.branch e skip))).newLabel
    (otherwise.write ((k.push (.jump done)).place skip)).place done
  | .loop init test post body, k =>
    let (top, k) := (init.write k).newLabel
    let (exit, k) := (k.place top).newLabel
    let (again, k) := k.newLabel
    let k := body.write ((k.branchOn test exit).enterLoop ⟨exit, again⟩)
    ((post.write (k.leaveLoop.place again)).push (.jump top)).place exit
  | .leave, k => (k.loops.head?).elim k fun l => k.push (.jump l.exit)
  | .next, k => (k.loops.head?).elim k fun l => k.push (.jump l.next)

/-- Write a body down. -/
def Routine.write (p : Routine) (k : Assembly) : Assembly :=
  (p.body.write (k.pushAll p.entry)).push p.ending.instr

namespace Compile

/-- What falling off the end of a body returns. -/
def endingOf (t : TypeTable) (f : Frame) : Ending :=
  match f.namedResults with
  | some slots => .named slots
  | none => .zeros (f.results.map t.zero)

/-- The condition of a loop. -/
def condition? : Option (Compile Operand) → Compile (Option Code.Expr)
  | none => return none
  | some test => some <$> condition test

mutual

/-- A statement as a tree; `inLoop` tells whether there is a loop to leave. -/
def tree (inLoop : Bool) : Stmt → Compile Tree
  | .node span kind => at' span (treeOf inLoop kind)

/-- A form of statement as a tree. -/
def treeOf (inLoop : Bool) : StmtKind → Compile Tree
  | .expr e => do return .act (discard (← operand e))
  | .assign lhs rhs => do return .act (← assign (placesOf lhs) (operands rhs))
  | .opAssign op lhs rhs => do return .act [← update op (placeOf lhs) (operand rhs)]
  | .define names values => do
    return .act [← declareValues names none (operands values) true]
  | .var spec => do return .act [← declare spec]
  | .incDec target increment => do return .act [← step (placeOf target) increment]
  | .cond test body otherwise => do
    let e ← condition (operand test)
    let t ← withBlock (blockTree inLoop body)
    elseTree inLoop e t otherwise
  | .loop init test post body =>
    withBlock do
      let i ← optionalTree inLoop init
      let e ← condition? (operand? test)
      let t ← withBlock (blockTree true body)
      let p ← optionalTree inLoop post
      return .loop i e p t
  | .break => if inLoop then return .leave else fail (.branchOutsideLoop "break")
  | .continue => if inLoop then return .next else fail (.branchOutsideLoop "continue")
  | .return values => do return .act [← returnStmt (operands values)]
  | .block body => withBlock (blockTree inLoop body)

/-- A conditional statement from its condition, its body and an optional statement. -/
def elseTree (inLoop : Bool) (e : Code.Expr) (t : Tree) : Option Stmt → Compile Tree
  | none => return .ifThen e t
  | some s => do return .ifElse e t (← tree inLoop s)

/-- An optional statement as a tree. -/
def optionalTree (inLoop : Bool) : Option Stmt → Compile Tree
  | none => return .act []
  | some s => tree inLoop s

/-- A block as a tree. -/
def blockTree (inLoop : Bool) : Block → Compile Tree
  | .mk stmts _ => treesOf inLoop stmts

/-- Statements in order as a tree. -/
def treesOf (inLoop : Bool) : List Stmt → Compile Tree
  | [] => return .act []
  | s :: rest => do
    let first ← tree inLoop s
    return .seq first (← treesOf inLoop rest)

end

/-- The body of a function without labels. -/
def routine (recv : Option (Option Name × Ty)) (h : Heading) (content : Block) :
    Compile Routine := do
  let entry ← enterBody recv h
  let t ← withBlock (blockTree false content)
  return ⟨entry, t, endingOf (← types) (← get).frame⟩

/-! ### Writing keeps the loops -/

end Compile

namespace Assembly

/-- An instruction changes no loop. -/
@[simp] theorem push_loops (k : Assembly) (i : Code.Instr) : (k.push i).loops = k.loops := rfl

/-- A new label changes no loop. -/
@[simp] theorem newLabel_loops (k : Assembly) : k.newLabel.2.loops = k.loops := rfl

/-- A bound label changes no loop. -/
@[simp] theorem place_loops (k : Assembly) (label : Nat) : (k.place label).loops = k.loops := rfl

/-- A loop that is entered is the innermost one. -/
@[simp] theorem enterLoop_loops (k : Assembly) (l : LoopLabels) :
    (k.enterLoop l).loops = l :: k.loops := rfl

/-- A loop that is left is no longer there. -/
@[simp] theorem leaveLoop_loops (k : Assembly) : k.leaveLoop.loops = k.loops.tail := rfl

/-- A branch changes no loop. -/
@[simp] theorem branchOn_loops (k : Assembly) (test : Option Code.Expr) (label : Nat) :
    (k.branchOn test label).loops = k.loops := by
  cases test <;> rfl

/-- Instructions change no loop. -/
@[simp] theorem pushAll_loops (k : Assembly) (is : List Code.Instr) :
    (k.pushAll is).loops = k.loops := by
  induction is generalizing k with
  | nil => rfl
  | cons i is ih => rw [pushAll_cons, ih, push_loops]

end Assembly

/-- A statement that is written down leaves every loop it enters. -/
@[simp] theorem Tree.write_loops (t : Tree) (k : Assembly) : (t.write k).loops = k.loops := by
  induction t generalizing k with
  | act is => exact Assembly.pushAll_loops k is
  | seq first rest ihFirst ihRest => rw [write, ihRest, ihFirst]
  | ifThen e body ih => simp [write, ih]
  | ifElse e body otherwise ihBody ihOtherwise => simp [write, ihBody, ihOtherwise]
  | loop init test post body ihInit ihPost ihBody =>
      simp [write, ihInit, ihPost, ihBody]
  | leave => cases h : k.loops <;> simp [write, h]
  | next => cases h : k.loops <;> simp [write, h]

namespace Compile

/-! ### Compilation is elaboration and writing -/

/-- Elaborate, then write down. -/
def written (build : Bool → Compile Tree) : Emit Unit := fun k => do
  let t ← build (!k.loops.isEmpty)
  return ((), t.write k)

variable {α β : Type} {build other : Bool → Compile Tree}

/-- What is done with a result has no errors of its own to place. -/
theorem at'_bind_pure (span : Span) (a : Compile α) (f : α → β) :
    (at' span do return f (← a)) = do return f (← at' span a) := by
  funext c
  change at' span (fun c => (a c).bind fun r => .ok (f r.1, r.2)) c =
    (at' span a c).bind fun r => .ok (f r.1, r.2)
  unfold at'
  dsimp only
  cases a c <;> rfl

/-- Steps that add code, one after the other. -/
theorem emit_bind (a : Emit α) (f : α → Emit β) (k : Assembly) :
    (a >>= f) k = a k >>= fun p => f p.1 p.2 := rfl

/-- A step that adds no code. -/
theorem emit_lift (a : Compile α) (k : Assembly) :
    (liftM a : Emit α) k = a >>= fun x => pure (x, k) := rfl

/-- A change of the code. -/
theorem emit_modify (f : Assembly → Assembly) (k : Assembly) :
    (modify f : Emit Unit) k = pure ((), f k) := rfl

/-- A change of the code with a result. -/
theorem emit_modifyGet (f : Assembly → α × Assembly) (k : Assembly) :
    (modifyGet f : Emit α) k = pure (f k) := rfl

/-- Elaborated in a block, it is written down as before. -/
theorem inBlock_written :
    inBlock (written build) = written fun inLoop => withBlock (build inLoop) := by
  funext k
  simp only [inBlock, withBlock, written, bind_assoc, pure_bind]

/-- Instructions of a simple statement. -/
theorem all_eq_written (step : Compile (List Code.Instr)) :
    (do Emit.all (← step)) = written fun _ => do return .act (← step) := by
  funext k
  simp only [written, Emit.all, emit_bind, emit_lift, emit_modify, bind_assoc, pure_bind]
  rfl

/-- The instruction of a simple statement. -/
theorem one_eq_written (step : Compile Code.Instr) :
    (do Emit.one (← step)) = written fun _ => do return .act [← step] := by
  funext k
  simp only [written, Emit.one, emit_bind, emit_lift, emit_modify, bind_assoc, pure_bind]
  rfl

/-- `break` and `continue` are refused outside of loops. -/
theorem branchOut_written (keyword : String) (label : LoopLabels → Nat) (t : Tree)
    (ht : ∀ k : Assembly, t.write k = (k.loops.head?).elim k fun l => k.push (.jump (label l))) :
    branchOut keyword label =
      written fun inLoop => if inLoop then return t else fail (.branchOutsideLoop keyword) := by
  funext k
  unfold branchOut written
  cases hloops : k.loops with
  | nil =>
      simp only [List.isEmpty_nil, Bool.not_true, Bool.false_eq_true, if_false]
      rfl
  | cons l rest =>
      simp only [List.isEmpty_cons, Bool.not_false, if_true, pure_bind, ht, hloops,
        List.head?_cons, Option.elim_some]
      rfl

/-- Statements one after the other. -/
theorem written_bind :
    (do written build; written other) = written fun inLoop => do
      let first ← build inLoop
      return .seq first (← other inLoop) := by
  funext k
  simp only [written, emit_bind, bind_assoc, pure_bind, Tree.write_loops]
  rfl

/-- A conditional statement without a second branch. -/
theorem ifThenElse_none (test : Compile Operand) :
    ifThenElse test (written build) none = written fun inLoop => do
      let e ← condition test
      return .ifThen e (← withBlock (build inLoop)) := by
  funext k
  simp only [ifThenElse, inBlock_written]
  simp only [written, Emit.newLabel, Emit.one, Emit.place, emit_bind, emit_lift, emit_modify,
    emit_modifyGet, bind_assoc, pure_bind, Assembly.push_loops, Assembly.newLabel_loops]
  rfl

/-- A conditional statement with a second branch. -/
theorem ifThenElse_some (test : Compile Operand) :
    ifThenElse test (written build) (some (written other)) = written fun inLoop => do
      let e ← condition test
      let t ← withBlock (build inLoop)
      return .ifElse e t (← other inLoop) := by
  funext k
  simp only [ifThenElse, inBlock_written]
  simp only [written, Emit.newLabel, Emit.one, Emit.place, emit_bind, emit_lift, emit_modify,
    emit_modifyGet, bind_assoc, pure_bind, Tree.write_loops, Assembly.push_loops,
    Assembly.newLabel_loops, Assembly.place_loops]
  rfl

/-- Code for the condition of a loop. -/
theorem jumpUnless_eq (test : Option (Compile Operand)) (label : Nat) (k : Assembly) :
    jumpUnless test label k = condition? test >>= fun e =>
      pure ((), k.branchOn e label) := by
  cases test with
  | none => rfl
  | some test =>
      simp only [jumpUnless, condition?, Emit.one, emit_bind, emit_lift, emit_modify, bind_assoc,
        pure_bind, map_eq_pure_bind, Assembly.branchOn, Option.elim_some]

/-- A loop. -/
theorem loop_written {init post : Option (Emit Unit)} {i p : Bool → Compile Tree}
    (hinit : optional init = written i) (hpost : optional post = written p)
    (test : Option (Compile Operand)) :
    loop init test post (written build) = written fun inLoop => withBlock do
      let i ← i inLoop
      let e ← condition? test
      let t ← withBlock (build true)
      return .loop i e (← p inLoop) t := by
  rw [← inBlock_written]
  unfold loop
  congr 1
  rw [hinit, hpost, inBlock_written]
  funext k
  simp only [written, Emit.newLabel, Emit.one, Emit.place, emit_bind, emit_modify,
    emit_modifyGet, jumpUnless_eq, bind_assoc, pure_bind, Tree.write_loops,
    Assembly.place_loops, Assembly.newLabel_loops, Assembly.enterLoop_loops,
    Assembly.leaveLoop_loops, Assembly.branchOn_loops, List.isEmpty_cons, List.tail_cons,
    Bool.not_false]
  rfl

/-! ### Statements -/

mutual

/-- A statement is compiled by writing down its tree. -/
theorem statement_eq : ∀ s : Stmt, statement s = written fun inLoop => tree inLoop s
  | .node span kind => by
      funext k
      simp only [statement, tree, Emit.at', statementOf_eq kind, written, at'_bind_pure]

/-- A form of statement is compiled by writing down its tree. -/
theorem statementOf_eq : ∀ kind : StmtKind,
    statementOf kind = written fun inLoop => treeOf inLoop kind
  | .expr e => by
      funext k
      simp only [statementOf, treeOf, written, Emit.all, emit_bind, emit_lift, emit_modify,
        bind_assoc, pure_bind]
      rfl
  | .assign lhs rhs => by
      simp only [statementOf, treeOf]
      exact all_eq_written _
  | .opAssign op lhs rhs => by
      simp only [statementOf, treeOf]
      exact one_eq_written _
  | .define names values => by
      simp only [statementOf, treeOf]
      exact one_eq_written _
  | .var spec => by
      simp only [statementOf, treeOf]
      exact one_eq_written _
  | .incDec target increment => by
      simp only [statementOf, treeOf]
      exact one_eq_written _
  | .cond test body none => by
      simp only [statementOf, statement?, treeOf, elseTree, block_eq body]
      exact ifThenElse_none _
  | .cond test body (some s) => by
      simp only [statementOf, statement?, treeOf, elseTree, block_eq body, statement_eq s]
      exact ifThenElse_some _
  | .loop init test post body => by
      simp only [statementOf, treeOf, block_eq body]
      exact loop_written (statement?_eq init) (statement?_eq post) _
  | .break => by
      simp only [statementOf, treeOf]
      exact branchOut_written _ _ _ fun k => rfl
  | .continue => by
      simp only [statementOf, treeOf]
      exact branchOut_written _ _ _ fun k => rfl
  | .return values => by
      simp only [statementOf, treeOf]
      exact one_eq_written _
  | .block body => by
      simp only [statementOf, treeOf, block_eq body]
      exact inBlock_written

/-- An optional statement is compiled by writing down its tree. -/
theorem statement?_eq : ∀ s : Option Stmt,
    optional (statement? s) = written fun inLoop => optionalTree inLoop s
  | none => by
      simp only [statement?, optionalTree]
      rfl
  | some s => by
      simp only [statement?, optionalTree, statement_eq s]
      rfl

/-- A block is compiled by writing down its tree. -/
theorem block_eq : ∀ b : Block, block b = written fun inLoop => blockTree inLoop b
  | .mk stmts _ => by
      simp only [block, blockTree]
      exact statements_eq stmts

/-- Statements are compiled by writing down their tree. -/
theorem statements_eq : ∀ stmts : List Stmt,
    statements stmts = written fun inLoop => treesOf inLoop stmts
  | [] => by
      simp only [statements, treesOf]
      rfl
  | s :: rest => by
      simp only [statements, treesOf, statement_eq s, statements_eq rest]
      exact written_bind

end

/-- The last instruction returns what falling off the end returns. -/
theorem implicitReturn_eq (t : TypeTable) (f : Frame) :
    implicitReturn t f = (endingOf t f).instr := by
  unfold implicitReturn endingOf
  cases f.namedResults with
  | some slots => rfl
  | none => simp [Ending.instr, Function.comp_def]

/-- The body of a function is compiled by writing down its statements without labels. -/
theorem assembled_bodyOf (recv : Option (Option Name × Ty)) (h : Heading) (content : Block) :
    assembled (bodyOf recv h (block content)) = do
      let p ← routine recv h content
      return (p.write .empty).body (← get).frame.slots := by
  have hloops : (!(Assembly.empty.loops).isEmpty) = false := rfl
  simp only [assembled, bodyOf, block_eq, inBlock_written, StateT.run]
  simp only [routine, written, leaveBody, Emit.all, Emit.one, emit_bind, emit_lift, emit_modify,
    bind_assoc, pure_bind, Routine.write, Assembly.pushAll_loops, hloops, implicitReturn_eq]

end Compile

end ScriptCore
