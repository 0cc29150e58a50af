import ScriptCore.Proofs.Addressing.Agrees
import ScriptCore.Proofs.Control.Agreement
import ScriptCore.Proofs.Dependencies.Views
import ScriptCore.Proofs.Lowering.Syntax
import ScriptCore.Proofs.Results.Written

/-!
# Returns that are compiled

What a body returns is settled when its compilation begins: the types of its results, and their
slots if they have names.  No statement changes it, whatever is compiled inside it.  So every return
of values in the body, with names or without, and what falling off its end returns are of as many
values as the heading has results.

A return that hands on the results of a call is checked by types alone, so how many values it
returns is up to what is called; only the removal of a key, which has no results, is known here.

Main statements: `Compile.IsLocal.returned`, `Compile.returnStmt_returns` and
`Compile.routine_returns`.
-/

namespace ScriptCore

/-- A body that returns so many values, by types and by slots. -/
structure Frame.Declares (f : Frame) (count : Nat) : Prop where
  results : f.results.length = count
  named : ∀ slots ∈ f.namedResults, slots.length = count

/-- It depends on nothing but what the body returns. -/
theorem Frame.Declares.congr {f g : Frame} {count : Nat} (h : f.Declares count)
    (heq : g.returned = f.returned) : g.Declares count := by
  obtain ⟨hresults, hnamed⟩ := Prod.mk.inj heq
  exact ⟨hresults ▸ h.results, hnamed ▸ h.named⟩

namespace Compile

open Code

variable {α β : Type} {count : Nat}

/-! ### Steps inside a body -/

/-- A local step changes nothing but the types and the body being compiled, and only the beginning
of a body changes what that returns. -/
theorem IsLocal.leaves {begins : Bool} {p : Compile α} (h : IsLocal begins p) (c : Compiler) :
    Yields (fun r => c.Alike r.2 ∧ (begins = false → r.2.frame.returned = c.frame.returned))
      (p c) := by
  induction h generalizing c with
  | pure a => exact .ok ⟨.refl c, fun _ => rfl⟩
  | fail f => exact .error _
  | bind _ _ ihp ihf =>
      refine Yields.bind_of (ihp c) fun r hr => (ihf r.1 r.2).imp fun s hs => ?_
      exact ⟨hr.1.trans hs.1, fun hbegins => (hs.2 hbegins).trans (hr.2 hbegins)⟩
  | @at' _ _ p span _ ih =>
      unfold Compile.at'
      cases hp : p c with
      | error e => exact .error _
      | ok r => exact .ok (ih c r hp)
  | look _ _ ih => exact ih c c
  | build b =>
      rw [build_eq]
      rcases b.run.run c.types with ⟨e | r, t⟩
      · exact .error _
      · exact .ok ⟨rfl, fun _ => rfl⟩
  | onFrame f hf => exact .ok ⟨rfl, fun hbegins => hf hbegins c.frame⟩
  | @inFrame _ _ content nested _ ih =>
      rw [inFrame_eq]
      cases hcontent : content (c.entered nested) with
      | error e => exact .error e
      | ok r =>
          obtain ⟨a, inner⟩ := r
          have hinner : (c.entered nested).Alike inner :=
            (ih (c.entered nested) (a, inner) hcontent).1
          refine .ok ⟨?_, fun _ => rfl⟩
          change c.Alike { inner with frame := c.frame, enclosing := c.enclosing }
          unfold Compiler.Alike at hinner ⊢
          rw [hinner]
          rfl

/-- **Inside a body nothing changes what it returns.** -/
theorem IsLocal.returned {p : Compile α} (h : IsLocal false p) (c : Compiler) :
    Yields (fun r => r.2.frame.returned = c.frame.returned) (p c) :=
  (h.leaves c).imp fun _ hr => hr.2 rfl

/-- In a body that returns so many values a step gives only results with a property, and the body
still returns so many. -/
def GivesIn (count : Nat) (P : α → Prop) (step : Compile α) : Prop :=
  ∀ c, c.frame.Declares count → Yields (fun r => P r.1 ∧ r.2.frame.Declares count) (step c)

namespace GivesIn

variable {P : α → Prop} {Q : β → Prop}

/-- A result. -/
theorem pure {a : α} (h : P a) : GivesIn count P (Pure.pure a : Compile α) :=
  fun _ hc => .ok ⟨h, hc⟩

/-- A failure. -/
theorem fail (f : Fault) : GivesIn count P (Compile.fail f : Compile α) :=
  fun _ _ => .error _

/-- One step after another. -/
theorem bind {step : Compile β} {f : β → Compile α} (hstep : GivesIn count Q step)
    (h : ∀ b, Q b → GivesIn count P (f b)) : GivesIn count P (step >>= f) := by
  intro c hc
  change Yields _ ((step c).bind fun r => f r.1 r.2)
  cases hr : step c with
  | error e => exact .error e
  | ok r =>
      obtain ⟨hresult, hframe⟩ := hstep c hc r hr
      exact h r.1 hresult r.2 hframe

/-- Errors that get a place. -/
theorem at' {step : Compile α} (span : Span) (h : GivesIn count P step) :
    GivesIn count P (Compile.at' span step) := by
  intro c hc
  unfold Compile.at'
  cases hr : step c with
  | error e => exact .error _
  | ok r => exact .ok (h c hc r hr)

/-- A look at the body. -/
theorem look {f : Compiler → Compile α}
    (h : ∀ c, c.frame.Declares count → GivesIn count P (f c)) : GivesIn count P (get >>= f) :=
  fun c hc => h c hc c hc

/-- A look at the types. -/
theorem types {f : TypeTable → Compile α} (h : ∀ t, GivesIn count P (f t)) :
    GivesIn count P (Compile.types >>= f) :=
  fun c hc => h c.types c hc

/-- A change of the body that leaves the number of results. -/
theorem updateFrame {f : Frame → Frame}
    (h : ∀ fr : Frame, fr.Declares count → (f fr).Declares count) :
    GivesIn count (fun _ => True) (Compile.updateFrame f) :=
  fun c hc => .ok ⟨trivial, h c.frame hc⟩

/-- A local step that gives only results with the property. -/
theorem of_local {step : Compile α} (hlocal : IsLocal false step)
    (h : ∀ c : Compiler, c.frame.Declares count → Yields (fun r => P r.1) (step c)) :
    GivesIn count P step :=
  fun c hc r hr => ⟨h c hc r hr, hc.congr (hlocal.returned c r hr)⟩

/-- A local step. -/
theorem any {step : Compile α} (hlocal : IsLocal false step) :
    GivesIn count (fun _ => True) step :=
  of_local hlocal fun _ _ _ _ => trivial

/-- A local step that gives only results with the property, in whatever body. -/
theorem of_gives {step : Compile α} (hlocal : IsLocal false step) (h : Gives P step) :
    GivesIn count P step :=
  of_local hlocal fun c _ => h c

/-- A step with a block of its own. -/
theorem withBlock {step : Compile α} (h : GivesIn count P step) :
    GivesIn count P (Compile.withBlock step) :=
  bind (any (.updateFrame Frame.nested fun _ _ => rfl)) fun _ _ =>
    bind h fun _ ha => bind (any (.updateFrame Frame.unnested fun _ _ => rfl)) fun _ _ => pure ha

end GivesIn

/-! ### Return statements -/

/-- Of all calls that stay calls, those that remove a key have no results. -/
def Removes : Operand → Prop
  | .results (.delete _ _) types => types = []
  | _ => True

/-- A call of a function. -/
theorem directCall_removes (name : String) (func : Code.Expr) (s : Signature)
    (recv : Option Code.Expr) (args : List (Compile Operand)) :
    Gives Removes (directCall name func s recv args) := by
  refine .bind fun ops => .bind fun args => .bind fun t => .pure ?_
  rcases s.results with _ | ⟨ty, _ | ⟨ty', rest⟩⟩ <;> trivial

/-- A call of a function value. -/
theorem callOperand_removes (callee : Operand) (args : List (Compile Operand)) :
    Gives Removes (callOperand callee args) :=
  .bind fun _ => .bind fun _ => directCall_removes _ _ _ _ _

/-- A conversion. -/
theorem conversion_removes (ty : Ty) (args : List (Compile Operand)) :
    Gives Removes (conversion ty args) := by
  unfold conversion
  split
  · exact .bind fun _ => .bind fun _ => .bind fun _ => .pure trivial
  · exact .fail _

/-- A call of a builtin function. -/
theorem builtinCall_removes (b : Builtin) (type? : Compile (Option Ty))
    (args : List (Compile Operand)) : Gives Removes (builtinCall b type? args) := by
  have hlength : Gives Removes (lengthCall b args) := by
    unfold lengthCall
    split
    · exact .bind fun _ => .bind fun _ => .pure trivial
    · exact .fail _
  cases b with
  | len => exact hlength
  | cap => exact hlength
  | make =>
      change Gives Removes (makeCall type? args)
      unfold makeCall
      split
      · exact .fail _
      · refine .bind fun ty => ?_
        cases ty with
        | none => exact .fail _
        | some ty => exact .bind fun _ => .bind fun _ => .pure trivial
  | append =>
      change Gives Removes (appendCall args)
      unfold appendCall
      split
      · exact .fail _
      · refine .bind fun base => .bind fun r => .bind fun t => ?_
        split
        · exact .bind fun _ => .pure trivial
        · exact .fail _
  | delete =>
      change Gives Removes (deleteCall args)
      unfold deleteCall
      split
      · refine .bind fun base => .bind fun r => .bind fun t => ?_
        split
        · exact .bind fun _ => .pure rfl
        · exact .fail _
      · exact .fail _

/-- A selector. -/
theorem select_removes (e : Code.Expr) (ty : Ty) (name : Name) :
    Gives Removes (select e ty name) := by
  refine .bind fun c => ?_
  cases c.method? ty name with
  | none => exact .bind fun _ => .pure trivial
  | some m =>
      refine .bind fun t => ?_
      cases t.signature? m.type with
      | none => exact .fail _
      | some s => exact .bind fun _ => .bind fun _ => .pure trivial

/-- A call. -/
theorem call_removes (type? : Compile (Option Ty)) (callee : Callee) (whole : Compile Operand)
    (firstType? : Compile (Option Ty)) (args : List (Compile Operand)) :
    Gives Removes (call type? callee whole firstType? args) := by
  refine .bind fun ty => ?_
  cases ty with
  | some ty => exact conversion_removes ty args
  | none =>
      cases callee with
      | name name =>
          refine .bind fun c => ?_
          split
          · exact builtinCall_removes _ _ _
          · exact .bind fun _ => directCall_removes _ _ _ _ _
          · exact .bind fun _ => callOperand_removes _ _
      | selector baseName base field =>
          refine .bind fun member => ?_
          cases member with
          | some f => exact .bind fun _ => callOperand_removes _ _
          | none =>
              refine .bind fun b => .bind fun r => .bind fun c => ?_
              split
              · exact .bind fun _ => .bind fun _ => directCall_removes _ _ _ _ _
              · exact .bind fun _ => callOperand_removes _ _
      | other => exact .bind fun _ => callOperand_removes _ _

/-- A literal. -/
theorem composite_removes (ty : Ty) (elems : List Element) :
    Gives Removes (composite ty elems) := by
  refine .bind fun t => ?_
  dsimp only
  split
  · exact .bind fun _ => .pure trivial
  · exact .bind fun _ => .pure trivial
  · exact .bind fun _ => .pure trivial
  · exact .bind fun _ => .pure trivial

/-- What a name means. -/
theorem identifier_removes (name : Name) : Gives Removes (identifier name) := by
  refine .bind fun m => ?_
  cases m with
  | var depth slot ty => exact .bind fun _ => .pure trivial
  | func depth slot ty => exact .bind fun _ => .pure trivial
  | const c ty => exact .pure trivial
  | host f => exact .pure trivial
  | type ty => exact .fail _
  | package p => exact .fail _
  | builtin b => exact .fail _

mutual

/-- An expression. -/
theorem operand_removes : ∀ e : Expr, Gives Removes (operand e)
  | .node span kind => by
      rw [operand]
      exact .at' span (operandOf_removes kind)

/-- A form of expression. -/
theorem operandOf_removes : ∀ kind : ExprKind, Gives Removes (operandOf kind)
  | .ident name => by
      rw [operandOf]
      exact identifier_removes name
  | .nil => by
      rw [operandOf]
      exact .pure trivial
  | .bool b => by
      rw [operandOf]
      exact .pure trivial
  | .int i => by
      rw [operandOf]
      exact .pure trivial
  | .float x => by
      rw [operandOf]
      exact .pure trivial
  | .imag x => by
      rw [operandOf]
      exact .pure trivial
  | .str s => by
      rw [operandOf]
      exact .pure trivial
  | .unary op e => by
      rw [operandOf]
      exact .bind fun _ => .bind fun _ => .bind fun _ => .pure trivial
  | .binary op a b => by
      rw [operandOf]
      exact .bind fun _ => .bind fun _ => .bind fun _ => .bind fun _ => .bind fun _ =>
        .pure trivial
  | .call f args => by
      rw [operandOf]
      exact call_removes _ _ _ _ _
  | .index container key => by
      rw [operandOf]
      exact .bind fun _ => .bind fun _ => .bind fun _ => .bind fun _ => .pure trivial
  | .selector base field => by
      rw [operandOf]
      refine .bind fun member => ?_
      cases member with
      | some f => exact .pure trivial
      | none => exact .bind fun _ => .bind fun _ => select_removes _ _ _
  | .paren e => by
      rw [operandOf]
      exact operand_removes e
  | .composite ty elems => by
      rw [operandOf]
      exact .bind fun ty => composite_removes ty _
  | .funcLit sig body => by
      rw [operandOf]
      exact .bind fun _ => .bind fun _ => .bind fun _ => .pure trivial
  | .type ty => by
      rw [operandOf]
      exact .fail _

end

/-- Operands as values of types are as many as the types. -/
theorem convertEach_length {values : List (Compile Operand)} {types : List Ty}
    (h : values.length = types.length) :
    Gives (fun es => es.length = types.length) (convertEach values types) := by
  induction values generalizing types with
  | nil =>
      cases types with
      | nil => exact .pure rfl
      | cons ty rest => cases h
  | cons value values ih =>
      cases types with
      | nil => cases h
      | cons ty rest =>
          refine .bind fun e => .bind_of (ih (Nat.succ.inj h)) fun es hes => .pure ?_
          rw [List.length_cons, List.length_cons, hes]

section
variable {c : Compiler} (hc : c.frame.Declares count)
include hc

/-- As many values are returned as there are results. -/
theorem returnEach_returns (values : List (Compile Operand)) :
    Yields (fun r => r.1.Returns count) (returnEach values c) := by
  rw [returnEach, get_bind]
  dsimp only
  split
  · exact .error _
  · next hlength =>
    have heq : values.length = c.frame.results.length := Decidable.not_not.1 hlength
    refine Gives.bind_of (P := Instr.Returns count) (convertEach_length heq) (fun es hes => ?_) c
    exact .pure (hes.trans hc.results)

/-- Without values the named results are returned, if there are any. -/
theorem returnNothing_returns : Yields (fun r => r.1.Returns count) (returnNothing c) := by
  rw [returnNothing, get_bind]
  cases hnamed : c.frame.namedResults with
  | some slots =>
      have hlength : (loads slots).length = count := by
        rw [loads, List.length_map, hc.named slots hnamed]
      exact .ok hlength
  | none =>
      dsimp only
      split
      · next hempty =>
        have hzero : count = 0 := by rw [← hc.results, List.isEmpty_iff.1 hempty, List.length_nil]
        exact .ok hzero.symm
      · exact .error _

/-- The results of a call are returned.  That of removing a key are none. -/
theorem returnResults_returns {value : Compile Operand} (hvalue : Gives Removes value) :
    Yields (fun r => r.1.Returns count) (returnResults value c) := by
  rw [returnResults, get_bind]
  refine Gives.bind_of (P := Instr.Returns count) hvalue (fun op hop => ?_) c
  cases op with
  | term x => exact .fail _
  | results call types =>
      dsimp only
      split
      · exact fun _ => .error _
      · next hlength =>
        have heq : types.length = c.frame.results.length := Decidable.not_not.1 hlength
        refine .bind fun _ => .pure ?_
        cases call with
        | direct func recv args => trivial
        | delete map key =>
            change types = [] at hop
            change count = 0
            rw [← hc.results, ← heq, hop, List.length_nil]

/-- **A return is of as many values as there are results**, unless it hands on the results of a
call. -/
theorem returnStmt_returns {values : List (Compile Operand)}
    (hvalues : ∀ p ∈ values, Gives Removes p) :
    Yields (fun r => r.1.Returns count) (returnStmt values c) := by
  unfold returnStmt
  split
  · exact returnNothing_returns hc
  · next value =>
    rw [get_bind]
    split
    · exact returnEach_returns hc _
    · exact returnResults_returns hc (hvalues value List.mem_cons_self)
  · exact returnEach_returns hc _

end

/-! ### Statements -/

/-- Operands of expressions. -/
theorem operands_removes : ∀ es : List Expr, ∀ p ∈ operands es, Gives Removes p := by
  intro es
  induction es with
  | nil =>
      rw [operands]
      exact List.forall_mem_nil _
  | cons e es ih =>
      rw [operands]
      exact List.forall_mem_cons.2 ⟨operand_removes e, ih⟩

/-- A condition that may be absent is local. -/
theorem condition?_isLocal {begins : Bool} {test : Option (Compile Operand)}
    (h : ∀ t ∈ test, IsLocal begins t) : IsLocal begins (condition? test) := by
  cases test with
  | none => exact .pure _
  | some t => exact (condition_isLocal (h t rfl)).map _

/-- What goes on returns nothing. -/
theorem act_returns {is : List Instr} (h : GoOn is) (count : Nat) : (Tree.act is).Returns count :=
  fun i hi => Instr.returns_of_goesOn (h i hi) count

/-- A simple statement that goes on. -/
theorem GivesIn.act {step : Compile (List Instr)} (hlocal : IsLocal false step)
    (h : Gives GoOn step) : GivesIn count (Tree.Returns count) (do return .act (← step)) :=
  .bind (.of_gives hlocal h) fun _ his => .pure (act_returns his count)

/-- A simple statement of one instruction that goes on. -/
theorem GivesIn.actOne {step : Compile Instr} (hlocal : IsLocal false step)
    (h : Gives (fun i => i.goesOn = true) step) :
    GivesIn count (Tree.Returns count) (do return .act [← step]) :=
  .bind (.of_gives hlocal h) fun _ hi =>
    .pure (act_returns (List.forall_mem_singleton.2 hi) count)

mutual

/-- A statement. -/
theorem tree_returns (inLoop : Bool) :
    ∀ s : Stmt, GivesIn count (Tree.Returns count) (tree inLoop s)
  | .node span kind => by
      rw [tree]
      exact .at' span (treeOf_returns inLoop kind)

/-- A form of statement. -/
theorem treeOf_returns (inLoop : Bool) :
    ∀ kind : StmtKind, GivesIn count (Tree.Returns count) (treeOf inLoop kind)
  | .expr e => by
      rw [treeOf]
      exact .bind (.any (operand_isLocal e)) fun op _ => .pure (act_returns (discard_goesOn op) count)
  | .assign lhs rhs => by
      rw [treeOf]
      exact .act (assign_isLocal (placesOf_isLocal lhs) (operands_isLocal rhs)) (assign_goesOn _ _)
  | .opAssign op lhs rhs => by
      rw [treeOf]
      exact .actOne (update_isLocal op (placeOf_isLocal lhs) (operand_isLocal rhs))
        (update_goesOn _ _ _)
  | .define names values => by
      rw [treeOf]
      exact .actOne (declareValues_isLocal names none (operands_isLocal values) true)
        (declareValues_goesOn _ _ _ _)
  | .var spec => by
      rw [treeOf]
      exact .actOne (declare_isLocal spec) (declare_goesOn spec)
  | .incDec target increment => by
      rw [treeOf]
      exact .actOne (step_isLocal (placeOf_isLocal target) increment) (step_goesOn _ _)
  | .cond test body otherwise => by
      rw [treeOf]
      exact .bind (.any (condition_isLocal (operand_isLocal test))) fun e _ =>
        .bind (.withBlock (blockTree_returns inLoop body)) fun t ht =>
          elseTree_returns inLoop e t ht otherwise
  | .loop init test post body => by
      rw [treeOf]
      exact .withBlock (.bind (optionalTree_returns inLoop init) fun i hi =>
        .bind (.any (condition?_isLocal (operand?_isLocal test))) fun e _ =>
          .bind (.withBlock (blockTree_returns true body)) fun t ht =>
            .bind (optionalTree_returns inLoop post) fun p hp => .pure ⟨hi, hp, ht⟩)
  | .break => by
      rw [treeOf]
      split
      · exact .pure trivial
      · exact .fail _
  | .continue => by
      rw [treeOf]
      split
      · exact .pure trivial
      · exact .fail _
  | .return values => by
      rw [treeOf]
      have hreturn : GivesIn count (·.Returns count) (returnStmt (operands values)) :=
        .of_local (returnStmt_isLocal (operands_isLocal values)) fun c hc =>
          returnStmt_returns hc (operands_removes values)
      exact .bind hreturn fun i hi => .pure (List.forall_mem_singleton.2 hi)
  | .block body => by
      rw [treeOf]
      exact .withBlock (blockTree_returns inLoop body)

/-- A conditional statement whose first branch is given. -/
theorem elseTree_returns (inLoop : Bool) (e : Code.Expr) (t : Tree) (ht : t.Returns count) :
    ∀ otherwise : Option Stmt,
      GivesIn count (Tree.Returns count) (elseTree inLoop e t otherwise)
  | none => by
      rw [elseTree]
      exact .pure ht
  | some s => by
      rw [elseTree]
      exact .bind (tree_returns inLoop s) fun u hu => .pure ⟨ht, hu⟩

/-- An optional statement. -/
theorem optionalTree_returns (inLoop : Bool) :
    ∀ s : Option Stmt, GivesIn count (Tree.Returns count) (optionalTree inLoop s)
  | none => by
      rw [optionalTree]
      exact .pure (List.forall_mem_nil _)
  | some s => by
      rw [optionalTree]
      exact tree_returns inLoop s

/-- A block. -/
theorem blockTree_returns (inLoop : Bool) :
    ∀ b : Block, GivesIn count (Tree.Returns count) (blockTree inLoop b)
  | .mk stmts _ => by
      rw [blockTree]
      exact treesOf_returns inLoop stmts

/-- Statements in order. -/
theorem treesOf_returns (inLoop : Bool) :
    ∀ stmts : List Stmt, GivesIn count (Tree.Returns count) (treesOf inLoop stmts)
  | [] => by
      rw [treesOf]
      exact .pure (List.forall_mem_nil _)
  | s :: rest => by
      rw [treesOf]
      exact .bind (tree_returns inLoop s) fun first hfirst =>
        .bind (treesOf_returns inLoop rest) fun others hothers => .pure ⟨hfirst, hothers⟩

end

/-! ### Bodies -/

/-- Slots of parameters or results are as many as these. -/
theorem bindSlots_length (slots : List (Option Name × Ty)) :
    Gives (fun bound => bound.length = slots.length) (bindSlots slots) := by
  induction slots with
  | nil => exact .pure rfl
  | cons s rest ih =>
      refine .bind fun slot => .bind_of ih fun bound hbound => .pure ?_
      rw [List.length_cons, List.length_cons, hbound]

/-- Named results have a slot each. -/
theorem bindResultSlots_returns {results : List (Option Name × Ty)}
    (h : results.length = count) : GivesIn count GoOn (bindResultSlots results) := by
  unfold bindResultSlots
  split
  · refine .bind (.of_gives (bindSlots_isLocal results) (bindSlots_length results))
      fun slots hslots => .types fun t => .bind (.updateFrame fun fr hfr => ?_) fun _ _ =>
        .pure (List.forall_mem_singleton.2 rfl)
    refine ⟨hfr.results, fun named hnamed => ?_⟩
    rw [← Option.some.inj hnamed, hslots, h]
  · exact .pure (List.forall_mem_nil _)

/-- **The beginning of a body settles how many values it returns.** -/
theorem enterBody_returns (recv : Option (Option Name × Ty)) (h : Heading) {c : Compiler}
    (hc : c.frame = .empty) :
    Yields (fun r => GoOn r.1 ∧ r.2.frame.Declares h.results.length) (enterBody recv h c) := by
  have hstart : Frame.Declares { c.frame with results := h.resultTypes } h.results.length := by
    refine ⟨List.length_map _, fun slots hslots => ?_⟩
    rw [hc] at hslots
    cases hslots
  have hrest : GivesIn h.results.length GoOn
      (bindSlots (recv.toList ++ h.params) >>= fun _ => bindResultSlots h.results) :=
    .bind (.any (bindSlots_isLocal _)) fun _ _ => bindResultSlots_returns rfl
  exact hrest { c with frame := { c.frame with results := h.resultTypes } } hstart

/-- What falling off the end returns is as many values as there are results. -/
theorem endingOf_returns (t : TypeTable) {f : Frame} (hf : f.Declares count) :
    (endingOf t f).instr.Returns count := by
  unfold endingOf
  cases hnamed : f.namedResults with
  | some slots => exact (List.length_map _).trans (hf.named slots hnamed)
  | none => exact (List.length_map _).trans ((List.length_map _).trans hf.results)

/-- **All ways out of a body are of as many values as its heading has results.** -/
theorem routine_returns (recv : Option (Option Name × Ty)) (h : Heading) (content : Block)
    {c : Compiler} (hc : c.frame = .empty) :
    Yields (fun r => r.1.Returns h.results.length) (routine recv h content c) := by
  intro r hr
  change ((enterBody recv h c).bind fun r => _) = .ok r at hr
  cases henter : enterBody recv h c with
  | error e =>
      rw [henter] at hr
      cases hr
  | ok entered =>
      rw [henter] at hr
      obtain ⟨hentry, hframe⟩ := enterBody_returns recv h hc entered henter
      have hrest : GivesIn h.results.length (Routine.Returns h.results.length) (do
          let t ← withBlock (blockTree false content)
          return ⟨entered.1, t, endingOf (← Compile.types) (← get).frame⟩) :=
        .bind (.withBlock (blockTree_returns false content)) fun t ht => .types fun types =>
          .look fun c hc => .pure ⟨act_returns hentry _, ht, endingOf_returns types hc⟩
      exact (hrest entered.2 hframe r hr).1

end Compile

end ScriptCore
