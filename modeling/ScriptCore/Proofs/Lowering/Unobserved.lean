import ScriptCore.Proofs.Dependencies.Views
import ScriptCore.Proofs.Lowering.Syntax
import ScriptCore.Proofs.Lowering.Total
import ScriptCore.Proofs.Runs.Programs

/-!
# Register code is not observed

Whether register code is asked for makes no difference but for the register code itself.  Local
steps neither ask whether register code is wanted nor look at what there is of it, and declarations
add to it without failing.  So a step that is run on a state from which register code is left out
gives what it gives otherwise, but for the register code (`Indifferent`); this passes from the steps to
declarations, batches and packages, and from packages to everything that is done with a program.

Main statement: `Package.lowering_unobserved`.
-/

namespace ScriptCore

/-- The state without register code, in which none is asked for. -/
def Compiler.unlowered (c : Compiler) : Compiler :=
  { c with lowers := false, lowered := [] }

namespace Compile

variable {α β : Type}

/-- Without register code, a step gives what it gives otherwise, but for the register code. -/
def Indifferent (p : Compile α) : Prop :=
  ∀ c, p c.unlowered = (p c).map fun r => (r.1, r.2.unlowered)

namespace Indifferent

/-- A result. -/
theorem pure (a : α) : Indifferent (Pure.pure a : Compile α) :=
  fun _ => rfl

/-- A failure. -/
theorem fail (f : Fault) : Indifferent (Compile.fail f : Compile α) :=
  fun _ => rfl

/-- One step after another. -/
theorem bind {p : Compile α} {f : α → Compile β} (hp : Indifferent p)
    (hf : ∀ a, Indifferent (f a)) : Indifferent (p >>= f) := by
  intro c
  have hbind (s : Compiler) : (p >>= f) s = (p s).bind fun r => f r.1 r.2 := rfl
  rw [hbind, hbind, hp c]
  cases p c with
  | error e => rfl
  | ok r => exact hf r.1 r.2

/-- A result that is changed. -/
theorem map {p : Compile α} (f : α → β) (h : Indifferent p) : Indifferent (f <$> p) := by
  rw [map_eq_pure_bind]
  exact h.bind fun a => .pure (f a)

/-- Errors that get a place. -/
theorem at' {p : Compile α} (span : Span) (h : Indifferent p) :
    Indifferent (Compile.at' span p) := by
  intro c
  unfold Compile.at'
  rw [h c]
  cases p c <;> rfl

/-- A look at what register code has no part in. -/
theorem look {f : Compiler → Compile α} (hsame : ∀ c, f c.unlowered = f c)
    (h : ∀ c, Indifferent (f c)) : Indifferent (get >>= f) := by
  intro c
  change f c.unlowered c.unlowered = _
  rw [hsame c]
  exact h c c

/-- A change of what register code has no part in. -/
theorem modifyGet {f : Compiler → α × Compiler}
    (h : ∀ c, f c.unlowered = ((f c).1, (f c).2.unlowered)) :
    Indifferent (MonadState.modifyGet f : Compile α) := by
  intro c
  change Except.ok (f c.unlowered) = _
  rw [h c]
  rfl

/-- A change without a result. -/
theorem modify {f : Compiler → Compiler} (h : ∀ c, f c.unlowered = (f c).unlowered) :
    Indifferent (modify f : Compile PUnit) :=
  modifyGet fun c => by rw [h c]

/-- A change of what register code has no part in, before other steps. -/
theorem modify_then {f : Compiler → Compiler} {p : Compile α}
    (h : ∀ c, f c.unlowered = (f c).unlowered) (hp : Indifferent p) :
    Indifferent (modifyThe Compiler f >>= fun _ => p) :=
  (modify h).bind fun _ => hp

end Indifferent

/-- **Local steps** do not look at register code. -/
theorem IsLocal.indifferent {p : Compile α} (h : IsLocal true p) : Indifferent p := by
  generalize true = begins at h
  induction h with
  | pure a => exact .pure a
  | fail f => exact .fail f
  | bind _ _ ihp ihf => exact ihp.bind ihf
  | at' span _ ih => exact ih.at' span
  | look hsame _ ih =>
      refine .look (fun c => ?_) ih
      rw [← hsame c, ← hsame c.unlowered]
      rfl
  | build b =>
      intro c
      have htypes : c.unlowered.types = c.types := rfl
      rw [build_eq, build_eq, htypes]
      rcases b.run.run c.types with ⟨e | r, t⟩ <;> rfl
  | onFrame f _ => exact .modifyGet fun _ => rfl
  | inFrame nested _ ih =>
      rename_i content _
      intro c
      let inner (s : Compiler) : Compiler := { s with
        frame := .empty, enclosing := if nested then s.frame :: s.enclosing else [] }
      have hrun (s : Compiler) : Compile.inFrame nested content s =
          (content (inner s)).bind fun r =>
            .ok (r.1, { r.2 with frame := s.frame, enclosing := s.enclosing }) := rfl
      have hinner : inner c.unlowered = (inner c).unlowered := rfl
      rw [hrun, hrun, hinner, ih]
      cases content (inner c) <;> rfl

/-! ### Declarations -/

/-- A new package-level slot. -/
theorem newGlobal_indifferent (v : Value) : Indifferent (newGlobal v) :=
  .modifyGet fun _ => rfl

/-- A name that stands for something. -/
theorem bindEntity_indifferent (name : Name) (e : Entity) : Indifferent (bindEntity name e) :=
  .modify fun _ => rfl

/-- A change of the types. -/
theorem complete_indifferent (b : Build Unit) : Indifferent (complete b) := by
  refine .look (fun _ => rfl) fun c => ?_
  rcases b.run.run c.types with ⟨e | r, t⟩
  · exact .fail _
  · exact .modify fun _ => rfl

/-- A slot for a function. -/
theorem newFuncSlot_indifferent (name : Name) (ty : Ty) : Indifferent (newFuncSlot name ty) :=
  (newGlobal_indifferent _).bind fun _ => .modify_then (fun _ => rfl) (.pure _)

/-- A function that can be called from outside. -/
theorem exportFunc_indifferent (name : Name) (b : Binding) : Indifferent (exportFunc name b) :=
  .modify fun _ => rfl

/-- A type under a name of its own. -/
theorem declaredType_indifferent (name : Name) : Indifferent (declaredType name) := by
  have hnew : Indifferent (do
      let ty ← newNamedType name
      bindEntity name (.type ty)
      return ty) :=
    (IsLocal.build _).indifferent.bind fun _ => (bindEntity_indifferent _ _).bind fun _ => .pure _
  refine .look (fun _ => rfl) fun c => ?_
  split
  · exact .pure _
  · exact hnew

/-- A type declaration. -/
theorem declareType_indifferent (name : Name) (spec : TypeSpec) :
    Indifferent (declareType name spec) := by
  have htype := (typeExpr_isLocal spec.type).indifferent
  unfold declareType
  split
  · exact htype.bind fun _ => bindEntity_indifferent _ _
  · exact (declaredType_indifferent name).bind fun _ => htype.bind fun _ => complete_indifferent _

/-- A function declaration. -/
theorem declareFunc_indifferent (name : Name) (decl : FuncDecl) :
    Indifferent (declareFunc name decl) := by
  refine (heading_isLocal decl.sig).indifferent.bind fun _ => (IsLocal.build _).indifferent.bind
    fun _ => (newFuncSlot_indifferent _ _).bind fun _ => ?_
  split
  · exact .modify fun _ => rfl
  · exact (exportFunc_indifferent _ _).bind fun _ => bindEntity_indifferent _ _

/-- A method declaration. -/
theorem declareMethod_indifferent (name : Name) (decl : FuncDecl) :
    Indifferent (declareMethod name decl) := by
  unfold declareMethod
  split
  · exact .fail _
  · refine (typeExpr_isLocal _).indifferent.bind fun _ => ?_
    split
    · exact (heading_isLocal decl.sig).indifferent.bind fun _ => (IsLocal.build _).indifferent.bind
        fun _ => (complete_indifferent _).bind fun _ => (newFuncSlot_indifferent _ _).bind fun _ =>
          .modify_then (fun _ => rfl) (exportFunc_indifferent _ _)
    · exact .fail _

/-- An import. -/
theorem declareImport_indifferent (name : Name) (spec : ImportSpec) :
    Indifferent (declareImport name spec) := by
  refine .look (fun _ => rfl) fun c => ?_
  split
  · exact bindEntity_indifferent _ _
  · exact .fail _

/-- **What a declaration stands for**, as far as it does not need a value. -/
theorem declareDecl_indifferent (d : Decl) : Indifferent (declareDecl d) := by
  unfold declareDecl
  split
  · exact (IsLocal.build _).indifferent.bind fun _ => bindEntity_indifferent _ _
  · exact declareType_indifferent _ _
  · exact declareFunc_indifferent _ _
  · exact declareMethod_indifferent _ _
  · exact declareImport_indifferent _ _
  · exact .pure _

/-! ### Definitions -/

/-- A function of the host. -/
theorem defineHosted_indifferent (name : Name) (b : Binding) : Indifferent (defineHosted name b) := by
  refine .look (fun _ => rfl) fun c => ?_
  split
  · exact .fail _
  · exact (IsLocal.rule _).indifferent.bind fun _ => .modify fun _ => rfl

/-- **Register code is kept without a failure**, and nothing else changes. -/
theorem keepLowered_ok (name : Name) (decl : FuncDecl) (h : Heading) (c : Compiler) :
    ∃ lowered, keepLowered name decl h c = .ok ((), { c with lowered := lowered }) := by
  cases hcode : StraightLine.ofFunc? decl (h.paramTypes.map c.types.kind)
    (h.resultTypes.map c.types.kind) with
  | error e => exact absurd hcode (StraightLine.ofFunc?_ne_error _ _ _ e)
  | ok code =>
      cases code with
      | none => exact ⟨c.lowered, bind_ok.2 ⟨c.types, c, rfl, by rw [hcode]; rfl⟩⟩
      | some code =>
          exact ⟨c.lowered ++ [(name, code)], bind_ok.2 ⟨c.types, c, rfl, by rw [hcode]; rfl⟩⟩

/-- Register code is kept where it is asked for. -/
theorem keepWanted_indifferent (name : Name) (decl : FuncDecl) (h : Heading) :
    Indifferent (do if (← get).lowers && decl.recv.isNone then keepLowered name decl h) := by
  intro c
  obtain ⟨lowered, hkeep⟩ := keepLowered_ok name decl h c
  change (if c.unlowered.lowers && decl.recv.isNone then keepLowered name decl h else pure ())
      c.unlowered =
    Except.map _ ((if c.lowers && decl.recv.isNone then keepLowered name decl h else pure ()) c)
  rw [if_neg (by simp [Compiler.unlowered])]
  split
  · rw [hkeep]
    rfl
  · rfl

/-- The receiver of a method. -/
theorem receiver?_indifferent (recv : Option Param) : Indifferent (receiver? recv) := by
  cases recv with
  | none => exact .pure _
  | some p => exact ((typeExpr_isLocal p.type).indifferent.bind fun _ => .pure _).map some

/-- The body of a function or method. -/
theorem defineBody_indifferent (name : Name) (b : Binding) (decl : FuncDecl) (content : Block) :
    Indifferent (defineBody name b decl content) := by
  refine (heading_isLocal decl.sig).indifferent.bind fun h =>
    (receiver?_indifferent decl.recv).bind fun recv => ?_
  have hbody := bodyOf_isLocal recv h (block_isLocal content)
  exact (IsLocal.inFrame false (assembled_isLocal hbody)).indifferent.bind fun body =>
    .look (fun _ => rfl) fun _ => .look (fun _ => rfl) fun _ => .modify_then (fun _ => rfl)
      (.modify_then (fun _ => rfl) (keepWanted_indifferent name decl h))

/-- A function or method. -/
theorem defineFunc_indifferent (name : Name) (decl : FuncDecl) :
    Indifferent (defineFunc name decl) := by
  refine .look (fun _ => rfl) fun c => ?_
  split
  · exact .fail _
  · split
    · exact defineHosted_indifferent _ _
    · exact defineBody_indifferent _ _ _ _

/-- The value of a constant. -/
theorem constValue_indifferent (d : Decl) : Indifferent (constValue d) := by
  refine (typeExpr?_isLocal d.valueType).indifferent.bind fun declared => ?_
  split
  · exact .fail _
  · refine (operand_isLocal _).indifferent.bind fun op => ?_
    split
    · exact (IsLocal.rule _).indifferent
    · exact .fail _

/-- A constant. -/
theorem defineConst_indifferent (d : Decl) : Indifferent (defineConst d) :=
  have hvalue : Indifferent (withIota d.iota (constValue d)) :=
    .modify_then (fun _ => rfl) ((constValue_indifferent d).bind fun _ =>
      .modify_then (fun _ => rfl) (.pure _))
  hvalue.bind fun _ => bindEntity_indifferent _ _

/-- A new package variable. -/
theorem newVar_indifferent (name : Name) (ty : Ty) : Indifferent (newVar name ty) :=
  .look (fun _ => rfl) fun _ => (newGlobal_indifferent _).bind fun _ =>
    .modify_then (fun _ => rfl) ((bindEntity_indifferent _ _).bind fun _ => .pure _)

/-- A variable with a value of its own or none. -/
theorem defineVar_indifferent (d : Decl) : Indifferent (defineVar d) := by
  have hvalue : Indifferent (optionalOperand d.value) := by
    unfold optionalOperand
    split
    · exact .pure _
    · exact (operand_isLocal _).indifferent.map some
  refine (typeExpr?_isLocal d.valueType).indifferent.bind fun _ => hvalue.bind fun value =>
    (IsLocal.check _).indifferent.bind fun _ => (newVar_indifferent _ _).bind fun _ => ?_
  split
  · exact .pure _
  · exact .look (fun _ => rfl) fun _ => (IsLocal.rule _).indifferent.bind fun _ =>
      .modify fun _ => rfl

/-- New package variables for the results of a call. -/
theorem newVars_indifferent (declared : Option Ty) (names : List Name) (types : List Ty) :
    Indifferent (newVars declared names types) := by
  fun_induction newVars declared names types with
  | case1 name names ty rest want ih =>
      exact (IsLocal.rule _).indifferent.bind fun _ => (newVar_indifferent _ _).bind fun _ =>
        ih.bind fun _ => .pure _
  | case2 => exact .pure _

/-- Variables that are defined by one call. -/
theorem defineTuple_indifferent (spec : ValueSpec) : Indifferent (defineTuple spec) := by
  refine (typeExpr?_isLocal spec.type).indifferent.bind fun declared => ?_
  dsimp only
  split
  · refine (operand_isLocal _).indifferent.bind fun op => ?_
    split
    · exact .fail _
    · rename_i call types
      have hrest : Indifferent (do
          let slots ← newVars declared spec.names types
          addInit (.spread call (← get).globalsDepth (slots.map some))) :=
        (newVars_indifferent _ _ _).bind fun _ => .look (fun _ => rfl) fun _ =>
          .modify fun _ => rfl
      split
      · exact (Indifferent.fail _).bind fun _ => hrest
      · exact hrest
  · exact .fail _

/-- **What a declaration defines.** -/
theorem defineDecl_indifferent (d : Decl) : Indifferent (defineDecl d) := by
  unfold defineDecl
  split
  · exact defineFunc_indifferent _ _
  · exact defineFunc_indifferent _ _
  · exact defineConst_indifferent _
  · exact defineTuple_indifferent _
  · exact defineVar_indifferent _
  · exact .pure _

/-- A step for every declaration. -/
theorem eachDecl_indifferent {step : Decl → Compile Unit} (h : ∀ d, Indifferent (step d))
    (decls : List Decl) : Indifferent (eachDecl step decls) := by
  induction decls with
  | nil => exact .pure _
  | cons d rest ih => exact ((h d).at' d.span).bind fun _ => ih

/-- **Batches** are compiled without a look at register code. -/
theorem batches_indifferent (parts : List (List Decl)) : Indifferent (batches parts) := by
  induction parts with
  | nil => exact .pure _
  | cons decls rest ih =>
      have hbatch : Indifferent (batch decls) :=
        (eachDecl_indifferent declareDecl_indifferent _).bind fun _ =>
          eachDecl_indifferent defineDecl_indifferent _
      exact hbatch.bind fun _ => ih

end Compile

/-! ### Packages and programs -/

/-- The same package without register code. -/
def Package.unlowered (p : Package) : Package :=
  { p with lowered := [] }

/-- The package of a state without register code has none. -/
@[simp]
theorem Package.ofCompiler_unlowered (c : Compiler) :
    Package.ofCompiler c.unlowered = (Package.ofCompiler c).unlowered := rfl

/-- **A scope is compiled to the same package, or refused with the same error**, whether register
code is asked for or not. -/
theorem Package.ofScope_unlowered (types : TypeTable) (hosts : Hosts) (s : Scope) :
    Package.ofScope types hosts false s =
      (Package.ofScope types hosts true s).map Package.unlowered := by
  unfold Package.ofScope
  cases Order.ofScope s with
  | error e => rfl
  | ok order =>
      have hstart : Compiler.start types hosts false =
          (Compiler.start types hosts true).unlowered := rfl
      dsimp only
      rw [hstart, Compile.batches_indifferent]
      cases Compile.batches (Order.batches s order) (.start types hosts true) <;> rfl

namespace Program

/-- A program with given host functions and a limit on nested calls. -/
def ofPackage (bodies : Array HostBody) (limit : Option Nat) (p : Package) : Program :=
  ⟨p, ⟨p.types, bodies, limit⟩⟩

/-- Two programs that cannot be told apart: after any actions, well ended or not, the next one gives
the same result or error and leaves the same machine, output included, and the variables have the
same values. -/
structure Alike (p q : Program) : Prop where
  act : ∀ done a, p.act a (p.after done) = q.act a (q.after done)
  var : ∀ done name, p.var? (p.after done) name = q.var? (q.after done) name

variable {p q : Program}

/-- Programs with the same machine at the start and the same actions cannot be told apart. -/
theorem Alike.of_act (hstart : p.start = q.start) (hact : ∀ a, p.act a = q.act a)
    (hvar : ∀ m name, p.var? m name = q.var? m name) : Alike p q := by
  have hafter : ∀ done, p.after done = q.after done := by
    intro done
    unfold Program.after
    rw [hstart]
    congr 1
    funext m a
    rw [hact]
  exact ⟨fun done a => by rw [hafter, hact], fun done name => by rw [hafter, hvar]⟩

/-- Functions of the package are called in the same way without register code. -/
theorem callSlots_unlowered (bodies : Array HostBody) (limit : Option Nat) (p : Package)
    (slots : List Nat) : (ofPackage bodies limit p).callSlots slots =
      (ofPackage bodies limit p.unlowered).callSlots slots := by
  induction slots with
  | nil => rfl
  | cons slot rest ih =>
      unfold callSlots
      rw [ih]
      rfl

/-- A program is initialized in the same way without register code. -/
theorem runInit_unlowered (bodies : Array HostBody) (limit : Option Nat) (p : Package) :
    (ofPackage bodies limit p).runInit = (ofPackage bodies limit p.unlowered).runInit := by
  have hcalls := callSlots_unlowered bodies limit p p.initFuncs
  unfold runInit
  change (do
      let r ← _
      let _ ← _
      (ofPackage bodies limit p).callSlots p.initFuncs) = _
  rw [hcalls]
  rfl

/-- **A program without its register code** cannot be told apart from the program. -/
theorem ofPackage_alike (bodies : Array HostBody) (limit : Option Nat) (p : Package) :
    Alike (ofPackage bodies limit p) (ofPackage bodies limit p.unlowered) := by
  refine .of_act rfl (fun a => ?_) fun _ _ => rfl
  cases a with
  | init =>
      unfold act
      rw [runInit_unlowered]
  | main =>
      unfold act runMain
      rw [runInit_unlowered]
      rfl
  | call name args => rfl

end Program

/-- **Register code is not observed.**  For every scope, with any host functions and limit on nested
calls, compilation that asks for register code succeeds if and only if compilation that does not ask
for it succeeds, and fails with the same error otherwise.  The packages are the same but for the
register code, which the second does not have, and their programs cannot be told apart.  Making
register code never fails. -/
theorem Package.lowering_unobserved (types : TypeTable) (hosts : Hosts) (bodies : Array HostBody)
    (limit : Option Nat) (s : Scope) :
    (match Package.ofScope types hosts true s, Package.ofScope types hosts false s with
      | .ok p, .ok q => q = { p with lowered := [] } ∧
          (Program.ofPackage bodies limit p).Alike (Program.ofPackage bodies limit q)
      | .error e, .error f => e = f
      | _, _ => False) ∧
    ∀ decl params results e, StraightLine.ofFunc? decl params results ≠ .error e := by
  refine ⟨?_, StraightLine.ofFunc?_ne_error⟩
  rw [Package.ofScope_unlowered]
  cases Package.ofScope types hosts true s with
  | error e => rfl
  | ok p => exact ⟨rfl, Program.ofPackage_alike bodies limit p⟩

end ScriptCore
