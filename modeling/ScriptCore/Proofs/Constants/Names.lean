import ScriptCore.Proofs.Addressing.Declarations
import ScriptCore.Proofs.Straight.Expression

/-!
# Names that declarations bind

A declaration that is declared or defined gives a meaning to its own names.  What every other name
stands for stays as it is, and no number of a line is known afterwards that was not known before
(`Compiler.Moves`).  The code inside a declaration is compiled in a world with slots for everything
that names stand for, so it changes nothing but types and frames.

Main statements: `declareDecl_binds`, `defineDecl_binds` and `batches_binds`.
-/

namespace ScriptCore

/-- The world around declarations of a package with so many slots, whatever the host provides. -/
def World.free (slots : Nat) : World :=
  ⟨[], slots, fun _ => True, fun _ => True⟩

/-- The world in which declarations of a package are compiled. -/
def World.top (slots : Nat) : World :=
  (World.free slots).push .empty

/-- A slot of the package. -/
theorem World.covers_top {slots : Nat} {b : Binding} (h : b.slot < slots) :
    (World.top slots).Covers b :=
  ⟨h, trivial⟩

namespace Compiler

variable {names names' : List Name} {c d e : Compiler}

/-- Other names stand for what they stood for. -/
theorem entity?_of_ne {name n : Name} {entity : Entity} (h : n ≠ name) :
    ({ c with names := (name, entity) :: c.names } : Compiler).entity? n = c.entity? n := by
  rw [entity?, List.lookup_cons, beq_false_of_ne h]
  rfl

/-- The state is outside of all bodies, and names stand for slots that there are. -/
def Outermost (c : Compiler) : Prop :=
  c.Fits (.top c.globals.size)

/-- Before the first declaration. -/
theorem start_outermost (types : TypeTable) (hosts : Hosts) (lowers : Bool) :
    (start types hosts lowers).Outermost :=
  ⟨.cons ⟨rfl, rfl, rfl⟩ .nil, rfl, nofun, nofun, fun _ _ => trivial, fun _ _ _ _ => trivial⟩

/-- One state comes from another by steps that bind none but the names. -/
structure Moves (names : List Name) (c d : Compiler) : Prop where
  outermost : d.Outermost
  iota : c.iota = none → d.iota = none
  others : ∀ n ∉ names, d.entity? n = c.entity? n

namespace Moves

/-- Nothing happens. -/
protected theorem refl (h : c.Outermost) : c.Moves names c :=
  ⟨h, id, fun _ _ => rfl⟩

/-- One step after another. -/
protected theorem trans (h : c.Moves names d) (h' : d.Moves names e) : c.Moves names e :=
  ⟨h'.outermost, fun hc => h'.iota (h.iota hc), fun n hn => (h'.others n hn).trans (h.others n hn)⟩

/-- More names. -/
theorem mono (h : c.Moves names d) (hsub : names ⊆ names') : c.Moves names' d :=
  ⟨h.outermost, h.iota, fun n hn => h.others n fun hmem => hn (hsub hmem)⟩

end Moves

/-- The second state has the names of the first, and slots besides. -/
structure Widens (c d : Compiler) : Prop where
  frame : d.frame = c.frame
  enclosing : d.enclosing = c.enclosing
  iota : d.iota = c.iota
  names : d.names = c.names
  methods : d.methods = c.methods
  slots : c.globals.size ≤ d.globals.size

/-- What a name stands for is there in a world with more slots. -/
theorem Entity.within_top {slots slots' : Nat} {e : Entity} (h : e.Within (.top slots))
    (hle : slots ≤ slots') : e.Within (.top slots') := by
  cases e with
  | var b => exact World.covers_top (Nat.lt_of_lt_of_le h.1 hle)
  | func b => exact World.covers_top (Nat.lt_of_lt_of_le h.1 hle)
  | package p => exact fun _ _ => trivial
  | const _ _ => exact trivial
  | type _ => exact trivial

/-- No name is bound by more slots. -/
theorem Widens.moves (h : c.Widens d) (hc : c.Outermost) : c.Moves names d where
  outermost := by
    refine ⟨?_, rfl, fun e he => ?_, fun e he => ?_, fun _ _ => trivial, fun _ _ _ _ => trivial⟩
    · rw [h.frame, h.enclosing]
      exact hc.frames
    · rw [h.names] at he
      exact Entity.within_top (hc.names e he) h.slots
    · rw [h.methods] at he
      exact World.covers_top (Nat.lt_of_lt_of_le (hc.methods e he).1 h.slots)
  iota := h.iota.trans
  others n _ := by rw [entity?, entity?, h.names]

end Compiler

namespace Compile

variable {α β : Type} {names names' : List Name} {c : Compiler}

/-- The step binds none but the names, and what it gives has a property. -/
def BindsOnly (names : List Name) (c : Compiler) (p : Compile α) (Q : α → Compiler → Prop) : Prop :=
  c.Outermost → ∀ a d, p c = .ok (a, d) → c.Moves names d ∧ Q a d

namespace BindsOnly

variable {p q : Compile α} {Q R : α → Compiler → Prop} {S : β → Compiler → Prop}

/-- A result. -/
protected theorem pure {a : α} (h : Q a c) : BindsOnly names c (Pure.pure a) Q := by
  rintro hc _ _ ⟨⟩
  exact ⟨.refl hc, h⟩

/-- A failure. -/
protected theorem fail (f : Fault) : BindsOnly names c (Compile.fail f : Compile α) Q := by
  rintro _ _ _ ⟨⟩

/-- One step after another. -/
protected theorem bind {p : Compile β} {f : β → Compile α} (h : BindsOnly names c p S)
    (hf : ∀ b d, S b d → BindsOnly names d (f b) Q) : BindsOnly names c (p >>= f) Q := by
  intro hc a e hok
  obtain ⟨b, d, hp, hok⟩ := bind_ok.1 hok
  obtain ⟨hfirst, hb⟩ := h hc b d hp
  obtain ⟨hsecond, ha⟩ := hf b d hb hfirst.outermost a e hok
  exact ⟨hfirst.trans hsecond, ha⟩

/-- A weaker property. -/
theorem imp (h : BindsOnly names c p R) (hQ : ∀ a d, R a d → Q a d) : BindsOnly names c p Q :=
  fun hc a d hok => ⟨(h hc a d hok).1, hQ a d (h hc a d hok).2⟩

/-- More names. -/
theorem mono (h : BindsOnly names c p Q) (hsub : names ⊆ names') : BindsOnly names' c p Q :=
  fun hc a d hok => ⟨(h hc a d hok).1.mono hsub, (h hc a d hok).2⟩

/-- A look at the state. -/
protected theorem get {f : Compiler → Compile α} (h : BindsOnly names c (f c) Q) :
    BindsOnly names c (MonadState.get >>= f) Q :=
  h

/-- A look at the types. -/
protected theorem types {f : TypeTable → Compile α} (h : BindsOnly names c (f c.types) Q) :
    BindsOnly names c (Compile.types >>= f) Q :=
  h

/-- A rule that needs nothing but what it is given. -/
protected theorem check {e : Except Fault α} {T : α → Prop} (h : Yields T e) :
    BindsOnly names c (Compile.check e) fun a _ => T a := by
  cases e with
  | error f => exact .fail f
  | ok a => exact .pure (h a rfl)

/-- A rule that looks at the types. -/
protected theorem rule {f : TypeTable → Except Fault α} {T : α → Prop} (h : ∀ t, Yields T (f t)) :
    BindsOnly names c (Compile.rule f) fun a _ => T a :=
  .types (.check (h c.types))

/-- A choice. -/
protected theorem ite {P : Prop} [Decidable P] (hp : P → BindsOnly names c p Q)
    (hq : ¬P → BindsOnly names c q Q) : BindsOnly names c (if P then p else q) Q := by
  split
  · exact hp ‹_›
  · exact hq ‹_›

/-- Errors that get a place. -/
protected theorem at' (span : Span) (h : BindsOnly names c p Q) :
    BindsOnly names c (Compile.at' span p) Q :=
  fun hc a d hok => h hc a d (at'_ok.1 hok)

/-- A step of the compilation of types, expressions and bodies. -/
theorem agrees {T : α → Prop}
    (h : Agrees (.top c.globals.size) p q (.top c.globals.size) T) :
    BindsOnly names c p fun a _ => T a := by
  intro hc a d hok
  have halike : d = { c with types := d.types, frame := d.frame } := (h c hc).alike a d hok
  obtain ⟨hfits, ha⟩ := (h c hc).leaves a d hok
  refine ⟨⟨?_, fun hnone => by rw [halike]; exact hnone, fun n _ => by rw [halike]; rfl⟩, ha⟩
  have hslots : d.globals.size = c.globals.size := by rw [halike]
  rwa [Compiler.Outermost, hslots]

/-- A change that binds no name. -/
protected theorem modifyGet {f : Compiler → α × Compiler} (h : c.Widens (f c).2)
    (hQ : Q (f c).1 (f c).2) : BindsOnly names c (MonadStateOf.modifyGet f : Compile α) Q := by
  intro hc a d hok
  have heq : f c = (a, d) := Except.ok.inj hok
  rw [heq] at h hQ
  exact ⟨h.moves hc, hQ⟩

/-- A name stands for something that there is. -/
theorem bindEntity {name : Name} (hname : name ∈ names) {e : Entity}
    (he : e.Within (.top c.globals.size)) :
    BindsOnly names c (Compile.bindEntity name e) fun _ d => d.globals.size = c.globals.size := by
  rintro hc _ _ ⟨⟩
  refine ⟨⟨⟨hc.frames, rfl, ?_, hc.methods, fun _ _ => trivial, fun _ _ _ _ => trivial⟩, id,
    fun n hn => Compiler.entity?_of_ne fun heq => hn (heq ▸ hname)⟩, rfl⟩
  exact List.forall_mem_cons.2 ⟨he, hc.names⟩

/-- A new package-level slot. -/
theorem newGlobal (value : Value) : BindsOnly names c (Compile.newGlobal value)
    fun slot d => slot < d.globals.size := by
  have hsize : (c.globals.push value).size = c.globals.size + 1 := Array.size_push value
  exact .modifyGet ⟨rfl, rfl, rfl, rfl, rfl, hsize ▸ Nat.le_succ _⟩ (hsize ▸ Nat.lt_succ_self _)

/-- What a package-level slot holds. -/
theorem setGlobal (slot : Nat) (value : Value) :
    BindsOnly names c (Compile.setGlobal slot value) fun _ _ => True :=
  .modifyGet ⟨rfl, rfl, rfl, rfl, rfl, by simp⟩ trivial

/-- A slot for a function. -/
theorem newFuncSlot (name : Name) (ty : Ty) : BindsOnly names c (Compile.newFuncSlot name ty)
    fun b d => b.slot < d.globals.size :=
  (newGlobal .nil).bind fun slot _ hslot =>
    .bind (S := fun _ d => slot < d.globals.size)
      (.modifyGet ⟨rfl, rfl, rfl, rfl, rfl, Nat.le_refl _⟩ hslot) fun _ _ hslot => .pure hslot

/-- A function that can be called from outside. -/
theorem exportFunc (name : Name) (b : Binding) : BindsOnly names c (Compile.exportFunc name b)
    fun _ d => d.globals.size = c.globals.size :=
  .modifyGet ⟨rfl, rfl, rfl, rfl, rfl, Nat.le_refl _⟩ rfl

/-- Code that initializes the package. -/
theorem addInit (i : Code.Instr) : BindsOnly names c (Compile.addInit i) fun _ _ => True :=
  .modifyGet ⟨rfl, rfl, rfl, rfl, rfl, Nat.le_refl _⟩ trivial

end BindsOnly

/-! ### Declaring -/

/-- A new named type. -/
theorem newNamedType_binds (name : Name) :
    BindsOnly names c (newNamedType name) fun _ _ => True :=
  .agrees (build_agrees _)

/-- A type that is declared forward. -/
theorem declareForward_binds {name : Name} (hname : name ∈ names) :
    BindsOnly names c (do bindEntity name (.type (← newNamedType name))) fun _ _ => True :=
  (newNamedType_binds name).bind fun ty _ _ =>
    (BindsOnly.bindEntity hname (e := .type ty) trivial).imp fun _ _ _ => trivial

/-- A type under a name of its own. -/
theorem declaredType_binds {name : Name} (hname : name ∈ names) :
    BindsOnly names c (declaredType name) fun _ _ => True := by
  refine .get ?_
  split
  · exact .pure trivial
  · exact (newNamedType_binds name).bind fun ty _ _ =>
      (BindsOnly.bindEntity hname (e := .type ty) trivial).bind fun _ _ _ => .pure trivial

/-- A type. -/
theorem declareType_binds {name : Name} (hname : name ∈ names) (spec : TypeSpec) :
    BindsOnly names c (declareType name spec) fun _ _ => True := by
  refine .ite (fun _ => ?_) fun _ => ?_
  · exact (BindsOnly.agrees (typeExpr_keeps spec.type _)).bind fun ty _ _ =>
      (BindsOnly.bindEntity hname (e := .type ty) trivial).imp fun _ _ _ => trivial
  · exact (declaredType_binds hname).bind fun _ _ _ =>
      (BindsOnly.agrees (typeExpr_keeps spec.type _)).bind fun _ _ _ => .agrees (complete_agrees _)

/-- A function. -/
theorem declareFunc_binds {name : Name} (hname : name ∈ names) (decl : FuncDecl) :
    BindsOnly names c (declareFunc name decl) fun _ _ => True := by
  refine (BindsOnly.agrees (heading_agrees decl.sig _)).bind fun _ _ _ =>
    (BindsOnly.agrees (build_agrees _)).bind fun ty _ _ =>
      (BindsOnly.newFuncSlot name ty).bind fun b d hb => .ite (fun _ => ?_) fun _ => ?_
  · exact .modifyGet ⟨rfl, rfl, rfl, rfl, rfl, Nat.le_refl _⟩ trivial
  · refine (BindsOnly.exportFunc name b).bind fun _ d' hsize => ?_
    exact (BindsOnly.bindEntity hname (e := .func b) (World.covers_top (hsize ▸ hb))).imp
      fun _ _ _ => trivial

/-- A method, which is bound under no name. -/
theorem declareMethod_binds (name : Name) (decl : FuncDecl) :
    BindsOnly names c (declareMethod name decl) fun _ _ => True := by
  unfold declareMethod
  cases decl.recv with
  | none => exact .fail _
  | some recv =>
      refine (BindsOnly.agrees (typeExpr_keeps recv.type _)).bind fun recvType _ _ => ?_
      cases Compiler.pointed recvType with
      | named id owner package =>
          refine (BindsOnly.agrees (heading_agrees decl.sig _)).bind fun _ _ _ =>
            (BindsOnly.agrees (build_agrees _)).bind fun ty _ _ =>
              (BindsOnly.agrees (complete_agrees _)).bind fun _ _ _ =>
                (BindsOnly.newFuncSlot name ty).bind fun b d hb =>
                  .bind (S := fun _ _ => True) ?_ fun _ _ _ =>
                    (BindsOnly.exportFunc name b).imp fun _ _ _ => trivial
          rintro hd _ _ ⟨⟩
          refine ⟨⟨⟨hd.frames, rfl, hd.names, ?_, fun _ _ => trivial, fun _ _ _ _ => trivial⟩,
            fun h => h, fun _ _ => rfl⟩, trivial⟩
          exact List.forall_mem_cons.2 ⟨World.covers_top hb, hd.methods⟩
      | _ => exact .fail _

/-- An import. -/
theorem declareImport_binds {name : Name} (hname : name ∈ names) (spec : ImportSpec) :
    BindsOnly names c (declareImport name spec) fun _ _ => True := by
  refine .get ?_
  split
  · next p _ =>
      have hp : (Entity.package p).Within (.top c.globals.size) := fun _ _ => trivial
      exact (BindsOnly.bindEntity hname hp).imp fun _ _ _ => trivial
  · exact .fail _

/-- **What a declaration stands for** is bound under its name. -/
theorem declareDecl_binds (decl : Decl) :
    BindsOnly (decl.name :: decl.boundNames) c (declareDecl decl) fun _ _ => True := by
  unfold declareDecl
  split
  · exact declareForward_binds List.mem_cons_self
  · exact declareType_binds List.mem_cons_self _
  · exact declareFunc_binds List.mem_cons_self _
  · exact declareMethod_binds _ _
  · exact declareImport_binds List.mem_cons_self _
  · exact .pure trivial

/-! ### Defining -/

/-- The function of the host for a function without a body. -/
theorem defineHosted_binds (name : Name) (b : Binding) :
    BindsOnly names c (defineHosted name b) fun _ _ => True := by
  refine .get ?_
  split
  · exact .fail _
  · exact (BindsOnly.rule (T := fun _ => True) fun _ _ _ => trivial).bind fun _ _ _ =>
      .setGlobal _ _

/-- The register code of a function. -/
theorem keepLowered_binds (name : Name) (decl : FuncDecl) (h : Heading) :
    BindsOnly names c (keepLowered name decl h) fun _ _ => True := by
  refine .types ?_
  split
  · exact .modifyGet ⟨rfl, rfl, rfl, rfl, rfl, Nat.le_refl _⟩ trivial
  · exact .pure trivial
  · exact .fail _

/-- The receiver of a method keeps its name. -/
theorem receiver?_binds (recv : Option Param) : BindsOnly names c (receiver? recv)
    fun r _ => r.map Prod.fst = recv.map Param.name := by
  cases recv with
  | none => exact .pure rfl
  | some p =>
      change BindsOnly names c (some <$> receiver p) _
      rw [map_eq_pure_bind]
      exact .bind (S := fun r _ => r.1 = p.name)
        ((BindsOnly.agrees (typeExpr_keeps p.type _)).bind fun _ _ _ => .pure rfl)
        fun _ _ hr => .pure (congrArg some hr)

/-- The body of a function or method. -/
theorem defineBody_binds (name : Name) (b : Binding) (decl : FuncDecl) (content : Block) :
    BindsOnly names c (defineBody name b decl content) fun _ _ => True := by
  refine (BindsOnly.agrees (heading_agrees decl.sig _)).bind fun hd _ hnames =>
    (receiver?_binds decl.recv).bind fun recv d hrecv => ?_
  have hroutine := routine_agrees (w := .free d.globals.size)
    (show Names decl.recv decl.sig recv hd from ⟨hrecv, hnames.params, hnames.results⟩)
    (blockTree_agrees content false _ _)
  have hbody := body_agrees (w := .top d.globals.size) false hroutine
    (routine_wellFormed recv hd content) fun _ hc => routine_returns recv hd content hc
  rw [assembled_bodyOf]
  refine (BindsOnly.agrees hbody).bind fun body _ _ => .get <| .get <|
    .bind (S := fun _ _ => True)
      (.modifyGet ⟨rfl, rfl, rfl, rfl, rfl, Nat.le_refl _⟩ trivial) fun _ _ _ =>
        (BindsOnly.setGlobal _ _).bind fun _ _ _ => .get (.ite (fun _ => ?_) fun _ => .pure trivial)
  exact keepLowered_binds name decl hd

/-- A function or method. -/
theorem defineFunc_binds (name : Name) (decl : FuncDecl) :
    BindsOnly names c (defineFunc name decl) fun _ _ => True := by
  refine .get ?_
  cases c.bindings.lookup name with
  | none => exact .fail _
  | some b =>
      cases decl.body with
      | none => exact defineHosted_binds name b
      | some content => exact defineBody_binds name b decl content

/-- The value of a constant declaration. -/
theorem constValue_binds (decl : Decl) :
    BindsOnly names c (constValue decl) fun e _ => ∀ w, e.Within w := by
  refine (BindsOnly.agrees (typeExpr?_keeps decl.valueType _)).bind fun declared _ _ => ?_
  cases decl.value with
  | none => exact .fail _
  | some e =>
      refine (BindsOnly.agrees (operand_stays e _)).bind fun op _ _ => ?_
      cases op with
      | results call types => exact .fail _
      | term x =>
          cases x with
          | code e ty => exact .fail _
          | const k ty => exact .rule fun _ => constEntity_within

/-- A constant is evaluated where its line is known, and then bound. -/
theorem defineConst_ok {decl : Decl} {d : Compiler} : defineConst decl c = .ok ((), d) ↔
    ∃ e c₁, constValue decl { c with iota := decl.iota } = .ok (e, c₁) ∧
      d = { c₁ with iota := none, names := (decl.name, e) :: c₁.names } := by
  rw [defineConst, withIota, bind_ok]
  constructor
  · rintro ⟨e, c₂, hwith, hbind⟩
    obtain ⟨_, c₃, hset, hwith⟩ := bind_ok.1 hwith
    obtain ⟨e', c₁, hvalue, hwith⟩ := bind_ok.1 hwith
    obtain ⟨_, c₄, hback, hwith⟩ := bind_ok.1 hwith
    cases hset
    cases hback
    cases hwith
    cases hbind
    exact ⟨e, c₁, hvalue, rfl⟩
  · rintro ⟨e, c₁, hvalue, rfl⟩
    exact ⟨e, { c₁ with iota := none },
      bind_ok.2 ⟨(), _, rfl, bind_ok.2 ⟨e, c₁, hvalue, rfl⟩⟩, rfl⟩

/-- A constant. -/
theorem defineConst_binds {decl : Decl} (hname : decl.name ∈ names) :
    BindsOnly names c (defineConst decl) fun _ _ => True := by
  intro hc _ d hok
  obtain ⟨e, c₁, hvalue, rfl⟩ := defineConst_ok.1 hok
  have hbegin : Compiler.Outermost { c with iota := decl.iota } :=
    ⟨hc.frames, rfl, hc.names, hc.methods, fun _ _ => trivial, fun _ _ _ _ => trivial⟩
  obtain ⟨hmoves, hwithin⟩ := constValue_binds decl hbegin e c₁ hvalue
  obtain ⟨hframes, -, hnames, hmethods, -⟩ := hmoves.outermost
  refine ⟨⟨⟨hframes, rfl, List.forall_mem_cons.2 ⟨hwithin _, hnames⟩, hmethods, fun _ _ => trivial,
    fun _ _ _ _ => trivial⟩, fun _ => rfl, fun n hn => ?_⟩, trivial⟩
  have hne : n ≠ decl.name := fun heq => hn (heq ▸ hname)
  exact (Compiler.entity?_of_ne hne).trans (hmoves.others n hn)

/-- A new package variable. -/
theorem newVar_binds {name : Name} (hname : name ∈ names) (ty : Ty) :
    BindsOnly names c (newVar name ty) fun _ _ => True := by
  refine .types <| (BindsOnly.newGlobal _).bind fun slot d hslot =>
    .bind (S := fun _ d => slot < d.globals.size)
      (.modifyGet ⟨rfl, rfl, rfl, rfl, rfl, Nat.le_refl _⟩ hslot) fun _ d' hslot => ?_
  exact (BindsOnly.bindEntity hname (e := .var ⟨slot, ty⟩) (World.covers_top hslot)).bind
    fun _ _ _ => .pure trivial

/-- New package variables for the results of a call. -/
theorem newVars_binds (declared : Option Ty) {vars : List Name} (hvars : vars ⊆ names)
    (types : List Ty) : BindsOnly names c (newVars declared vars types) fun _ _ => True := by
  induction vars generalizing types c with
  | nil => exact .pure trivial
  | cons name vars ih =>
      obtain ⟨hname, hvars⟩ := List.cons_subset.1 hvars
      cases types with
      | nil => exact .pure trivial
      | cons ty types =>
          exact (BindsOnly.rule (T := fun _ => True) fun _ _ _ => trivial).bind fun _ _ _ =>
            (newVar_binds hname _).bind fun _ _ _ => (ih hvars types).bind fun _ _ _ =>
              .pure trivial

/-- A variable. -/
theorem defineVar_binds {decl : Decl} (hname : decl.name ∈ names) :
    BindsOnly names c (defineVar decl) fun _ _ => True := by
  have hvalue {c : Compiler} : BindsOnly names c (optionalOperand decl.value) fun _ _ => True := by
    cases decl.value with
    | none => exact .pure trivial
    | some e =>
        change BindsOnly names c (some <$> operand e) _
        rw [map_eq_pure_bind]
        exact (BindsOnly.agrees (operand_stays e _)).bind fun _ _ _ => .pure trivial
  refine (BindsOnly.agrees (typeExpr?_keeps decl.valueType _)).bind fun declared _ _ =>
    hvalue.bind fun value _ _ =>
      (BindsOnly.check (T := fun _ => True) fun _ _ => trivial).bind fun ty _ _ =>
        (newVar_binds hname ty).bind fun slot _ _ => ?_
  cases value with
  | none => exact .pure trivial
  | some op =>
      exact .get ((BindsOnly.rule (T := fun _ => True) fun _ _ _ => trivial).bind fun i _ _ =>
        .addInit i)

/-- Several variables. -/
theorem defineTuple_binds {spec : ValueSpec} (hnames : spec.names ⊆ names) :
    BindsOnly names c (defineTuple spec) fun _ _ => True := by
  unfold defineTuple
  refine (BindsOnly.agrees (typeExpr?_keeps spec.type _)).bind fun declared _ _ => ?_
  dsimp only
  split
  · refine (BindsOnly.agrees (operand_stays _ _)).bind fun op _ _ => ?_
    cases op with
    | term _ => exact .fail _
    | results call types =>
        exact .ite (fun _ => (BindsOnly.fail _).bind (S := fun _ _ => False) fun _ _ h => h.elim)
          fun _ => (newVars_binds declared hnames types).bind fun _ _ _ => .get (.addInit _)
  · exact .fail _

/-- **What a declaration is given** is bound under its names. -/
theorem defineDecl_binds (decl : Decl) :
    BindsOnly (decl.name :: decl.boundNames) c (defineDecl decl) fun _ _ => True := by
  unfold defineDecl
  split
  · exact defineFunc_binds _ _
  · exact defineFunc_binds _ _
  · exact defineConst_binds List.mem_cons_self
  · next hnode =>
      refine defineTuple_binds fun n hn => List.mem_cons_of_mem _ ?_
      rw [Decl.boundNames, hnode]
      exact hn
  · exact defineVar_binds List.mem_cons_self
  · exact .pure trivial

/-! ### Batches -/

/-- The names of declarations. -/
def namesOf (decls : List Decl) : List Name :=
  decls.flatMap fun d => d.name :: d.boundNames

/-- A step for every declaration binds their names. -/
theorem eachDecl_binds {step : Decl → Compile Unit}
    (hstep : ∀ (c : Compiler) (d : Decl),
      BindsOnly (d.name :: d.boundNames) c (step d) fun _ _ => True)
    {decls : List Decl} (hnames : namesOf decls ⊆ names) :
    BindsOnly names c (eachDecl step decls) fun _ _ => True := by
  induction decls generalizing c with
  | nil => exact .pure trivial
  | cons d decls ih =>
      obtain ⟨hd, hdecls⟩ := List.append_subset.1 hnames
      exact (((hstep c d).mono hd).at' d.span).bind fun _ _ _ => ih hdecls

/-- A batch binds the names of its declarations. -/
theorem batch_binds {decls : List Decl} (hnames : namesOf decls ⊆ names) :
    BindsOnly names c (batch decls) fun _ _ => True := by
  refine (eachDecl_binds (fun _ => declareDecl_binds) fun n hn => hnames ?_).bind fun _ _ _ =>
    eachDecl_binds (fun _ => defineDecl_binds) hnames
  exact (List.Perm.flatMap_right _ (List.mergeSort_perm _ _)).subset hn

/-- **Batches bind the names of their declarations**, and what every other name stands for stays. -/
theorem batches_binds {bs : List (List Decl)} (hnames : namesOf bs.flatten ⊆ names) :
    BindsOnly names c (batches bs) fun _ _ => True := by
  induction bs generalizing c with
  | nil => exact .pure trivial
  | cons decls bs ih =>
      rw [List.flatten_cons, namesOf, List.flatMap_append] at hnames
      obtain ⟨hdecls, hbs⟩ := List.append_subset.1 hnames
      exact (batch_binds hdecls).bind fun _ _ _ => ih hbs

end Compile

end ScriptCore
