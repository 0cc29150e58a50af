import ScriptCore.Compile.Package
import ScriptCore.Proofs.Assignment.Categories
import ScriptCore.Proofs.Dependencies.Declarations

/-!
# What holds wherever a package is compiled

The rules of the compilation were compared in states whose table of types is settled and in which
the host provides functions.  Both are so in every state that the compilation of a package reaches,
since names of the package stand only for array and struct types that were built, and named types
are made to stand only for what a written type gave.

Main statements: `TypeOp.Step.settled`, `Compile.batches_grounded` (all declarations),
`Compile.Stable.grounded` (everything inside a declaration) and `Package.ofScope_settled`.
-/

namespace ScriptCore

/-! ### Tables -/

namespace TypeTable

/-- An array or struct type is held by the package. -/
def Has (t : TypeTable) (ty : Ty) : Prop :=
  ty.isAggregate = true → t.Held (Compile.typeRef ty)

variable {t t' : TypeTable}

/-- A table that grows has more. -/
theorem Has.grows {ty : Ty} (h : t.Has ty) (hgrows : t.Grows t') : t'.Has ty :=
  fun hagg => hgrows.held (h hagg)

/-- A table stays settled where what is new is held. -/
theorem Settled.of_new (h : t.Settled) (hgrows : t.Grows t')
    (hnew : ∀ id u, t'.definition? id = some u →
      t.definition? id = some u ∨ (u.type.isAggregate = true → t'.Held u)) : t'.Settled := by
  intro id u hu hagg
  rcases hnew id u hu with hold | hheld
  · exact hgrows.held (h id u hold hagg)
  · exact hheld hagg

/-- What a held type stands for is held. -/
theorem Settled.resolve (h : t.Settled) {u : TypeRef}
    (hu : u.type.isAggregate = true → t.Held u) (hagg : (t.resolve u).type.isAggregate = true) :
    t.Held (t.resolve u) := by
  obtain ⟨home, ty⟩ := u
  cases ty with
  | named id name package =>
      change ((t.definition? id).getD ⟨home, .named id name package⟩).type.isAggregate = true at hagg
      change t.Held ((t.definition? id).getD ⟨home, .named id name package⟩)
      cases hdef : t.definition? id with
      | none =>
          rw [hdef] at hagg
          cases hagg
      | some v =>
          rw [hdef] at hagg
          exact h id v hdef hagg
  | _ => exact hu hagg

/-- A new named type stands for nothing. -/
theorem definition?_declare {id : Nat} {u : TypeRef} (hu : t.declare.definition? id = some u) :
    t.definition? id = some u := by
  obtain ⟨d, hd, hu⟩ := Option.bind_eq_some_iff.1 hu
  rw [declare, List.getElem?_append] at hd
  split at hd
  · rw [definition?, hd]
    exact hu
  · obtain rfl := List.mem_singleton.1 (List.mem_of_getElem? hd)
    cases hu

/-- A changed entry stands for what it stood for or for what is new. -/
theorem definition?_revise {id id' : Nat} {f : Definition → Definition} {u : TypeRef}
    (hu : (t.revise id f).definition? id' = some u) :
    t.definition? id' = some u ∨ ∃ d ∈ t.named[id']?, (f d).underlying = some u := by
  obtain ⟨d, hd, hu⟩ := Option.bind_eq_some_iff.1 hu
  rw [revise, List.getElem?_modify] at hd
  obtain ⟨d', hd', rfl⟩ := Option.map_eq_some_iff.1 hd
  by_cases hid : id = id'
  · rw [if_pos hid] at hu
    exact .inr ⟨d', hd', hu⟩
  · rw [if_neg hid] at hu
    exact .inl (by rw [definition?, hd']; exact hu)

end TypeTable

namespace TypeOp

/-- **Every operation keeps a table settled**, if a named type is made to stand only for what is
held. -/
theorem Step.settled {t t' : TypeTable} {op : TypeOp} (h : Step t op t') (hs : t.Settled)
    (hop : ∀ r u, op = .setUnderlying r u → u.type.isAggregate = true → t.Held u) :
    t'.Settled := by
  have hgrows := TypeTable.Grows.step h
  cases h with
  | refused => exact hs
  | built =>
      rename_i i _ _
      exact hs.grows hgrows (t.intern_named i)
  | declared home name package =>
      refine hs.of_new hgrows fun id u hu => .inl (TypeTable.definition?_declare ?_)
      rwa [TypeTable.definition?, TypeTable.intern_named] at hu
  | defined home id name package v hopen hliteral =>
      refine hs.of_new hgrows fun id' u hu => ?_
      rcases TypeTable.definition?_revise hu with hold | ⟨d, hd, hnew⟩
      · exact .inl hold
      · cases hunder : d.underlying with
        | none =>
            rw [Definition.define, hunder, Option.none_or, Option.some.injEq] at hnew
            rw [← hnew]
            exact .inr fun hagg => hgrows.held (hs.resolve (hop _ v rfl) hagg)
        | some w =>
            rw [Definition.define, hunder, Option.some_or] at hnew
            refine .inl ?_
            rw [TypeTable.definition?, hd, Option.bind_some, hunder]
            exact hnew
  | extended home id owner name package m =>
      refine hs.of_new hgrows fun id' u hu => .inl ?_
      rcases TypeTable.definition?_revise hu with hold | ⟨d, hd, hnew⟩
      · exact hold
      · rw [TypeTable.definition?, hd]
        exact hnew

end TypeOp

/-! ### States -/

/-- A function type. -/
def Ty.IsFunction : Ty → Prop
  | .func _ _ _ _ => True
  | _ => False

/-- Values of function types are functions, whatever named types stand for. -/
theorem TypeTable.category_function (t : TypeTable) {ty : Ty} (h : ty.IsFunction) :
    t.category ty = .func := by
  cases ty with
  | func => rfl
  | _ => exact h.elim

/-- The host provides functions. -/
structure Hosts.AreFunctions (h : Hosts) : Prop where
  funcs : ∀ f ∈ h.funcs, f.type.IsFunction
  members : ∀ p ∈ h.packages, ∀ f ∈ p.members, f.type.IsFunction

/-- What a name may stand for: array and struct types that are held, and packages that the host
provides. -/
def Entity.Grounded (t : TypeTable) (hosts : Hosts) : Entity → Prop
  | .type ty => t.Has ty
  | .package p => p ∈ hosts.packages
  | .var _ | .func _ | .const _ _ => True

/-- What a name may stand for, it may stand for once there are more types. -/
theorem Entity.Grounded.grows {t t' : TypeTable} {hosts : Hosts} {e : Entity}
    (h : e.Grounded t hosts) (hgrows : t.Grows t') : e.Grounded t' hosts := by
  cases e with
  | type ty => exact TypeTable.Has.grows h hgrows
  | _ => exact h

/-- The same for what a name means, which may also be a function that the host provides. -/
def Meaning.Grounded (t : TypeTable) (hosts : Hosts) : Meaning → Prop
  | .type ty => t.Has ty
  | .package p => p ∈ hosts.packages
  | .host f => f ∈ hosts.funcs
  | .var _ _ _ | .func _ _ _ | .const _ _ | .builtin _ => True

/-- What holds of a state in which declarations are compiled. -/
structure Compiler.Grounded (c : Compiler) : Prop where
  settled : c.types.Settled
  names : ∀ e ∈ c.names, e.2.Grounded c.types c.hosts
  hosts : c.hosts.AreFunctions

namespace Compiler

variable {c d : Compiler}

/-- Before the first declaration. -/
theorem start_grounded {t : TypeTable} {hosts : Hosts} (ht : t.Settled)
    (hhosts : hosts.AreFunctions) (lowers : Bool) : (start t hosts lowers).Grounded :=
  ⟨ht, nofun, hhosts⟩

/-- The variables of bodies are variables. -/
theorem localMeaning_var {depth : Nat} {name : Name} {frames : List Frame} {m : Meaning}
    (h : localMeaning depth name frames = some m) : ∃ d slot ty, m = .var d slot ty := by
  induction frames generalizing depth with
  | nil => cases h
  | cons f frames ih =>
      rw [localMeaning] at h
      split at h
      · cases h
        exact ⟨_, _, _, rfl⟩
      · exact ih h

namespace Grounded

/-- What a name of the package stands for. -/
theorem entity (hc : c.Grounded) {name : Name} {e : Entity} (h : c.entity? name = some e) :
    e.Grounded c.types c.hosts := by
  obtain ⟨before, after, heq, -⟩ := List.lookup_eq_some_iff.1 h
  exact hc.names (name, e) (heq ▸ List.mem_append_right _ List.mem_cons_self)

/-- A predeclared name. -/
theorem predeclared {name : Name} {m : Meaning} (h : c.predeclared name = some m) :
    m.Grounded c.types c.hosts := by
  unfold Compiler.predeclared at h
  split at h
  case h_6 =>
    split at h
    · next f hf =>
        cases h
        exact findHost_mem hf
    · cases h
      trivial
    · obtain ⟨k, -, rfl⟩ := Option.map_eq_some_iff.1 h
      exact nofun
  all_goals cases h
  case h_5 => exact nofun
  all_goals trivial

/-- What a name means. -/
theorem resolve (hc : c.Grounded) {name : Name} {m : Meaning} (h : c.resolve name = some m) :
    m.Grounded c.types c.hosts := by
  unfold Compiler.resolve at h
  split at h
  · next hlocal =>
      cases h
      obtain ⟨_, _, _, rfl⟩ := localMeaning_var hlocal
      trivial
  · split at h
    · next e he =>
        cases h
        have hentity := hc.entity he
        cases e <;> exact hentity
    · exact predeclared h

/-- Host functions and members of packages are functions. -/
theorem hostsAreFunctions (hc : c.Grounded) : Compile.HostsAreFunctions c where
  host _ f h := c.types.category_function (hc.hosts.funcs f (hc.resolve h))
  member _ p h f hf := c.types.category_function (hc.hosts.members p (hc.resolve h) f hf)

end Grounded

end Compiler

namespace Compile

variable {α β : Type} {c d : Compiler} {exact : Bool}

/-- **A stable step leaves a state grounded**: it builds types of the package and nothing else. -/
theorem Stable.grounded {p : Compile α} (h : Stable exact p) (hc : c.Grounded) {a : α}
    (hp : p c = .ok (a, d)) : d.Grounded := by
  obtain ⟨hkept, d', -, hlike⟩ := h c c a d (.refl hc.settled) hp
  have hnames : d.names = c.names := by rw [hkept.rest]
  have hhosts : d.hosts = c.hosts := by rw [hkept.rest]
  refine ⟨hlike.settled, fun e he => ?_, hhosts ▸ hc.hosts⟩
  rw [hnames] at he
  rw [hhosts]
  exact (hc.names e he).grows hkept.grows

/-- A step leaves every grounded state grounded. -/
def Grounds (p : Compile α) : Prop :=
  ∀ c a d, c.Grounded → p c = .ok (a, d) → d.Grounded

namespace Grounds

/-- A stable step. -/
protected theorem stable {p : Compile α} (h : Stable false p) : Grounds p :=
  fun _ _ _ hc hp => h.grounded hc hp

/-- A result. -/
protected theorem pure (a : α) : Grounds (Pure.pure a) := by
  rintro c _ _ hc ⟨⟩
  exact hc

/-- A failure. -/
protected theorem fail (f : Fault) : Grounds (Compile.fail f : Compile α) := by
  intro c a d _ h
  cases h

/-- One step after another. -/
protected theorem bind {p : Compile β} {f : β → Compile α} (h : Grounds p)
    (hf : ∀ b, Grounds (f b)) : Grounds (p >>= f) := by
  intro c a d hc hok
  obtain ⟨b, c₁, hp, hok⟩ := bind_ok.1 hok
  exact hf b c₁ a d (h c b c₁ hc hp) hok

/-- A look at the state. -/
protected theorem get {f : Compiler → Compile α} (h : ∀ c, Grounds (f c)) :
    Grounds (MonadState.get >>= f) :=
  fun c a d hc hok => h c c a d hc hok

/-- A rule that needs nothing but what it is given. -/
protected theorem check (e : Except Fault α) : Grounds (Compile.check e) := by
  cases e with
  | error f => exact .fail f
  | ok a => exact .pure a

/-- A rule that looks at the types. -/
protected theorem rule (f : TypeTable → Except Fault α) : Grounds (Compile.rule f) :=
  .get fun c => .check (f c.types)

/-- A choice. -/
protected theorem ite {P : Prop} [Decidable P] {p q : Compile α} (hp : P → Grounds p)
    (hq : ¬P → Grounds q) : Grounds (if P then p else q) := by
  by_cases h : P
  · rw [if_pos h]
    exact hp h
  · rw [if_neg h]
    exact hq h

/-- Errors that get a place. -/
protected theorem at' {p : Compile α} (span : Span) (h : Grounds p) : Grounds (Compile.at' span p) :=
  fun c a d hc hok => h c a d hc (at'_ok.1 hok)

/-- A change of what has nothing to do with types, names and the host. -/
protected theorem modifyGet {f : Compiler → α × Compiler}
    (h : ∀ c, (f c).2.types = c.types ∧ (f c).2.names = c.names ∧ (f c).2.hosts = c.hosts) :
    Grounds (MonadStateOf.modifyGet f : Compile α) := by
  intro c a d hc hok
  obtain rfl : (f c).2 = d := congrArg Prod.snd (Except.ok.inj hok)
  obtain ⟨htypes, hnames, hhosts⟩ := h c
  refine ⟨htypes ▸ hc.settled, ?_, hhosts ▸ hc.hosts⟩
  rw [hnames, htypes, hhosts]
  exact hc.names

/-- A name of the package for what is neither a type nor a package. -/
theorem bindEntity (name : Name) {e : Entity} (he : ∀ t hosts, e.Grounded t hosts) :
    Grounds (Compile.bindEntity name e) := by
  rintro c _ _ hc ⟨⟩
  refine ⟨hc.settled, fun e' he' => ?_, hc.hosts⟩
  rcases List.mem_cons.1 he' with rfl | he'
  · exact he _ _
  · exact hc.names e' he'

/-- A new package-level slot. -/
theorem newGlobal (value : Value) : Grounds (Compile.newGlobal value) :=
  .modifyGet fun _ => ⟨rfl, rfl, rfl⟩

/-- What a package-level slot holds. -/
theorem setGlobal (slot : Nat) (value : Value) : Grounds (Compile.setGlobal slot value) :=
  .modifyGet fun _ => ⟨rfl, rfl, rfl⟩

/-- A slot for a function. -/
theorem newFuncSlot (name : Name) (ty : Ty) : Grounds (Compile.newFuncSlot name ty) :=
  (newGlobal .nil).bind fun _ =>
    (Grounds.modifyGet fun _ => ⟨rfl, rfl, rfl⟩).bind fun _ => .pure _

/-- A function that can be called from outside. -/
theorem exportFunc (name : Name) (b : Binding) : Grounds (Compile.exportFunc name b) :=
  .modifyGet fun _ => ⟨rfl, rfl, rfl⟩

/-- Code that initializes the package. -/
theorem addInit (i : Code.Instr) : Grounds (Compile.addInit i) :=
  .modifyGet fun _ => ⟨rfl, rfl, rfl⟩

/-- A new package variable. -/
theorem newVar (name : Name) (ty : Ty) : Grounds (Compile.newVar name ty) :=
  .get fun _ => (newGlobal _).bind fun _ =>
    (Grounds.modifyGet fun _ => ⟨rfl, rfl, rfl⟩).bind fun _ =>
      (bindEntity (e := .var _) _ fun _ _ => trivial).bind fun _ => .pure _

/-- New package variables for the results of a call. -/
theorem newVars (declared : Option Ty) (names : List Name) (types : List Ty) :
    Grounds (Compile.newVars declared names types) := by
  induction names generalizing types with
  | nil => exact .pure _
  | cons name names ih =>
      cases types with
      | nil => exact .pure _
      | cons ty types =>
          exact (Grounds.rule _).bind fun _ => (newVar _ _).bind fun _ =>
            (ih types).bind fun _ => .pure _

end Grounds

/-! ### Types -/

/-- What an operation of the package leaves is grounded, if a named type is made to stand only for
what is held. -/
theorem step_grounded (hc : c.Grounded) {op : TypeOp} {t : TypeTable}
    (hstep : TypeOp.Step c.types op t)
    (hop : ∀ r u, op = .setUnderlying r u → u.type.isAggregate = true → c.types.Held u) :
    Compiler.Grounded { c with types := t } := by
  refine ⟨hstep.settled hc.settled hop, fun e he => ?_, hc.hosts⟩
  exact (hc.names e he).grows (.step hstep)

/-- A new named type. -/
theorem newNamedType_grounded (hc : c.Grounded) {name : Name} {ty : Ty}
    (h : newNamedType name c = .ok (ty, d)) :
    d.Grounded ∧ ty = .named c.types.named.length name none := by
  have hleaves := TypeOp.perform_leaves c.types (.named packageHome name none)
  rw [newNamedType, build_eq] at h
  cases h
  exact ⟨step_grounded hc hleaves (by intro _ _ h; cases h), rfl⟩

/-- An array type that is built is held. -/
theorem arrayType_has {length : Nat} {elem ty : Ty} (h : arrayType length elem c = .ok (ty, d)) :
    d.types.Has ty := by
  rw [arrayType, build_eq] at h
  cases h
  exact fun _ => TypeTable.intern_held _ _

/-- A struct type that is built is held. -/
theorem structType_has {fields : List Field} {ty : Ty} (h : structType fields c = .ok (ty, d)) :
    d.types.Has ty := by
  rw [structType, build_eq] at h
  unfold Universe.struct at h
  split at h
  · next r t hrun =>
      cases h
      split at hrun
      · cases hrun
      · cases hrun
        exact fun _ => TypeTable.intern_held _ _
  · cases h

/-- The type is neither an array nor a struct type. -/
def IsPlain (ty : Ty) : Prop :=
  ty.isAggregate = false

/-- Slice types. -/
theorem sliceType_plain (elem : Ty) : Gives IsPlain (sliceType elem) := by
  have hplain : IsPlain (.slice elem) := rfl
  exact .build fun t => Universe.intern_makes hplain packageHome _ false [] t

/-- Pointer types. -/
theorem pointerType_plain (elem : Ty) : Gives IsPlain (pointerType elem) :=
  .build (Universe.pointer_makes _ _ rfl)

/-- Map types. -/
theorem mapType_plain (key value : Ty) : Gives IsPlain (mapType key value) := by
  have hplain : IsPlain (.map key value) := rfl
  refine .build fun t r t' => ?_
  change (if t.isComparable (typeRef key) then _ else _ : Build TypeRef).run.run t = _ → _
  split
  · exact Universe.intern_makes hplain packageHome _ _ _ t r t'
  · intro hrun
    cases hrun

/-- Function types. -/
theorem headingType_plain (recv : Option Ty) (h : Heading) : Gives IsPlain (headingType recv h) :=
  .build (Universe.func_makes _ _ _ _ _ fun _ _ _ => rfl)

/-- Interface types. -/
theorem interfaceType_plain (methods : List Method) : Gives IsPlain (interfaceType methods) :=
  .build (Universe.interface_makes _ _ fun _ => rfl)

/-- **What a written type gives is held.** -/
theorem typeExpr_has (hc : c.Grounded) {t : TypeExpr} {ty : Ty} (h : typeExpr t c = .ok (ty, d)) :
    d.types.Has ty := by
  have hplain {p : Compile Ty} (hp : Gives IsPlain p) (hok : p c = .ok (ty, d)) :
      d.types.Has ty := by
    intro hagg
    rw [show ty.isAggregate = false from hp c _ hok] at hagg
    cases hagg
  obtain ⟨span, kind⟩ := t
  rw [typeExpr, at'_ok] at h
  cases kind <;> rw [typeOfKind] at h
  case named name =>
    obtain ⟨hresolve, rfl⟩ := namedType_ok h
    exact hc.resolve hresolve
  case qualified package name => cases h
  case array length elem =>
    obtain ⟨_, _, -, h⟩ := bind_ok.1 h
    obtain ⟨_, _, -, h⟩ := bind_ok.1 h
    obtain ⟨_, _, -, h⟩ := bind_ok.1 h
    exact arrayType_has h
  case struct fields =>
    obtain ⟨_, _, -, h⟩ := bind_ok.1 h
    exact structType_has h
  case slice elem => exact hplain (.bind fun elem => sliceType_plain elem) h
  case pointer elem => exact hplain (.bind fun elem => pointerType_plain elem) h
  case map key value =>
    exact hplain (.bind fun key => .bind fun value => mapType_plain key value) h
  case func sig => exact hplain (.bind fun h => headingType_plain none h) h
  case interface methods => exact hplain (.bind fun methods => interfaceType_plain methods) h

/-- What a named type is completed to stand for leaves a state grounded, and so does a method. -/
theorem complete_grounds (hc : c.Grounded) (op : TypeOp) {step : Build Unit} {a : Unit}
    (hperform : op.perform = (fun _ => none) <$> step)
    (hop : ∀ r u, op = .setUnderlying r u → u.type.isAggregate = true → c.types.Held u)
    (h : complete step c = .ok (a, d)) : d.Grounded := by
  have hleaves := TypeOp.perform_leaves c.types op
  rw [hperform] at hleaves
  simp only [Build.Leaves, ExceptT.run_map, StateT.run_map] at hleaves
  obtain ⟨_, _, htypes, h⟩ := bind_ok.1 h
  cases htypes
  cases hstep : step.run.run c.types with
  | mk r t =>
      rw [hstep] at h hleaves
      cases r with
      | error f => cases h
      | ok _ =>
          cases h
          exact step_grounded hc hleaves hop

/-! ### Declarations -/

/-- A name for what it may stand for. -/
theorem bindEntity_grounded (hc : c.Grounded) {name : Name} {e : Entity}
    (he : e.Grounded c.types c.hosts) :
    Compiler.Grounded { c with names := (name, e) :: c.names } := by
  refine ⟨hc.settled, fun e' he' => ?_, hc.hosts⟩
  rcases List.mem_cons.1 he' with rfl | he'
  · exact he
  · exact hc.names e' he'

/-- A type that is declared forward. -/
theorem declareForward_grounds (name : Name) :
    Grounds (do bindEntity name (.type (← newNamedType name))) := by
  intro c a d hc h
  obtain ⟨ty, c₁, hty, h⟩ := bind_ok.1 h
  obtain ⟨hc₁, rfl⟩ := newNamedType_grounded hc hty
  cases h
  exact bindEntity_grounded hc₁ nofun

/-- A type under a name of its own. -/
theorem declaredType_grounds (name : Name) : Grounds (declaredType name) := by
  refine .get fun c' => ?_
  split
  · exact .pure _
  · intro c a d hc h
    obtain ⟨ty, c₁, hty, h⟩ := bind_ok.1 h
    obtain ⟨hc₁, rfl⟩ := newNamedType_grounded hc hty
    cases h
    exact bindEntity_grounded hc₁ nofun

/-- A type. -/
theorem declareType_grounds (name : Name) (spec : TypeSpec) : Grounds (declareType name spec) := by
  refine .ite (fun _ => ?_) fun _ => .bind (declaredType_grounds name) fun named => ?_
  · intro c a d hc h
    obtain ⟨ty, c₁, hty, h⟩ := bind_ok.1 h
    cases h
    exact bindEntity_grounded ((typeExpr_stable spec.type false).grounded hc hty)
      (typeExpr_has hc hty)
  · intro c a d hc h
    obtain ⟨ty, c₁, hty, h⟩ := bind_ok.1 h
    have hc₁ := (typeExpr_stable spec.type false).grounded hc hty
    refine complete_grounds hc₁ (.setUnderlying (typeRef named) (typeRef ty)) rfl ?_ h
    rintro _ _ ⟨⟩ hagg
    exact typeExpr_has hc hty hagg

/-- A function. -/
theorem declareFunc_grounds (name : Name) (decl : FuncDecl) : Grounds (declareFunc name decl) := by
  refine .bind (.stable (heading_stable decl.sig false)) fun h =>
    .bind (.stable (headingType_stable none h)) fun ty =>
      .bind (.newFuncSlot name ty) fun b => .ite (fun _ => ?_) fun _ => ?_
  · exact .modifyGet fun _ => ⟨rfl, rfl, rfl⟩
  · exact .bind (.exportFunc name b) fun _ => .bindEntity (e := .func b) name fun _ _ => trivial

/-- A method. -/
theorem declareMethod_grounds (name : Name) (decl : FuncDecl) :
    Grounds (declareMethod name decl) := by
  unfold declareMethod
  cases decl.recv with
  | none => exact .fail _
  | some recv =>
      refine .bind (.stable (typeExpr_stable recv.type false)) fun recvType => ?_
      cases Compiler.pointed recvType with
      | named id owner package =>
          refine .bind (.stable (heading_stable decl.sig false)) fun h =>
            .bind (.stable (headingType_stable _ h)) fun ty =>
              .bind (fun c a d hc hok => ?_) fun _ => .bind (.newFuncSlot name ty) fun b =>
                .bind (.modifyGet fun _ => ⟨rfl, rfl, rfl⟩) fun _ => .exportFunc name b
          exact complete_grounds hc (.addMethod _ _ _) rfl nofun hok
      | _ => exact .fail _

/-- An import. -/
theorem declareImport_grounds (name : Name) (spec : ImportSpec) :
    Grounds (declareImport name spec) := by
  intro c a d hc h
  obtain ⟨_, _, hget, h⟩ := bind_ok.1 h
  cases hget
  cases hp : c.hosts.package? spec.path with
  | none =>
      rw [hp] at h
      cases h
  | some p =>
      rw [hp] at h
      cases h
      exact bindEntity_grounded hc (List.mem_reverse.1 (List.mem_of_find?_eq_some hp))

/-- What a declaration stands for. -/
theorem declareDecl_grounds (decl : Decl) : Grounds (declareDecl decl) := by
  unfold declareDecl
  split
  · exact declareForward_grounds _
  · exact declareType_grounds _ _
  · exact declareFunc_grounds _ _
  · exact declareMethod_grounds _ _
  · exact declareImport_grounds _ _
  · exact .pure _

/-- The function of the host for a function without a body. -/
theorem defineHosted_grounds (name : Name) (b : Binding) : Grounds (defineHosted name b) := by
  refine .get fun c => ?_
  cases findHost c.hosts.funcs name with
  | none => exact .fail _
  | some f => exact .bind (.rule _) fun _ => .setGlobal _ _

/-- The register code of a function. -/
theorem keepLowered_grounds (name : Name) (decl : FuncDecl) (h : Heading) :
    Grounds (keepLowered name decl h) := by
  refine .get fun c => ?_
  cases StraightLine.ofFunc? decl (h.paramTypes.map c.types.kind)
      (h.resultTypes.map c.types.kind) with
  | error e => exact .fail _
  | ok code =>
      cases code with
      | none => exact .pure _
      | some code => exact .modifyGet fun _ => ⟨rfl, rfl, rfl⟩

/-- The receiver of a method. -/
theorem receiver?_stable (recv : Option Param) : Stable false (receiver? recv) := by
  cases recv with
  | none => exact .pure _
  | some p => exact .map _ ((typeExpr_stable p.type false).bind fun _ => .pure _)

/-- The body of a function or method. -/
theorem defineBody_grounds (name : Name) (b : Binding) (decl : FuncDecl) (content : Block) :
    Grounds (defineBody name b decl content) := by
  refine .bind (.stable (heading_stable decl.sig false)) fun h =>
    .bind (.stable (receiver?_stable decl.recv)) fun recv => ?_
  have hbody : Stable false (inFrame false (assembled (bodyOf recv h (block content)))) :=
    (assembled_stable (bodyOf_stable recv h (block_stable content))).inFrame false
  refine .bind (.stable hbody) fun body => .get fun _ => .get fun _ =>
    .bind (.modifyGet fun _ => ⟨rfl, rfl, rfl⟩) fun _ => .bind (.setGlobal _ _) fun _ =>
      .get fun _ => .ite (fun _ => ?_) fun _ => .pure _
  exact keepLowered_grounds name decl h

/-- A function or method. -/
theorem defineFunc_grounds (name : Name) (decl : FuncDecl) : Grounds (defineFunc name decl) := by
  refine .get fun c => ?_
  cases c.bindings.lookup name with
  | none => exact .fail _
  | some b =>
      cases decl.body with
      | none => exact defineHosted_grounds name b
      | some content => exact defineBody_grounds name b decl content

/-- The value of a constant is that of a constant. -/
theorem constEntity_const {t : TypeTable} {declared : Option Ty} {k : Constant} {type : Option Ty}
    {e : Entity} (h : constEntity t declared k type = .ok e) : ∃ k' ty, e = .const k' ty := by
  cases declared with
  | none =>
      cases h
      exact ⟨_, _, rfl⟩
  | some ty =>
      cases type with
      | none =>
          obtain ⟨k', -, h⟩ := rules_ok h
          cases h
          exact ⟨_, _, rfl⟩
      | some own =>
          obtain ⟨_, -, h⟩ := rules_ok h
          obtain ⟨k', -, h⟩ := rules_ok h
          cases h
          exact ⟨_, _, rfl⟩

/-- The value of a constant declaration. -/
theorem constValue_const {decl : Decl} {e : Entity} (hc : c.Grounded)
    (h : constValue decl c = .ok (e, d)) : d.Grounded ∧ ∃ k ty, e = .const k ty := by
  obtain ⟨declared, c₁, hdeclared, h⟩ := bind_ok.1 h
  have hc₁ := (typeExpr?_stable decl.valueType false).grounded hc hdeclared
  cases hvalue : decl.value with
  | none =>
      rw [hvalue] at h
      cases h
  | some value =>
      rw [hvalue] at h
      obtain ⟨o, c₂, ho, h⟩ := bind_ok.1 h
      have hc₂ := (operand_stable value false).grounded hc₁ ho
      cases o with
      | results call types => cases h
      | term x =>
          cases x with
          | code e ty => cases h
          | const k ty =>
              obtain ⟨hentity, rfl⟩ := rule_ok.1 h
              exact ⟨hc₂, constEntity_const hentity⟩

/-- A constant. -/
theorem defineConst_grounds (decl : Decl) : Grounds (defineConst decl) := by
  intro c a d hc h
  obtain ⟨e, c₁, he, h⟩ := bind_ok.1 h
  obtain ⟨_, c₂, hiota, he⟩ := bind_ok.1 he
  obtain ⟨e', c₃, hvalue, he⟩ := bind_ok.1 he
  obtain ⟨_, c₄, hback, he⟩ := bind_ok.1 he
  cases hiota
  cases hback
  cases he
  have hc₂ : Compiler.Grounded { c with iota := decl.iota } := ⟨hc.settled, hc.names, hc.hosts⟩
  obtain ⟨hc₃, k, ty, rfl⟩ := constValue_const hc₂ hvalue
  have hc₄ : Compiler.Grounded { c₃ with iota := none } := ⟨hc₃.settled, hc₃.names, hc₃.hosts⟩
  cases h
  exact bindEntity_grounded hc₄ trivial

/-- A variable. -/
theorem defineVar_grounds (decl : Decl) : Grounds (defineVar decl) := by
  have hvalue : Stable false (optionalOperand decl.value) := by
    cases decl.value with
    | none => exact .pure _
    | some e => exact (operand_stable e false).map some
  refine .bind (.stable (typeExpr?_stable decl.valueType false)) fun declared =>
    .bind (.stable hvalue) fun value => .bind (.check _) fun ty =>
      .bind (.newVar _ _) fun slot => ?_
  cases value with
  | none => exact .pure _
  | some op => exact .get fun _ => .bind (.rule _) fun _ => .addInit _

/-- Several variables. -/
theorem defineTuple_grounds (spec : ValueSpec) : Grounds (defineTuple spec) := by
  unfold defineTuple
  refine .bind (.stable (typeExpr?_stable spec.type false)) fun declared => ?_
  match spec.values with
  | [] | _ :: _ :: _ => exact .fail _
  | [value] =>
      refine .bind (.stable (operand_stable value false)) fun op => ?_
      cases op with
      | term _ => exact .fail _
      | results call types =>
          exact .ite (fun _ => .fail _) fun _ => .bind (.newVars _ _ _) fun _ =>
            .get fun _ => .addInit _

/-- The value of what is declared. -/
theorem defineDecl_grounds (decl : Decl) : Grounds (defineDecl decl) := by
  unfold defineDecl
  split
  · exact defineFunc_grounds _ _
  · exact defineFunc_grounds _ _
  · exact defineConst_grounds _
  · exact defineTuple_grounds _
  · exact defineVar_grounds _
  · exact .pure _

/-- A step for every declaration. -/
theorem eachDecl_grounds {step : Decl → Compile Unit} (h : ∀ decl, Grounds (step decl))
    (decls : List Decl) : Grounds (eachDecl step decls) := by
  induction decls with
  | nil => exact .pure _
  | cons decl decls ih => exact .bind ((h decl).at' decl.span) fun _ => ih

/-- **The declarations of a package leave a state grounded.** -/
theorem batches_grounded (bs : List (List Decl)) : Grounds (batches bs) := by
  induction bs with
  | nil => exact .pure _
  | cons decls bs ih =>
      have hbatch : Grounds (batch decls) :=
        .bind (eachDecl_grounds declareDecl_grounds _) fun _ =>
          eachDecl_grounds defineDecl_grounds decls
      exact .bind hbatch fun _ => ih

end Compile

/-- **The types of a package are settled**, so that another one can be compiled with them. -/
theorem Package.ofScope_settled {t : TypeTable} {hosts : Hosts} {lowers : Bool} {s : Scope}
    {p : Package} (ht : t.Settled) (hhosts : hosts.AreFunctions)
    (h : Package.ofScope t hosts lowers s = .ok p) : p.types.Settled := by
  unfold Package.ofScope at h
  split at h
  · cases h
  · split at h
    · next c hc =>
        cases h
        have hstart := Compiler.start_grounded ht hhosts lowers
        exact (Compile.batches_grounded _ _ _ c hstart hc).settled
    · cases h

end ScriptCore
