import ScriptCore.Compile.Package
import ScriptCore.Proofs.Dependencies.Syntax

/-!
# A declaration is compiled from what it depends on

What a declaration gives, its code, its errors and what it adds to the package, depends on the names
and methods of the package that are collected as its dependencies, and on no others: two packages in
which these mean the same give the same.  A declaration first looks up what it needs and then adds
to the package, except for a type, whose own name is added before the type it stands for is looked
at.

This holds of regular declarations.  A literal of a named map type with a bare identifier for a key
evaluates the identifier, which is not among the dependencies.

Main statements: `Decl.reads_deps` and `bareKey_read`.
-/

namespace ScriptCore

namespace Compiler

/-- The state with other names and methods of the package. -/
def withPackage (c : Compiler) (names : List (Name × Entity))
    (methods : List ((Nat × Name) × Binding)) : Compiler :=
  { c with names, methods }

end Compiler

namespace Compile

variable {α β : Type} {c : Compiler} {names : List (Name × Entity)}
  {methods : List ((Nat × Name) × Binding)}

/-- A step gives the same on a state and on the state with another package, and adds the same names
and methods to both. -/
inductive Parallel (p : Compile α) (c : Compiler) (names : List (Name × Entity))
    (methods : List ((Nat × Name) × Binding)) : Prop where
  | fails (e : CompileError) (h : p c = .error e) (h' : p (c.withPackage names methods) = .error e)
  | goes (a : α) (d : Compiler) (newNames : List (Name × Entity))
    (newMethods : List ((Nat × Name) × Binding)) (h : p c = .ok (a, d))
    (hnames : d.names = newNames ++ c.names) (hmethods : d.methods = newMethods ++ c.methods)
    (h' : p (c.withPackage names methods) =
      .ok (a, d.withPackage (newNames ++ names) (newMethods ++ methods)))

/-- A step that looks nothing up. -/
def Oblivious (p : Compile α) : Prop :=
  ∀ c names methods, Parallel p c names methods

/-- A step is parallel on the states that a view shows. -/
def Follows (v : Views) (p : Compile α) : Prop :=
  ∀ c, c.Shows v [] → Parallel p c v.names' v.methods'

/-- What comes after a step that gives something. -/
theorem bind_of_ok {p : Compile α} {f : α → Compile β} {a : α} {d : Compiler}
    (h : p c = .ok (a, d)) : (p >>= f) c = f a d := by
  change (p c).bind (fun r => f r.1 r.2) = f a d
  rw [h]
  rfl

/-- A step that fails ends everything. -/
theorem bind_of_error {p : Compile α} {f : α → Compile β} {e : CompileError}
    (h : p c = .error e) : (p >>= f) c = .error e := by
  change (p c).bind (fun r => f r.1 r.2) = .error e
  rw [h]
  rfl

/-- One step after another. -/
theorem Parallel.bind {p : Compile α} {f : α → Compile β} (h : Parallel p c names methods)
    (hf : ∀ a d newNames newMethods, p c = .ok (a, d) → d.names = newNames ++ c.names →
      d.methods = newMethods ++ c.methods →
      Parallel (f a) d (newNames ++ names) (newMethods ++ methods)) :
    Parallel (p >>= f) c names methods := by
  cases h with
  | fails e h h' => exact .fails e (bind_of_error h) (bind_of_error h')
  | goes a d newNames newMethods h hnames hmethods h' =>
      have hfirst : (p >>= f) c = f a d := bind_of_ok h
      have hsecond : (p >>= f) (c.withPackage names methods) =
          f a (d.withPackage (newNames ++ names) (newMethods ++ methods)) := bind_of_ok h'
      cases hf a d newNames newMethods h hnames hmethods with
      | fails e hnext hnext' => exact .fails e (hfirst.trans hnext) (hsecond.trans hnext')
      | goes a' d' nextNames nextMethods hnext hnames' hmethods' hnext' =>
          refine .goes a' d' (nextNames ++ newNames) (nextMethods ++ newMethods)
            (hfirst.trans hnext) ?_ ?_ ?_
          · rw [hnames', hnames, List.append_assoc]
          · rw [hmethods', hmethods, List.append_assoc]
          · rw [hsecond, hnext', List.append_assoc, List.append_assoc]

/-- Nothing was added to what is as before. -/
theorem added_nil {l m : List α} (h : l = m ++ l) : m = [] := by
  simpa using h

/-- A blind step is parallel, and adds nothing. -/
theorem BlindAt.parallel {v : Views} {b' : List Name} {p : Compile α} (h : BlindAt v b' p c)
    (hc : c.Shows v []) : Parallel p c v.names' v.methods' := by
  obtain ⟨hsame, hshows, -⟩ := h
  have hother : c.withPackage v.names' v.methods' = c.other v := rfl
  cases hp : p c with
  | error e =>
      rw [hp] at hsame
      exact .fails e hp hsame
  | ok r =>
      rw [hp] at hsame
      have hd := hshows r.1 r.2 hp
      exact .goes r.1 r.2 [] [] hp (hd.names.trans hc.names.symm)
        (hd.methods.trans hc.methods.symm) hsame

namespace Oblivious

/-- One step after another. -/
protected theorem bind {p : Compile α} {f : α → Compile β} (h : Oblivious p)
    (hf : ∀ a, Oblivious (f a)) : Oblivious (p >>= f) :=
  fun c names methods => (h c names methods).bind fun a d _ _ _ _ _ => hf a d _ _

/-- A change of the state that does not touch the package. -/
protected theorem modifyGet {f : Compiler → α × Compiler}
    (h : ∀ c names methods, f (c.withPackage names methods) =
      ((f c).1, (f c).2.withPackage names methods))
    (hnames : ∀ c, (f c).2.names = c.names) (hmethods : ∀ c, (f c).2.methods = c.methods) :
    Oblivious (MonadStateOf.modifyGet f : Compile α) := by
  intro c names methods
  refine .goes (f c).1 (f c).2 [] [] rfl (hnames c) (hmethods c) ?_
  exact congrArg Except.ok (h c names methods)

/-- A result. -/
protected theorem pure (a : α) : Oblivious (Pure.pure a) :=
  fun c _ _ => .goes a c [] [] rfl rfl rfl rfl

/-- A failure. -/
protected theorem fail (f : Fault) : Oblivious (Compile.fail f : Compile α) :=
  fun _ _ _ => .fails _ rfl rfl

/-- A look at a part of the state that is not the package. -/
protected theorem get {f : Compiler → Compile α}
    (hsame : ∀ c names methods, f (c.withPackage names methods) = f c)
    (h : ∀ c, Oblivious (f c)) : Oblivious (MonadState.get >>= f) := by
  intro c names methods
  have hget (e : Compiler) : (MonadState.get >>= f) e = f e e := rfl
  cases h c c names methods with
  | fails e h h' => exact .fails e h ((congrFun (hsame c names methods) _).trans h')
  | goes a d newNames newMethods h hnames hmethods h' =>
      exact .goes a d newNames newMethods h hnames hmethods
        ((congrFun (hsame c names methods) _).trans h')

/-- A look at the types. -/
protected theorem types {f : TypeTable → Compile α} (h : ∀ t, Oblivious (f t)) :
    Oblivious (Compile.types >>= f) :=
  Oblivious.get (f := fun c => f c.types) (fun _ _ _ => rfl) fun c => h c.types

/-- A rule that needs nothing but what it is given. -/
protected theorem check (e : Except Fault α) : Oblivious (Compile.check e) := by
  cases e with
  | error f => exact .fail f
  | ok a => exact .pure a

/-- A rule that looks at the types. -/
protected theorem rule (f : TypeTable → Except Fault α) : Oblivious (Compile.rule f) :=
  .types fun t => .check (f t)

/-- A choice. -/
protected theorem ite {P : Prop} [Decidable P] {p q : Compile α} (hp : P → Oblivious p)
    (hq : ¬P → Oblivious q) : Oblivious (if P then p else q) := by
  by_cases h : P
  · rw [if_pos h]
    exact hp h
  · rw [if_neg h]
    exact hq h

/-- A new name of the package. -/
theorem bindEntity (name : Name) (e : Entity) : Oblivious (Compile.bindEntity name e) :=
  fun c _ _ => .goes () { c with names := (name, e) :: c.names } [(name, e)] [] rfl rfl rfl rfl

/-- A type is built. -/
theorem build (step : Build TypeRef) : Oblivious (Compile.build step) := by
  intro c names methods
  cases hrun : step.run.run c.types with
  | mk r t =>
      have hother : step.run.run (c.withPackage names methods).types = (r, t) := hrun
      cases r with
      | error f =>
          refine .fails (.of (.typing f)) ?_ ?_
          · rw [build_eq, hrun]
          · rw [build_eq, hother]
      | ok r =>
          refine .goes r.type { c with types := t } [] [] ?_ rfl rfl ?_
          · rw [build_eq, hrun]
          · rw [build_eq, hother]
            rfl

/-- The types are changed. -/
theorem complete (step : Build Unit) : Oblivious (Compile.complete step) := by
  refine .types fun t => ?_
  cases step.run.run t with
  | mk r t' =>
      cases r with
      | error f => exact .fail _
      | ok _ =>
          exact .modifyGet (fun _ _ _ => rfl) (fun _ => rfl) fun _ => rfl

/-- A new method. -/
theorem newMethod (key : Nat × Name) (b : Binding) :
    Oblivious (modify fun c => { c with methods := (key, b) :: c.methods }) :=
  fun c _ _ => .goes () { c with methods := (key, b) :: c.methods } [] [(key, b)] rfl rfl rfl rfl

/-- A new package-level slot. -/
theorem newGlobal (value : Value) : Oblivious (Compile.newGlobal value) :=
  .modifyGet (fun _ _ _ => rfl) (fun _ => rfl) fun _ => rfl

/-- What a package-level slot holds. -/
theorem setGlobal (slot : Nat) (value : Value) : Oblivious (Compile.setGlobal slot value) :=
  .modifyGet (fun _ _ _ => rfl) (fun _ => rfl) fun _ => rfl

/-- A slot for a function. -/
theorem newFuncSlot (name : Name) (ty : Ty) : Oblivious (Compile.newFuncSlot name ty) :=
  (newGlobal .nil).bind fun _ =>
    (Oblivious.modifyGet (fun _ _ _ => rfl) (fun _ => rfl) fun _ => rfl).bind fun _ => .pure _

/-- A function that can be called from outside. -/
theorem exportFunc (name : Name) (b : Binding) : Oblivious (Compile.exportFunc name b) :=
  .modifyGet (fun _ _ _ => rfl) (fun _ => rfl) fun _ => rfl

/-- Code that initializes the package. -/
theorem addInit (i : Code.Instr) : Oblivious (Compile.addInit i) :=
  .modifyGet (fun _ _ _ => rfl) (fun _ => rfl) fun _ => rfl

/-- A new package variable. -/
theorem newVar (name : Name) (ty : Ty) : Oblivious (Compile.newVar name ty) :=
  .types fun _ => (newGlobal _).bind fun _ =>
    (Oblivious.modifyGet (fun _ _ _ => rfl) (fun _ => rfl) fun _ => rfl).bind fun _ =>
      (bindEntity _ _).bind fun _ => .pure _

/-- New package variables for the results of a call. -/
theorem newVars (declared : Option Ty) (names : List Name) (types : List Ty) :
    Oblivious (Compile.newVars declared names types) := by
  induction names generalizing types with
  | nil => exact .pure _
  | cons name names ih =>
      cases types with
      | nil => exact .pure _
      | cons ty types =>
          exact (Oblivious.rule _).bind fun _ => (newVar _ _).bind fun _ =>
            (ih types).bind fun _ => .pure _

/-- The function of the host for a function without a body. -/
theorem defineHosted (name : Name) (b : Binding) : Oblivious (Compile.defineHosted name b) := by
  refine .get (fun _ _ _ => rfl) fun c => ?_
  cases findHost c.hosts.funcs name with
  | none => exact .fail _
  | some f => exact (Oblivious.rule _).bind fun _ => setGlobal _ _

/-- The register code of a function. -/
theorem keepLowered (name : Name) (decl : FuncDecl) (h : Heading) :
    Oblivious (Compile.keepLowered name decl h) := by
  refine .types fun t => ?_
  cases StraightLine.ofFunc? decl (h.paramTypes.map t.kind) (h.resultTypes.map t.kind) with
  | error e => exact .fail _
  | ok code =>
      cases code with
      | none => exact .pure _
      | some code => exact .modifyGet (fun _ _ _ => rfl) (fun _ => rfl) fun _ => rfl

end Oblivious

/-! ### Declaring -/

namespace Follows

variable {v : Views}

/-- A step that looks nothing up. -/
theorem of_oblivious {p : Compile α} (h : Oblivious p) : Follows v p :=
  fun c _ => h c _ _

/-- A blind step before another, where what it gives is known. -/
theorem bind_of {P : α → Prop} {p : Compile α} {f : α → Compile β} (h : Quiet v [] p)
    (hgives : Gives P p) (hf : ∀ a, P a → Follows v (f a)) : Follows v (p >>= f) := by
  intro c hc
  have hp := h c hc
  refine (hp.parallel hc).bind fun a d newNames newMethods hok hnames hmethods => ?_
  have hd := hp.shows a d hok
  rw [hd.names, hc.names] at hnames
  rw [hd.methods, hc.methods] at hmethods
  rw [added_nil hnames, added_nil hmethods]
  exact hf a (hgives c (a, d) hok) d hd

/-- A blind step before another. -/
protected theorem bind {p : Compile α} {f : α → Compile β} (h : Quiet v [] p)
    (hf : ∀ a, Follows v (f a)) : Follows v (p >>= f) :=
  bind_of h (P := fun _ => True) (fun _ _ _ => trivial) fun a _ => hf a

/-- A look at a part of the state that is not the package. -/
protected theorem get {f : Compiler → Compile α}
    (hsame : ∀ c names methods, f (c.withPackage names methods) = f c)
    (h : ∀ c, Follows v (f c)) : Follows v (MonadState.get >>= f) := by
  intro c hc
  cases h c c hc with
  | fails e h h' => exact .fails e h ((congrFun (hsame c _ _) _).trans h')
  | goes a d newNames newMethods h hnames hmethods h' =>
      exact .goes a d newNames newMethods h hnames hmethods ((congrFun (hsame c _ _) _).trans h')

end Follows

/-- A function is declared from its signature. -/
theorem declareFunc_follows {v : Views} (name : Name) {decl : FuncDecl}
    (hsig : Quiet v [] (heading decl.sig)) : Follows v (declareFunc name decl) := by
  refine .bind hsig fun h => .of_oblivious <| (Oblivious.build _).bind fun ty =>
    (Oblivious.newFuncSlot name ty).bind fun b => .ite (fun _ => ?_) fun _ => ?_
  · exact .modifyGet (fun _ _ _ => rfl) (fun _ => rfl) fun _ => rfl
  · exact (Oblivious.exportFunc _ _).bind fun _ => .bindEntity _ _

/-- A method is declared from its receiver and its signature. -/
theorem declareMethod_follows {v : Views} (name : Name) {decl : FuncDecl}
    (hrecv : ∀ p ∈ decl.recv, Quiet v [] (typeExpr p.type))
    (hsig : Quiet v [] (heading decl.sig)) : Follows v (declareMethod name decl) := by
  unfold declareMethod
  cases hd : decl.recv with
  | none => exact .of_oblivious (.fail _)
  | some recv =>
      refine .bind (hrecv recv hd) fun recvType => ?_
      split
      · refine .bind hsig fun h => .of_oblivious <| (Oblivious.build _).bind fun ty =>
          (Oblivious.complete _).bind fun _ => (Oblivious.newFuncSlot name ty).bind fun b =>
            Oblivious.bind ?_ fun _ => .exportFunc _ _
        exact Oblivious.newMethod _ _
      · exact .of_oblivious (.fail _)

/-- An import is declared from what the host provides. -/
theorem declareImport_oblivious (name : Name) (spec : ImportSpec) :
    Oblivious (declareImport name spec) := by
  refine .get (fun _ _ _ => rfl) fun c => ?_
  cases c.hosts.package? spec.path with
  | none => exact .fail _
  | some p => exact .bindEntity _ _

/-- A new named type stands for nothing, and every other type for what it did. -/
theorem newNamedType_eq (name : Name) (c : Compiler) :
    ∃ t, (∀ ty, t.kind ty = c.types.kind ty) ∧
      ∀ names methods, newNamedType name (c.withPackage names methods) =
        .ok (.named c.types.named.length name none,
          Compiler.withPackage { c with types := t } names methods) := by
  have hrun : ∃ t, (Universe.named packageHome name none).run.run c.types =
      (.ok ⟨packageHome, .named c.types.named.length name none⟩, t) ∧
      t.named = c.types.named ++ [⟨none, none, []⟩] :=
    ⟨_, rfl, Universe.intern_still packageHome (.named c.types.named.length name none)
      (.named c.types.named.length name) true []
      { c.types with named := c.types.named ++ [⟨none, none, []⟩] }⟩
  obtain ⟨t, hok, hnamed⟩ := hrun
  refine ⟨t, fun ty => ?_, fun names methods => ?_⟩
  · have hdefinition (id : Nat) : t.definition? id = c.types.definition? id := by
      rw [TypeTable.definition?, TypeTable.definition?, hnamed, List.getElem?_append]
      split
      · rfl
      · rename_i hle
        rw [List.getElem?_eq_none (not_lt.1 hle)]
        cases id - c.types.named.length <;> rfl
    rw [TypeTable.kind, TypeTable.kind]
    congr 1
    cases ty with
    | named id _ _ => rw [TypeTable.underlying, TypeTable.underlying, hdefinition]
    | _ => rfl
  · have hother : (Universe.named packageHome name none).run.run
        (c.withPackage names methods).types =
          (.ok ⟨packageHome, .named c.types.named.length name none⟩, t) := hok
    rw [newNamedType, build_eq, hother]
    rfl

/-- A type that is declared forward is taken as it is, and any other is new; which of the two it is
depends on what its own name stands for. -/
theorem declaredType_cases (name : Name) (c : Compiler) :
    (∃ ty, ∀ names methods, names.lookup name = c.entity? name →
      declaredType name (c.withPackage names methods) = .ok (ty, c.withPackage names methods)) ∨
    ∃ ty t, (∀ ty', t.kind ty' = c.types.kind ty') ∧ t.kind ty ≠ .map ∧
      ∀ names methods, names.lookup name = c.entity? name →
        declaredType name (c.withPackage names methods) = .ok
          (ty, Compiler.withPackage { c with types := t } ((name, .type ty) :: names) methods) := by
  have hentity (names : List (Name × Entity)) (methods : List ((Nat × Name) × Binding)) :
      (c.withPackage names methods).entity? name = names.lookup name := rfl
  by_cases hforward : ∃ id n p, c.entity? name = some (.type (.named id n p))
  · obtain ⟨id, n, p, hforward⟩ := hforward
    refine .inl ⟨.named id n p, fun names methods hlookup => ?_⟩
    rw [declaredType, get_bind, hentity, hlookup, hforward]
    rfl
  · obtain ⟨t, hkind, hnew⟩ := newNamedType_eq name c
    have hundefined : c.types.kind (.named c.types.named.length name none) ≠ .map := by
      simp [TypeTable.kind, TypeTable.underlying, TypeTable.definition?, Ty.shape]
    refine .inr ⟨.named c.types.named.length name none, t, hkind, ?_,
      fun names methods hlookup => ?_⟩
    · rw [hkind]
      exact hundefined
    · rw [declaredType, get_bind, hentity, hlookup]
      have hbind : (do
          let ty ← newNamedType name
          bindEntity name (.type ty)
          return ty : Compile Ty) (c.withPackage names methods) = .ok
            (.named c.types.named.length name none, Compiler.withPackage { c with types := t }
              ((name, .type (.named c.types.named.length name none)) :: names) methods) := by
        rw [bind_of_ok (hnew names methods)]
        rfl
      cases he : c.entity? name with
      | none => exact hbind
      | some e =>
          cases e with
          | type ty =>
              cases ty with
              | named id n p => exact absurd ⟨id, n, p, he⟩ hforward
              | _ => exact hbind
          | _ => exact hbind

/-- What a name stands for once a name has been added to two packages. -/
theorem lookup_cons_congr {l l' : List (Name × Entity)} {n : Name} (entry : Name × Entity)
    (h : l.lookup n = l'.lookup n) : (entry :: l).lookup n = (entry :: l').lookup n := by
  rw [List.lookup_cons, List.lookup_cons, h]

/-- The view in which a name has been added to both packages. -/
def withName (v : Views) (entry : Name × Entity) : Views where
  names := entry :: v.names
  methods := v.methods
  names' := entry :: v.names'
  methods' := v.methods'
  plain := v.plain
  blank_agree := lookup_cons_congr entry v.blank_agree

/-- Packages that agree still agree once a name has been added to both. -/
theorem withName_agree {v : Views} (entry : Name × Entity) {u : Use} (h : v.Agree u) :
    (withName v entry).Agree u := by
  cases u with
  | name n => exact lookup_cons_congr entry h
  | method n => exact h

/-- A type is declared from its own name and the type it is written with, whatever other names there
are. -/
theorem declareType_follows {v : Views} {name : Name} {spec : TypeSpec}
    (hown : v.names.lookup name = v.names'.lookup name) (hregular : spec.type.Regular v.plain)
    (huses : ∀ u ∈ spec.type.uses [], v.Agree u) : Follows v (declareType name spec) := by
  refine fun c hc => ?_
  have hrest (w : Views) (hplain : w.plain = v.plain) (hagree : ∀ u, v.Agree u → w.Agree u)
      (named : Ty) : Follows w (do
        let underlying ← typeExpr spec.type
        complete (Universe.setUnderlying (typeRef named) (typeRef underlying))) := by
    have htype : Quiet w [] (typeExpr spec.type) := by
      apply typeExpr_quiet
      · rw [hplain]
        exact hregular
      · exact fun u hu => hagree u (huses u hu)
    exact .bind htype fun _ => .of_oblivious (.complete _)
  have hother : v.names'.lookup name = c.entity? name := by
    rw [Compiler.entity?, hc.names]
    exact hown.symm
  unfold declareType
  split
  · exact Follows.bind (typeExpr_quiet _ _ hregular huses)
      (fun _ => .of_oblivious (.bindEntity _ _)) c hc
  rcases declaredType_cases name c with ⟨ty, hty⟩ | ⟨ty, t, hkind, hmap, hty⟩
  · have hdeclared : Parallel (declaredType name) c v.names' v.methods' :=
      .goes ty c [] [] (hty c.names c.methods rfl) rfl rfl (hty _ _ hother)
    refine hdeclared.bind fun a d newNames newMethods hok hnames hmethods => ?_
    cases (hty c.names c.methods rfl).symm.trans hok
    rw [added_nil hnames, added_nil hmethods]
    exact hrest v rfl (fun _ h => h) ty c hc
  · have hnew := hty c.names c.methods rfl
    have hdeclared : Parallel (declaredType name) c v.names' v.methods' :=
      .goes ty _ [(name, .type ty)] [] hnew rfl rfl (hty _ _ hother)
    refine hdeclared.bind fun a d newNames newMethods hok hnames hmethods => ?_
    cases hnew.symm.trans hok
    have hadded : [(name, .type ty)] = newNames := List.append_cancel_right hnames
    rw [← hadded, added_nil hmethods]
    refine hrest (withName v (name, .type ty)) rfl (fun _ => withName_agree _) ty _ ?_
    refine ⟨congrArg _ hc.names, hc.methods, fun n hn => absurd hn List.not_mem_nil, ?_⟩
    intro n ty' hplain hlookup
    change t.kind ty' ≠ .map
    change ((name, .type ty) :: v.names).lookup n = some (.type ty') at hlookup
    rw [List.lookup_cons] at hlookup
    split at hlookup
    · cases hlookup
      exact hmap
    · rw [hkind]
      exact hc.plain n ty' hplain hlookup

/-! ### Defining -/

section Define

variable {v : Views}

/-- A step in which the line number of a constant is known. -/
theorem withIota_quiet {p : Compile α} (iota : Option Nat) (h : Quiet v [] p) :
    Quiet v [] (withIota iota p) := by
  have hiota (iota : Option Nat) : Quiet v [] (modify fun c => { c with iota }) :=
    Blind.modify (fun _ => rfl) (fun _ hc => ⟨hc.names, hc.methods, hc.bound, hc.plain⟩)
      fun _ => ⟨rfl, rfl⟩
  exact (hiota iota).bind fun _ => h.bind fun _ => (hiota none).bind fun _ => .pure _

/-- The value of a constant. -/
theorem constValue_quiet {d : Decl} (htype : Quiet v [] (typeExpr? d.valueType))
    (hvalue : ∀ e ∈ d.value, Quiet v [] (operand e)) : Quiet v [] (constValue d) := by
  refine htype.bind fun declared => ?_
  cases hd : d.value with
  | none => exact .fail _
  | some e =>
      refine (hvalue e hd).bind fun op => ?_
      cases op with
      | results _ _ => exact .fail _
      | term x =>
          cases x with
          | const c ty => exact .rule _
          | code _ _ => exact .fail _

/-- A constant is defined from its type and its value. -/
theorem defineConst_follows {d : Decl} (htype : Quiet v [] (typeExpr? d.valueType))
    (hvalue : ∀ e ∈ d.value, Quiet v [] (operand e)) : Follows v (defineConst d) :=
  .bind (withIota_quiet d.iota (constValue_quiet htype hvalue)) fun _ =>
    .of_oblivious (.bindEntity _ _)

/-- A variable is defined from its type and its value. -/
theorem defineVar_follows {d : Decl} (htype : Quiet v [] (typeExpr? d.valueType))
    (hvalue : ∀ e ∈ d.value, Quiet v [] (operand e)) : Follows v (defineVar d) := by
  have hoptional : Quiet v [] (optionalOperand d.value) := by
    cases hd : d.value with
    | none => exact .pure _
    | some e => exact (hvalue e hd).map some
  refine .bind htype fun declared => .bind hoptional fun value => .bind (.check _) fun ty =>
    .of_oblivious <| (Oblivious.newVar _ _).bind fun slot => ?_
  cases value with
  | none => exact .pure _
  | some op =>
      exact .get (fun _ _ _ => rfl) fun _ => (Oblivious.rule _).bind fun _ => .addInit _

/-- Several variables are defined from their type and the call. -/
theorem defineTuple_follows {spec : ValueSpec} (htype : Quiet v [] (typeExpr? spec.type))
    (hvalues : ∀ e ∈ spec.values, Quiet v [] (operand e)) : Follows v (defineTuple spec) := by
  unfold defineTuple
  refine .bind htype fun declared => ?_
  match hs : spec.values with
  | [] | _ :: _ :: _ => exact .of_oblivious (.fail _)
  | [value] =>
      refine .bind (hvalues value (hs ▸ List.mem_singleton_self _)) fun op => .of_oblivious ?_
      cases op with
      | term _ => exact .fail _
      | results call types =>
          refine .ite (fun _ => .fail _) fun _ => (Oblivious.newVars _ _ _).bind fun _ =>
            .get (fun _ _ _ => rfl) fun _ => .addInit _

/-- A receiver. -/
theorem receiver?_quiet {recv : Option Param} (h : ∀ p ∈ recv, Quiet v [] (typeExpr p.type)) :
    Quiet v [] (receiver? recv) := by
  cases recv with
  | none => exact .pure _
  | some p => exact ((h p rfl).bind fun _ => Quiet.pure _).map some

/-- A receiver has the name that is written. -/
theorem receiver?_name (recv : Option Param) :
    Gives (fun r => r.bind Prod.fst = recv.bind Param.name) (receiver? recv) := by
  cases recv with
  | none => exact .pure rfl
  | some p =>
      have hname : Gives (fun r => r.1 = p.name) (receiver p) := .bind fun _ => .pure rfl
      have hsome : Gives (fun r => r.bind Prod.fst = p.name)
          (receiver p >>= fun r => pure (some r)) :=
        .bind_of hname fun r hr => .pure hr
      rw [receiver?, map_eq_pure_bind]
      exact hsome

/-- A body is defined from the receiver and the signature, and the content in which their names are
bound. -/
theorem defineBody_follows (name : Name) (b : Binding) {decl : FuncDecl} {content : Block}
    (hrecv : Quiet v [] (receiver? decl.recv)) (hsig : Quiet v [] (heading decl.sig))
    (hcontent : Emit.Blind v ((decl.recv.bind Param.name).toList ++ decl.sig.boundNames)
      (block content) ((decl.recv.bind Param.name).toList ++ decl.sig.boundNames)) :
    Follows v (defineBody name b decl content) := by
  refine .bind_of hsig (heading_names decl.sig) fun h hh => .bind_of hrecv (receiver?_name _)
    fun recv hr => ?_
  have hcontent' : Emit.Blind v ((recv.bind Prod.fst).toList ++ headingNames h ++ [])
      (block content) ((decl.recv.bind Param.name).toList ++ decl.sig.boundNames) := by
    rw [hr, hh, List.append_nil]
    exact hcontent
  have hbody : Blind v (if false then [] else []) (assembled (bodyOf recv h (block content)))
      ((recv.bind Prod.fst).toList ++ headingNames h ++ []) :=
    assembled_blind (bodyOf_blind hcontent')
  refine .bind (inFrame_quiet hbody) fun body => .of_oblivious ?_
  refine .get (fun _ _ _ => rfl) fun _ => .get (fun _ _ _ => rfl) fun _ => ?_
  refine Oblivious.bind (.modifyGet (fun _ _ _ => rfl) (fun _ => rfl) fun _ => rfl) fun _ => ?_
  refine (Oblivious.setGlobal _ _).bind fun _ => .get (fun _ _ _ => rfl) fun _ => ?_
  exact .ite (fun _ => .keepLowered _ _ _) fun _ => .pure _

/-- A function or method is defined from its receiver, its signature and its body. -/
theorem defineFunc_follows (name : Name) {decl : FuncDecl}
    (hrecv : Quiet v [] (receiver? decl.recv)) (hsig : Quiet v [] (heading decl.sig))
    (hbody : ∀ content ∈ decl.body,
      Emit.Blind v ((decl.recv.bind Param.name).toList ++ decl.sig.boundNames) (block content)
        ((decl.recv.bind Param.name).toList ++ decl.sig.boundNames)) :
    Follows v (defineFunc name decl) := by
  refine .get (fun _ _ _ => rfl) fun c => ?_
  cases c.bindings.lookup name with
  | none => exact .of_oblivious (.fail _)
  | some b =>
      dsimp only
      cases hd : decl.body with
      | none => exact .of_oblivious (.defineHosted name b)
      | some content => exact defineBody_follows name b hrecv hsig (hbody content hd)

end Define

end Compile

/-! ### Declarations -/

/-- If the package has a type of the name, that is no map type. -/
def Compiler.IsPlain (c : Compiler) (n : Name) : Prop :=
  ∀ ty, c.names.lookup n = some (.type ty) → c.types.kind ty ≠ .map

namespace Decl

open Compile

variable {d : Decl} {c : Compiler} {names : List (Name × Entity)}
  {methods : List ((Nat × Name) × Binding)}

/-- Another package has what a declaration depends on: its dependencies, and for a type the name
itself, which may have been declared forward.  The blank name counts as bound where parameters and
local variables have it, although it is not. -/
structure Finds (d : Decl) (c : Compiler) (names : List (Name × Entity))
    (methods : List ((Nat × Name) × Binding)) : Prop where
  deps : ∀ n ∈ d.deps, c.names.lookup n = names.lookup n
  methodDeps : ∀ m ∈ d.methodDeps, ∀ id, c.methods.lookup (id, m) = methods.lookup (id, m)
  own : d.kind = .type → c.names.lookup d.name = names.lookup d.name
  blank : c.names.lookup blank = names.lookup blank

namespace Finds

/-- The two packages. -/
def views (h : d.Finds c names methods) : Views where
  names := c.names
  methods := c.methods
  names' := names
  methods' := methods
  plain := c.IsPlain
  blank_agree := h.blank

/-- The state has the first package. -/
theorem shows (h : d.Finds c names methods) : c.Shows h.views [] where
  names := rfl
  methods := rfl
  bound _ hn := absurd hn List.not_mem_nil
  plain _ ty hplain := hplain ty

/-- The packages agree on all uses. -/
theorem agree (h : d.Finds c names methods) : ∀ u ∈ d.uses, h.views.Agree u := by
  intro u hu
  cases u with
  | name n => exact h.deps n (mem_namesOf.2 hu)
  | method n => exact h.methodDeps n (mem_methodsOf.2 hu)

end Finds

section Parts

variable {v : Views}

/-- A function looks up what its receiver, its signature and its body do. -/
theorem func_parts {decl : FuncDecl} (hregular : decl.Regular v.plain)
    (huses : ∀ u ∈ decl.uses, v.Agree u) :
    (∀ p ∈ decl.recv, Quiet v [] (typeExpr p.type)) ∧ Quiet v [] (heading decl.sig) ∧
      ∀ content ∈ decl.body,
        Emit.Blind v ((decl.recv.bind Param.name).toList ++ decl.sig.boundNames) (block content)
          ((decl.recv.bind Param.name).toList ++ decl.sig.boundNames) := by
  obtain ⟨hrecv, hsig, hbody⟩ := hregular
  simp only [FuncDecl.uses, List.forall_mem_append] at huses
  obtain ⟨⟨huRecv, huSig⟩, huBody⟩ := huses
  refine ⟨fun p hp => ?_, heading_quiet decl.sig [] hsig huSig, fun content hcontent => ?_⟩
  · obtain ⟨name, ty⟩ := p
    rw [Option.mem_def.1 hp] at hrecv huRecv
    simp only [Option.toList_some, RegularParams] at hrecv
    simp only [Param.uses] at huRecv
    exact typeExpr_quiet ty [] hrecv.1 huRecv
  · rw [Option.mem_def.1 hcontent] at huBody
    exact block_quiet content _ (hbody content hcontent) huBody

/-- The operand of an expression is among those of the expressions. -/
theorem operand_mem_operands {e : Expr} {es : List Expr} (h : e ∈ es) :
    operand e ∈ operands es := by
  induction es with
  | nil => cases h
  | cons first rest ih =>
      rw [operands]
      rcases List.mem_cons.1 h with rfl | hmem
      · exact List.mem_cons_self
      · exact List.mem_cons_of_mem _ (ih hmem)

/-- Values of a line are looked up in order. -/
theorem spec_parts {spec : ValueSpec} (hregular : spec.Regular v.plain)
    (huses : ∀ u ∈ spec.uses [], v.Agree u) :
    Quiet v [] (typeExpr? spec.type) ∧ ∀ e ∈ spec.values, Quiet v [] (operand e) := by
  obtain ⟨lineNames, ty, values, line⟩ := spec
  simp only [ValueSpec.Regular] at hregular
  simp only [ValueSpec.uses, List.forall_mem_append] at huses
  refine ⟨typeExpr?_quiet ty [] hregular.1 huses.1, fun e he => ?_⟩
  exact operands_quiet values [] hregular.2 huses.2 _ (operand_mem_operands he)

/-- A constant or variable looks up what its type and its value do. -/
theorem value_parts (hregular : d.Regular v.plain) (huses : ∀ u ∈ d.uses, v.Agree u) :
    Quiet v [] (typeExpr? d.valueType) ∧ ∀ e ∈ d.value, Quiet v [] (operand e) := by
  have hnothing : Quiet v [] (typeExpr? none) := by
    simp only [typeExpr?]
    exact .pure _
  rw [Decl.Regular] at hregular
  rw [Decl.uses] at huses
  rw [Decl.valueType, Decl.value]
  cases hnode : d.node with
  | importSpec _ | forward | type _ | func _ =>
      exact ⟨hnothing, fun e he => by cases he⟩
  | value spec =>
      rw [hnode] at hregular huses
      obtain ⟨htype, hvalues⟩ := spec_parts hregular huses
      exact ⟨htype, fun e he => hvalues e (List.mem_of_head? he)⟩
  | tuple spec =>
      rw [hnode] at hregular huses
      exact ⟨(spec_parts hregular huses).1, fun e he => by cases he⟩
  | grouped spec index =>
      rw [hnode] at hregular huses
      obtain ⟨htype, hvalue⟩ := hregular
      simp only [List.forall_mem_append] at huses
      refine ⟨typeExpr?_quiet _ [] htype huses.1, fun e he => ?_⟩
      have hown : spec.values[index]? = some e := he
      rw [hown] at hvalue huses
      simp only [RegularExpr?] at hvalue
      simp only [usesOfExpr?] at huses
      exact operand_quiet e [] hvalue huses.2

end Parts

/-- What a declaration stands for as far as it needs no value. -/
theorem declared_parallel (hregular : d.Regular c.IsPlain) (h : d.Finds c names methods) :
    Parallel (declareDecl d) c names methods := by
  have huses := h.agree
  suffices hfollows : Follows h.views (declareDecl d) from hfollows c h.shows
  unfold declareDecl
  split
  · exact .of_oblivious ((Oblivious.build _).bind fun _ => .bindEntity _ _)
  · rename_i spec hkind hnode
    rw [Decl.Regular, hnode] at hregular
    rw [Decl.uses, hnode] at huses
    exact declareType_follows (h.own hkind) hregular huses
  · rename_i decl hkind hnode
    rw [Decl.Regular, hnode] at hregular
    rw [Decl.uses, hnode] at huses
    exact declareFunc_follows d.name (func_parts hregular huses).2.1
  · rename_i decl hkind hnode
    rw [Decl.Regular, hnode] at hregular
    rw [Decl.uses, hnode] at huses
    obtain ⟨hrecv, hsig, -⟩ := func_parts hregular huses
    exact declareMethod_follows d.name hrecv hsig
  · exact .of_oblivious (declareImport_oblivious _ _)
  · exact .of_oblivious (.pure _)

/-- What a declaration is defined as. -/
theorem defined_parallel (hregular : d.Regular c.IsPlain) (h : d.Finds c names methods) :
    Parallel (defineDecl d) c names methods := by
  have huses := h.agree
  suffices hfollows : Follows h.views (defineDecl d) from hfollows c h.shows
  have hvalue := value_parts (v := h.views) hregular huses
  have hfunc (decl : FuncDecl) (hnode : d.node = .func decl) :
      Follows h.views (defineFunc d.name decl) := by
    rw [Decl.Regular, hnode] at hregular
    rw [Decl.uses, hnode] at huses
    obtain ⟨hrecv, hsig, hbody⟩ := func_parts (v := h.views) hregular huses
    exact defineFunc_follows d.name (receiver?_quiet hrecv) hsig hbody
  unfold defineDecl
  split
  · exact hfunc _ ‹_›
  · exact hfunc _ ‹_›
  · exact defineConst_follows hvalue.1 hvalue.2
  · rename_i spec _ hnode
    rw [Decl.Regular, hnode] at hregular
    rw [Decl.uses, hnode] at huses
    obtain ⟨htype, hvalues⟩ := spec_parts (v := h.views) hregular huses
    exact defineTuple_follows htype hvalues
  · exact defineVar_follows hvalue.1 hvalue.2
  · exact .of_oblivious (.pure _)

/-- **A declaration is compiled from what it depends on.**  If another package has the dependencies
of a regular declaration, then the declaration gives the same there, when it is declared and when it
is defined.  And every name that it depends on occurs in it outside of the scope of the local names.
-/
theorem reads_deps (d : Decl) (c : Compiler) (names : List (Name × Entity))
    (methods : List ((Nat × Name) × Binding)) :
    (d.Regular c.IsPlain → d.Finds c names methods →
      Parallel (declareDecl d) c names methods ∧ Parallel (defineDecl d) c names methods) ∧
    ∀ n ∈ d.deps, d.Free n :=
  ⟨fun hregular h => ⟨declared_parallel hregular h, defined_parallel hregular h⟩,
    fun _ hn => free_of_mem_deps hn⟩

/-- A variable with a value. -/
def initialized (name : Name) (value : Expr) : Decl :=
  ⟨.var, name, .value (.mk [name] none [value] .none), .none, none, none, 0⟩

/-- A state in which the package has some names. -/
def declaring (names : List (Name × Entity)) : Compiler :=
  { Compiler.start .empty ⟨[], [], 0⟩ false with names }

/-- A variable that starts as `k` depends on `k` only. -/
theorem initialized_reads_deps :
    (initialized "x" (.node .none (.ident "k"))).Regular
        (declaring [("k", .const (.int 1) none), ("z", .const (.int 2) none)]).IsPlain ∧
      Parallel (defineDecl (initialized "x" (.node .none (.ident "k"))))
        (declaring [("k", .const (.int 1) none), ("z", .const (.int 2) none)])
        [("k", .const (.int 1) none)] [] := by
  have hregular : (initialized "x" (.node .none (.ident "k"))).Regular
      (declaring [("k", .const (.int 1) none), ("z", .const (.int 2) none)]).IsPlain := by
    simp [initialized, Decl.Regular, ValueSpec.Regular, RegularType?, RegularExprs, Expr.Regular,
      ExprKind.Regular]
  have hfinds : (initialized "x" (.node .none (.ident "k"))).Finds
      (declaring [("k", .const (.int 1) none), ("z", .const (.int 2) none)])
      [("k", .const (.int 1) none)] [] := by
    have hdeps : (initialized "x" (.node .none (.ident "k"))).deps = ["k"] := by decide
    have hmethods : (initialized "x" (.node .none (.ident "k"))).methodDeps = [] := by decide
    refine ⟨fun n hn => ?_, fun m hm => ?_, fun hkind => ?_, rfl⟩
    · rw [hdeps, List.mem_singleton] at hn
      rw [hn]
      rfl
    · rw [hmethods] at hm
      cases hm
    · cases hkind
  exact ⟨hregular, ((reads_deps _ _ _ _).1 hregular hfinds).2⟩

/-- The literal `M{k: 1}`. -/
def bareKeyLiteral : Expr :=
  .node .none (.composite (.node .none (.named "M"))
    [.mk (some (.node .none (.ident "k"))) (.node .none (.int 1))])

/-- A variable that starts as `M{k: 1}`, for a map type `M`, is defined if the package has a
constant `k` and refused if it has none, but `k` is not among its dependencies. -/
theorem bareKey_read :
    "k" ∉ (initialized "m" bareKeyLiteral).deps ∧
      (defineDecl (initialized "m" bareKeyLiteral) (declaring [("k", .const (.str "a") none),
        ("M", .type (.map (.basic .string) (.basic .int)))])).isOk = true ∧
      (defineDecl (initialized "m" bareKeyLiteral) (declaring
        [("M", .type (.map (.basic .string) (.basic .int)))])).map (fun r => r.1) =
          .error ⟨.undefined "k", some .none⟩ := by
  refine ⟨by decide, ?_, ?_⟩
  · decide +kernel
  · decide +kernel

end Decl

end ScriptCore
