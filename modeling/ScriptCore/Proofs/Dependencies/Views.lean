import ScriptCore.Compile.Syntax
import ScriptCore.Proofs.Dependencies.Regular

/-!
# Steps and what they look up

A package-level name is looked up in the state of the compilation and nowhere else.  Here a step of
the compilation is run on two states that differ in what the package declares: `Views` has both, and
the names and methods on which they agree are those that may be looked up.  A step is blind if it
does the same on the two states.

Where names are bound, the step also says which ones are bound after it.

Main statements: `Compiler.Shows.resolve` (a name that is bound, or on which the views agree, has
the same meaning in both) and `Compile.Blind.bind`.
-/

namespace ScriptCore

/-- What a package declares, and what another one declares in its place.  The predicate `plain` says
of a type name that it does not stand for a map type. -/
structure Views where
  names : List (Name × Entity)
  methods : List ((Nat × Name) × Binding)
  names' : List (Name × Entity)
  methods' : List ((Nat × Name) × Binding)
  plain : Name → Prop
  blank_agree : names.lookup blank = names'.lookup blank

/-- The views agree on what is used. -/
def Views.Agree (v : Views) : Use → Prop
  | .name n => v.names.lookup n = v.names'.lookup n
  | .method n => ∀ id, v.methods.lookup (id, n) = v.methods'.lookup (id, n)

namespace Compiler

/-- The state with the other declarations. -/
def other (v : Views) (c : Compiler) : Compiler :=
  { c with names := v.names', methods := v.methods' }

/-- One of some bodies declares a name. -/
def BoundIn (frames : List Frame) (n : Name) : Prop :=
  ∃ f ∈ frames, (f.find? n).isSome

/-- The state has the first declarations of the views, and the names in `bound` are names of local
variables in it, the blank name apart. -/
structure Shows (v : Views) (bound : List Name) (c : Compiler) : Prop where
  names : c.names = v.names
  methods : c.methods = v.methods
  bound : ∀ n ∈ bound, n = blank ∨ BoundIn (c.frame :: c.enclosing) n
  plain : ∀ n ty, v.plain n → v.names.lookup n = some (.type ty) → c.types.kind ty ≠ .map

/-- The blocks around the innermost one and the bodies around the current one are the same. -/
def Outer (c d : Compiler) : Prop :=
  d.frame.blocks.tail = c.frame.blocks.tail ∧ d.enclosing = c.enclosing

variable {v : Views} {bound : List Name} {c d : Compiler} {n : Name}

/-- A name that a body declares is a name of a local variable. -/
theorem BoundIn.localMeaning {frames : List Frame} (h : BoundIn frames n) (depth : Nat) :
    ∃ m, localMeaning depth n frames = some m := by
  induction frames generalizing depth with
  | nil =>
      obtain ⟨f, hf, -⟩ := h
      cases hf
  | cons f rest ih =>
      rw [Compiler.localMeaning]
      cases hfind : f.find? n with
      | some l => exact ⟨_, rfl⟩
      | none =>
          obtain ⟨f', hf', hsome⟩ := h
          rcases List.mem_cons.1 hf' with rfl | hmem
          · rw [hfind] at hsome
            cases hsome
          · exact ih ⟨f', hmem, hsome⟩ _

/-- What the package declares in the two states. -/
theorem Shows.entity (h : c.Shows v bound) (hn : v.Agree (.name n)) :
    (c.other v).entity? n = c.entity? n := by
  rw [entity?, entity?, h.names]
  exact hn.symm

/-- **A name that is bound, or on which the views agree, means the same in both states.** -/
theorem Shows.resolve (h : c.Shows v bound) (hn : ∀ u ∈ nameUse bound n, v.Agree u) :
    (c.other v).resolve n = c.resolve n := by
  have hlocal : localMeaning 0 n ((c.other v).frame :: (c.other v).enclosing) =
      localMeaning 0 n (c.frame :: c.enclosing) := rfl
  have hentity (hagree : v.Agree (.name n)) : (c.other v).resolve n = c.resolve n := by
    rw [Compiler.resolve, Compiler.resolve, hlocal, h.entity hagree]
    rfl
  by_cases hmem : n ∈ bound
  · rcases h.bound n hmem with rfl | hbound
    · exact hentity v.blank_agree
    · obtain ⟨m, hm⟩ := hbound.localMeaning 0
      rw [Compiler.resolve, Compiler.resolve, hlocal, hm]
  · apply hentity
    apply hn
    rw [nameUse, if_neg (fun hcontains => hmem (List.contains_iff_mem.1 hcontains))]
    exact List.mem_singleton_self _

/-- A method on which the views agree is the same in both states. -/
theorem Shows.method (h : c.Shows v bound) (hn : v.Agree (.method n)) (ty : Ty) :
    (c.other v).method? ty n = c.method? ty n := by
  rw [Compiler.method?, Compiler.method?]
  split
  · rename_i id _ _ _
    rw [h.methods]
    exact (hn id).symm
  · rfl

/-- Fewer names are bound. -/
theorem Shows.mono {bound' : List Name} (h : c.Shows v bound) (hsub : bound' ⊆ bound) :
    c.Shows v bound' :=
  ⟨h.names, h.methods, fun n hn => h.bound n (hsub hn), h.plain⟩

/-- The same state. -/
theorem Outer.refl (c : Compiler) : c.Outer c := ⟨rfl, rfl⟩

/-- One change of the innermost block after another. -/
theorem Outer.trans {e : Compiler} (h : c.Outer d) (h' : d.Outer e) : c.Outer e :=
  ⟨h'.1.trans h.1, h'.2.trans h.2⟩

end Compiler

namespace Compile

variable {α β : Type} {v : Views} {b b' b₁ : List Name} {c : Compiler}

/-- A step does the same on a state and on the state with the other declarations.  After it some
names are bound, and the blocks around the innermost one are as before. -/
structure BlindAt (v : Views) (b' : List Name) (p : Compile α) (c : Compiler) : Prop where
  same : p (c.other v) = (p c).map fun r => (r.1, r.2.other v)
  shows : ∀ a d, p c = .ok (a, d) → d.Shows v b'
  outer : ∀ a d, p c = .ok (a, d) → c.Outer d

/-- A step is blind where some names are bound. -/
def Blind (v : Views) (b : List Name) (p : Compile α) (b' : List Name) : Prop :=
  ∀ c, c.Shows v b → BlindAt v b' p c

/-- A step is blind and binds nothing. -/
def Quiet (v : Views) (b : List Name) (p : Compile α) : Prop :=
  Blind v b p b

/-- One step after another, where the second may use what the first gave. -/
theorem BlindAt.bind_of {p : Compile α} {f : α → Compile β} (h : BlindAt v b₁ p c)
    (hf : ∀ a d, p c = .ok (a, d) → d.Shows v b₁ → BlindAt v b' (f a) d) :
    BlindAt v b' (p >>= f) c := by
  have hbind (e : Compiler) : (p >>= f) e = (p e).bind fun r => f r.1 r.2 := rfl
  obtain ⟨hsame, hshows, houter⟩ := h
  cases hp : p c with
  | error e =>
      rw [hp] at hsame
      have hnone (a : β) (d : Compiler) : (p >>= f) c ≠ .ok (a, d) := by
        rw [hbind, hp]
        intro h
        cases h
      refine ⟨?_, fun a d h => absurd h (hnone a d), fun a d h => absurd h (hnone a d)⟩
      rw [hbind, hbind, hsame, hp]
      rfl
  | ok r =>
      rw [hp] at hsame
      obtain ⟨hsame', hshows', houter'⟩ := hf r.1 r.2 hp (hshows r.1 r.2 hp)
      have hnext : (p >>= f) c = f r.1 r.2 := by
        rw [hbind, hp]
        rfl
      refine ⟨?_, ?_, ?_⟩
      · rw [hnext, ← hsame', hbind, hsame]
        rfl
      · rw [hnext]
        exact hshows'
      · rw [hnext]
        exact fun a d h => (houter r.1 r.2 hp).trans (houter' a d h)

/-- A look at the state. -/
theorem BlindAt.get {f : Compiler → Compile α} (hsame : f (c.other v) = f c)
    (h : BlindAt v b' (f c) c) : BlindAt v b' (MonadState.get >>= f) c := by
  obtain ⟨hstep, hshows, houter⟩ := h
  refine ⟨?_, hshows, houter⟩
  change f (c.other v) (c.other v) = _
  rw [hsame]
  exact hstep

/-- A look at the types. -/
theorem BlindAt.types {f : TypeTable → Compile α} (h : BlindAt v b' (f c.types) c) :
    BlindAt v b' (Compile.types >>= f) c :=
  ⟨h.same, h.shows, h.outer⟩

namespace Blind

/-- One step after another. -/
protected theorem bind {p : Compile α} {f : α → Compile β} (h : Blind v b p b₁)
    (hf : ∀ a, Blind v b₁ (f a) b') : Blind v b (p >>= f) b' :=
  fun c hc => (h c hc).bind_of fun a d _ hd => hf a d hd

/-- A result. -/
protected theorem pure (a : α) (hsub : b' ⊆ b) : Blind v b (Pure.pure a) b' := by
  intro c hc
  refine ⟨rfl, ?_, ?_⟩
  · rintro _ _ ⟨⟩
    exact hc.mono hsub
  · rintro _ _ ⟨⟩
    exact .refl c

/-- A failure. -/
protected theorem fail (f : Fault) : Blind v b (Compile.fail f : Compile α) b' := by
  intro c _
  refine ⟨rfl, ?_, ?_⟩
  · intro a d h
    cases h
  · intro a d h
    cases h

/-- Nothing happens after a failure. -/
theorem fail_bind (f : Fault) (g : β → Compile α) :
    Blind v b (Compile.fail f >>= g) b' := by
  intro c _
  refine ⟨rfl, ?_, ?_⟩
  · intro a d h
    cases h
  · intro a d h
    cases h

/-- Fewer names are bound. -/
protected theorem mono {p : Compile α} (h : Blind v b p b₁) (hsub : b' ⊆ b₁) : Blind v b p b' :=
  fun c hc => ⟨(h c hc).same, fun a d hp => ((h c hc).shows a d hp).mono hsub, (h c hc).outer⟩

/-- Errors that get a place. -/
protected theorem at' {p : Compile α} (span : Span) (h : Blind v b p b') :
    Blind v b (Compile.at' span p) b' := by
  intro c hc
  obtain ⟨hsame, hshows, houter⟩ := h c hc
  have hok (a : α) (d : Compiler) (hp : Compile.at' span p c = .ok (a, d)) : p c = .ok (a, d) := by
    unfold Compile.at' at hp
    cases hstep : p c with
    | error e =>
        rw [hstep] at hp
        cases hp
    | ok r =>
        rw [hstep] at hp
        exact hp
  refine ⟨?_, fun a d hp => hshows a d (hok a d hp), fun a d hp => houter a d (hok a d hp)⟩
  unfold Compile.at'
  rw [hsame]
  cases p c <;> rfl

/-- A choice. -/
protected theorem ite {P : Prop} [Decidable P] {p q : Compile α} (hp : P → Blind v b p b')
    (hq : ¬P → Blind v b q b') : Blind v b (if P then p else q) b' := by
  by_cases h : P
  · rw [if_pos h]
    exact hp h
  · rw [if_neg h]
    exact hq h

/-- A look at the types. -/
protected theorem types {f : TypeTable → Compile α} (h : ∀ t, Blind v b (f t) b') :
    Blind v b (Compile.types >>= f) b' :=
  fun c hc => .types (h c.types c hc)

/-- A look at the state, of which only what the two states have in common is used. -/
protected theorem get {f : Compiler → Compile α}
    (hsame : ∀ c, c.Shows v b → f (c.other v) = f c)
    (h : ∀ c, c.Shows v b → Blind v b (f c) b') : Blind v b (MonadState.get >>= f) b' :=
  fun c hc => .get (hsame c hc) (h c hc c hc)

/-- A change of the state that does not touch what the package declares. -/
protected theorem modify {f : Compiler → Compiler} (hsame : ∀ c, f (c.other v) = (f c).other v)
    (hshows : ∀ c, c.Shows v b → (f c).Shows v b') (houter : ∀ c : Compiler, c.Outer (f c)) :
    Blind v b (MonadState.modifyGet fun c => ((), f c) : Compile Unit) b' := by
  intro c hc
  refine ⟨?_, ?_, ?_⟩
  · change Except.ok ((), f (c.other v)) = _
    rw [hsame]
    rfl
  · rintro _ _ ⟨⟩
    exact hshows c hc
  · rintro _ _ ⟨⟩
    exact houter c

end Blind

namespace Quiet

/-- One step after another. -/
protected theorem bind {p : Compile α} {f : α → Compile β} (h : Quiet v b p)
    (hf : ∀ a, Quiet v b (f a)) : Quiet v b (p >>= f) :=
  Blind.bind h hf

/-- A result. -/
protected theorem pure (a : α) : Quiet v b (Pure.pure a) :=
  Blind.pure a fun _ h => h

/-- A failure. -/
protected theorem fail (f : Fault) : Quiet v b (Compile.fail f : Compile α) :=
  Blind.fail f

/-- A result that is changed. -/
protected theorem map {p : Compile α} (f : α → β) (h : Quiet v b p) : Quiet v b (f <$> p) := by
  rw [map_eq_pure_bind]
  exact h.bind fun a => .pure (f a)

/-- A rule that needs nothing but what it is given. -/
protected theorem check (e : Except Fault α) : Quiet v b (Compile.check e) := by
  cases e with
  | error f => exact .fail f
  | ok a => exact .pure a

/-- A rule that looks at the types. -/
protected theorem rule (f : TypeTable → Except Fault α) : Quiet v b (Compile.rule f) :=
  Blind.types fun t => Quiet.check (f t)

end Quiet

end Compile

/-! ### Types -/

/-- A step that builds types defines no named type. -/
def Build.Still {α : Type} (step : Build α) : Prop :=
  ∀ t, (step.run.run t).2.named = t.named

namespace Universe

/-- A type is kept. -/
theorem intern_still (home : Nat) (ty : Ty) (descriptor : Descriptor) (comparable : Bool)
    (partHomes : List Nat) : (intern home ty descriptor comparable partHomes).Still := by
  intro t
  change (t.intern _).named = t.named
  unfold TypeTable.intern
  split <;> rfl

/-- Slices. -/
theorem slice_still (home : Nat) (elem : TypeRef) : (slice home elem).Still :=
  fun t => intern_still home _ ((.slice (t.rtype elem))) false [] t

/-- Arrays. -/
theorem array_still (home len : Nat) (elem : TypeRef) : (array home len elem).Still :=
  fun t => intern_still home _ (.array len (t.rtype elem)) (t.isComparable elem) [elem.home] t

/-- Maps. -/
theorem map_still (home : Nat) (key value : TypeRef) : (map home key value).Still := by
  intro t
  change ((if t.isComparable key then _ else _ : Build TypeRef).run.run t).2.named = t.named
  split
  · exact intern_still home _ _ false [] t
  · rfl

/-- Pointers. -/
theorem pointer_still (home : Nat) (elem : TypeRef) : (pointer home elem).Still :=
  fun t => intern_still home _ (.pointer (t.rtype elem)) true [] t

/-- Structs. -/
theorem struct_still (home : Nat) (fields : List (FieldOf TypeRef)) :
    (struct home fields).Still := by
  intro t
  unfold struct
  split
  · rfl
  · exact intern_still home _ _ _ _ t

/-- Interfaces. -/
theorem interface_still (home : Nat) (methods : List (MethodOf TypeRef)) :
    (interface home methods).Still := by
  intro t
  rw [interface, Build.get_bind]
  split
  · rfl
  · dsimp only
    split
    · rfl
    · exact intern_still home _ _ _ _ t

/-- Functions. -/
theorem func_still (home : Nat) (recv : Option TypeRef) (ins outs : List TypeRef)
    (variadic : Bool) : (func home recv ins outs variadic).Still := by
  intro t
  unfold func
  change ((if _ then _ else _ : Build TypeRef).run.run t).2.named = t.named
  split
  · rfl
  · exact intern_still home _ _ _ _ t

end Universe

/-- The kind of a type depends on what named types stand for. -/
theorem TypeTable.kind_congr {t t' : TypeTable} (h : t'.named = t.named) (ty : Ty) :
    t'.kind ty = t.kind ty := by
  unfold TypeTable.kind TypeTable.underlying TypeTable.definition?
  rw [h]

namespace Compile

variable {v : Views} {b : List Name}

/-- A type is built in a state. -/
theorem build_eq (step : Build TypeRef) (c : Compiler) :
    build step c =
      match step.run.run c.types with
      | (.ok r, t) => .ok (r.type, { c with types := t })
      | (.error f, _) => .error (.of (.typing f)) := by
  change (match step.run.run c.types with
    | (.ok r, t) => _
    | (.error e, _) => _ : Compile Ty) c = _
  cases step.run.run c.types with
  | mk r t => cases r <;> rfl

/-- A step that builds a type looks up nothing. -/
theorem build_quiet {step : Build TypeRef} (h : step.Still) : Quiet v b (build step) := by
  intro c hc
  have hnamed := h c.types
  have hother : (c.other v).types = c.types := rfl
  cases hrun : step.run.run c.types with
  | mk r t =>
      rw [hrun] at hnamed
      cases r with
      | error f =>
          have herror (a : Ty) (d : Compiler) : build step c ≠ .ok (a, d) := by
            rw [build_eq, hrun]
            intro h
            cases h
          refine ⟨?_, fun a d h => absurd h (herror a d), fun a d h => absurd h (herror a d)⟩
          rw [build_eq, build_eq, hother, hrun]
          rfl
      | ok r =>
          have hok : build step c = .ok (r.type, { c with types := t }) := by
            rw [build_eq, hrun]
          refine ⟨?_, ?_, ?_⟩
          · rw [hok, build_eq, hother, hrun]
            rfl
          · intro a d h
            rw [hok] at h
            cases h
            refine ⟨hc.names, hc.methods, hc.bound, fun n ty hplain hlookup => ?_⟩
            rw [TypeTable.kind_congr hnamed]
            exact hc.plain n ty hplain hlookup
          · intro a d h
            rw [hok] at h
            cases h
            exact .refl c

/-- Slices of a type. -/
theorem sliceType_quiet (elem : Ty) : Quiet v b (sliceType elem) :=
  build_quiet (Universe.slice_still _ _)

/-- Arrays of a type. -/
theorem arrayType_quiet (length : Nat) (elem : Ty) : Quiet v b (arrayType length elem) :=
  build_quiet (Universe.array_still _ _ _)

/-- Maps between types. -/
theorem mapType_quiet (key value : Ty) : Quiet v b (mapType key value) :=
  build_quiet (Universe.map_still _ _ _)

/-- Pointers to a type. -/
theorem pointerType_quiet (elem : Ty) : Quiet v b (pointerType elem) :=
  build_quiet (Universe.pointer_still _ _)

/-- Structs with the given fields. -/
theorem structType_quiet (fields : List Field) : Quiet v b (structType fields) :=
  build_quiet (Universe.struct_still _ _)

/-- Interfaces with the given methods. -/
theorem interfaceType_quiet (methods : List Method) : Quiet v b (interfaceType methods) :=
  build_quiet (Universe.interface_still _ _)

/-- The function type of a signature. -/
theorem signatureType_quiet (recv : Option Ty) (params results : List Ty) (variadic : Bool) :
    Quiet v b (signatureType recv params results variadic) :=
  build_quiet (Universe.func_still _ _ _ _ _)

/-- The type of a parameter. -/
theorem paramType_quiet (collects : Bool) (ty : Ty) : Quiet v b (paramType collects ty) :=
  Blind.ite (fun _ => sliceType_quiet ty) fun _ => Quiet.pure ty

/-- The length of an array. -/
theorem arrayLength_quiet (op : Operand) : Quiet v b (arrayLength op) := by
  unfold arrayLength
  split
  · split
    · exact Blind.ite (fun _ => Quiet.pure _) fun _ => Quiet.fail _
    · exact .fail _
  · exact .fail _

/-- The signature of what is called. -/
theorem calledSignature_quiet (ty : Ty) : Quiet v b (calledSignature ty) := by
  refine Blind.types fun t => ?_
  cases t.signature? ty with
  | none => exact Quiet.fail _
  | some s => exact Quiet.pure s

end Compile

end ScriptCore
