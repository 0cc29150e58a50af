import ScriptCore.Types.Universe
import ScriptCore.Types.Signature

/-!
# Types and their descriptors

The compiler reads a type through its tree and through the definitions of named types, running code
through the descriptor that the type was built with and through the descriptors that named types
were given.  Whatever is built, defined and refused, in whatever universes, the two readings agree.

What is in step is the table (`TypeTable.InStep`): each type is held with the descriptor of its
tree, each named type has both definitions or none, and what it stands for is never named itself.
Every operation keeps this and a refused operation changes nothing (`TypeOp.perform_soundAt`).  The
agreement of the readings follows from it (`TypeTable.InStep.lockstep`).

Main statement: `TypeOp.performAll_lockstep`.
-/

namespace ScriptCore

namespace Ty

/-- Descriptors of types one by one. -/
theorem descriptors_eq_map (tys : List Ty) : descriptors tys = tys.map descriptor := by
  induction tys with
  | nil => rfl
  | cons ty tys ih => rw [descriptors, ih, List.map_cons]

/-- Descriptors of fields one by one. -/
theorem fieldDescriptors_eq_map (fs : List Field) :
    fieldDescriptors fs = fs.map fun f => (f.name, f.type.descriptor) := by
  induction fs with
  | nil => rfl
  | cons f fs ih => rw [fieldDescriptors, ih, List.map_cons]

/-- Descriptors of methods one by one. -/
theorem methodDescriptors_eq_map (ms : List Method) :
    methodDescriptors ms = ms.map fun m => (m.name, m.type.descriptor) := by
  induction ms with
  | nil => rfl
  | cons m ms ih => rw [methodDescriptors, ih, List.map_cons]

/-- The parameters that running code sees are the receiver, if any, and the declared ones. -/
theorem descriptor_func (recv : Option Ty) (ps rs : List Ty) (v : Bool) :
    (func recv ps rs v).descriptor =
      .func ((recv.toList ++ ps).map descriptor) (rs.map descriptor) v := by
  cases recv with
  | none => simp only [descriptor, descriptors_eq_map, Option.toList_none, List.nil_append]
  | some r =>
      simp only [descriptor, descriptors_eq_map, Option.toList_some, List.cons_append,
        List.nil_append, List.map_cons]

end Ty

/-! ### Tables in step -/

/-- Both definitions of a named type are there or neither is, they agree, and what the type stands
for is not named. -/
structure Definition.InStep (d : Definition) : Prop where
  described : d.described = d.underlying.map fun r => r.type.descriptor
  literal : ∀ r, d.underlying = some r → r.type.isNamed = false

/-- Saying what a type stands for leaves its definitions in step. -/
theorem Definition.InStep.define {d : Definition} {r : TypeRef} (h : d.InStep)
    (hr : r.type.isNamed = false) : (d.define r r.type.descriptor).InStep := by
  constructor
  · simp only [Definition.define, h.described]
    cases d.underlying <;> rfl
  · intro s hs
    simp only [Definition.define] at hs
    cases hu : d.underlying with
    | none =>
        rw [hu] at hs
        cases hs
        exact hr
    | some u =>
        rw [hu] at hs
        exact h.literal s (hu.trans hs)

namespace TypeTable

/-- Every type is held with the descriptor of its tree, and all definitions are in step. -/
structure InStep (t : TypeTable) : Prop where
  built : ∀ i ∈ t.instances, i.descriptor = i.ref.type.descriptor
  defined : ∀ d ∈ t.named, d.InStep

/-- A universe holds the type. -/
def Held (t : TypeTable) (r : TypeRef) : Prop :=
  (t.rtype? r).isSome = true

/-- A type that was built is held. -/
theorem intern_held (t : TypeTable) (i : Instance) : (t.intern i).Held i.ref := by
  rw [Held, rtype?, Option.isSome_map]
  exact t.intern_mem i

/-- What is held stays held when another type is built. -/
theorem Held.intern {t : TypeTable} {r : TypeRef} (h : t.Held r) (i : Instance) :
    (t.intern i).Held r := by
  rw [Held, rtype?, Option.isSome_map] at h ⊢
  rw [TypeTable.intern]
  split
  · exact h
  · rw [instance?, List.find?_append, Option.isSome_or]
    exact Bool.or_eq_true_iff.2 (.inl h)

/-- The empty table is in step. -/
theorem empty_inStep : empty.InStep :=
  ⟨List.forall_mem_nil _, List.forall_mem_nil _⟩

namespace InStep

variable {t : TypeTable} {r : TypeRef}

/-- A type that is held has the descriptor of its tree. -/
theorem eq_of_rtype? {d : Descriptor} (h : t.InStep) (hd : t.rtype? r = some d) :
    d = r.type.descriptor := by
  obtain ⟨i, hi, rfl⟩ := Option.map_eq_some_iff.1 hd
  have href : i.ref = r := by simpa using List.find?_some hi
  rw [h.built i (List.mem_of_find?_eq_some hi), href]

/-- Every type has the descriptor of its tree. -/
theorem rtype_eq (h : t.InStep) (r : TypeRef) : t.rtype r = r.type.descriptor := by
  rw [rtype]
  cases hd : t.rtype? r with
  | none => rfl
  | some d => exact h.eq_of_rtype? hd

/-- Every type has the descriptor of its tree. -/
theorem rtype_funext (h : t.InStep) : t.rtype = fun r => r.type.descriptor :=
  funext h.rtype_eq

/-- Adding a type with the descriptor of its tree. -/
theorem intern {i : Instance} (h : t.InStep) (hi : i.descriptor = i.ref.type.descriptor) :
    (t.intern i).InStep := by
  rw [TypeTable.intern]
  split
  · exact h
  · refine ⟨fun j hj => ?_, h.defined⟩
    rcases List.mem_append.1 hj with hj | hj
    · exact h.built j hj
    · rwa [List.mem_singleton.1 hj]

/-- Declaring a type that stands for nothing yet. -/
theorem declare (h : t.InStep) :
    ({ t with named := t.named ++ [⟨none, none, []⟩] } : TypeTable).InStep := by
  refine ⟨h.built, fun d hd => ?_⟩
  rcases List.mem_append.1 hd with hd | hd
  · exact h.defined d hd
  · rw [List.mem_singleton.1 hd]
    exact ⟨rfl, fun _ hr => nomatch hr⟩

/-- Changing the entry of a named type. -/
theorem modify {f : Definition → Definition} (h : t.InStep) (id : Nat)
    (hf : ∀ d : Definition, d.InStep → (f d).InStep) :
    ({ t with named := t.named.modify id f } : TypeTable).InStep := by
  refine ⟨h.built, fun d hd => ?_⟩
  obtain ⟨k, hk⟩ := List.mem_iff_getElem?.1 hd
  rw [List.getElem?_modify] at hk
  obtain ⟨d', hd', rfl⟩ := Option.map_eq_some_iff.1 hk
  have hin := h.defined d' (List.mem_of_getElem? hd')
  split
  · exact hf d' hin
  · exact hin

/-- What a named type stands for is described. -/
theorem described?_eq (h : t.InStep) (id : Nat) :
    t.described? id = (t.definition? id).map fun r => r.type.descriptor := by
  rw [described?, definition?]
  cases hd : t.named[id]? with
  | none => rfl
  | some d => exact (h.defined d (List.mem_of_getElem? hd)).described

/-- What a named type stands for is not named. -/
theorem not_named_of_definition? {id : Nat} (h : t.InStep) (hr : t.definition? id = some r) :
    r.type.isNamed = false := by
  obtain ⟨d, hd, hdr⟩ := Option.bind_eq_some_iff.1 hr
  exact (h.defined d (List.mem_of_getElem? hd)).literal r hdr

/-- What a type stands for stands for itself. -/
theorem underlying_underlying (h : t.InStep) (ty : Ty) :
    t.underlying (t.underlying ty) = t.underlying ty := by
  cases ty with
  | named id n p =>
      cases hd : t.definition? id with
      | none => simp only [underlying, hd, Option.elim_none]
      | some r =>
          have hu : t.underlying (.named id n p) = r.type := by
            simp only [underlying, hd, Option.elim_some]
          rw [hu, underlying_of_not_named (h.not_named_of_definition? hd)]
  | _ => rfl

/-- The descriptor of a type that is not named stands for itself. -/
theorem resolveDescriptorAt_of_not_named {ty : Ty} (hty : ty.isNamed = false) (fuel : Nat) :
    t.resolveDescriptorAt fuel ty.descriptor = ty.descriptor := by
  cases fuel with
  | zero => rfl
  | succ fuel =>
      cases ty with
      | named id n p => cases hty
      | func recv ps rs v => cases recv <;> rfl
      | _ => rfl

/-- Running code finds the descriptor of what a type stands for. -/
theorem resolveDescriptor_descriptor (h : t.InStep) (ty : Ty) :
    t.resolveDescriptor ty.descriptor = (t.underlying ty).descriptor := by
  cases hty : ty.isNamed with
  | false =>
      rw [resolveDescriptor, resolveDescriptorAt_of_not_named hty, underlying_of_not_named hty]
  | true =>
      obtain ⟨id, n, p, rfl⟩ : ∃ id n p, ty = .named id n p := by
        cases ty <;> first | exact ⟨_, _, _, rfl⟩ | cases hty
      cases hd : t.definition? id with
      | none =>
          have hnone : t.described? id = none := by rw [h.described?_eq, hd, Option.map_none]
          rw [resolveDescriptor, underlying, hd]
          cases t.named.length with
          | zero => rfl
          | succ fuel => simp only [Ty.descriptor, resolveDescriptorAt, hnone, Option.elim_none]
      | some r =>
          have hsome : t.described? id = some r.type.descriptor := by
            rw [h.described?_eq, hd, Option.map_some]
          have hlt : id < t.named.length := by
            obtain ⟨d, hget, -⟩ := Option.bind_eq_some_iff.1 hd
            exact (List.getElem?_eq_some_iff.1 hget).1
          obtain ⟨fuel, hfuel⟩ :=
            Nat.exists_eq_succ_of_ne_zero (Nat.ne_of_gt (Nat.zero_lt_of_lt hlt))
          rw [resolveDescriptor, hfuel, underlying, hd, Option.elim_some, Ty.descriptor,
            Nat.succ_eq_add_one, resolveDescriptorAt, hsome, Option.elim_some]
          exact resolveDescriptorAt_of_not_named (h.not_named_of_definition? hd) fuel

end InStep

/-! ### The two readings of a type -/

/-- The number of places by which a receiver moves the parameters. -/
def shift (recv : Option Ty) : Nat :=
  if recv.isSome then 1 else 0

/-- The parameters and results of a function type with the receiver `recv`, and those that running
code sees. -/
structure Aligned (t : TypeTable) (ty : Ty) (d : Descriptor) (recv : Option Ty) : Prop where
  numIn : ∃ n, t.numIn ty = .ok n ∧ (d.ins t).length = n + shift recv
  param : ∀ i p, t.paramAt ty i = .ok p → (d.ins t)[i + shift recv]? = some p.descriptor
  receiver : ∀ r, recv = some r → (d.ins t)[0]? = some r.descriptor
  numOut : t.numOut ty = .ok (d.outs t).length
  result : ∀ i r, t.resultAt ty i = .ok r → (d.outs t)[i]? = some r.descriptor
  variadic : t.isVariadic ty = .ok (d.isVariadic t)

/-- What one reads off a type and what running code reads off a descriptor agree. -/
structure Lockstep (t : TypeTable) (ty : Ty) (d : Descriptor) : Prop where
  kind : d.kind t = t.kind ty
  elem : d.elem? t = (t.elem? ty).map Ty.descriptor
  key : d.key? t = (t.key? ty).map Ty.descriptor
  numField : (d.fields t).length = (t.fields ty).length
  field : ∀ i : Nat, (d.fields t)[i]? = (t.fields ty)[i]?.map fun f => (f.name, f.type.descriptor)
  signature : ∀ recv, t.recv ty = .ok recv → t.Aligned ty d recv
  underlying : t.underlying (t.underlying ty) = t.underlying ty

/-- A type with a receiver or without one has a signature. -/
theorem signature?_of_recv {t : TypeTable} {ty : Ty} {recv : Option Ty}
    (h : t.recv ty = .ok recv) : ∃ s : Signature, t.signature? ty = some s ∧ s.recv = recv := by
  rw [TypeTable.recv, signatureFor] at h
  split at h
  · rename_i s hs
    cases h
    exact ⟨s, hs, rfl⟩
  · cases h

/-- The signature of a type is that of what it stands for. -/
theorem underlying_of_signature? {t : TypeTable} {ty : Ty} {s : Signature}
    (h : t.signature? ty = some s) :
    t.underlying ty = .func s.recv s.params s.results s.variadic := by
  rw [signature?] at h
  split at h
  · cases h
    assumption
  · cases h

/-- An element that is there is found under its position. -/
theorem elementFor_ok {op : String} {tys : List Ty} {i : Nat} {ty : Ty}
    (h : elementFor op tys i = .ok ty) : tys[i]? = some ty := by
  rw [elementFor] at h
  split at h
  · cases h
    assumption
  · cases h

/-- Parameters stand behind the receiver. -/
theorem getElem?_shift (recv : Option Ty) (ps : List Ty) (i : Nat) :
    ((recv.toList ++ ps).map Ty.descriptor)[i + shift recv]? = ps[i]?.map Ty.descriptor := by
  rw [List.getElem?_map]
  cases recv with
  | none => rfl
  | some r => rfl

/-- In a table in step the parameters and results of a function type are those that running code
sees. -/
theorem InStep.aligned {t : TypeTable} {ty : Ty} {recv : Option Ty} (h : t.InStep)
    (hrecv : t.recv ty = .ok recv) : t.Aligned ty ty.descriptor recv := by
  obtain ⟨s, hs, rfl⟩ := signature?_of_recv hrecv
  have hfor : ∀ op, t.signatureFor op ty = .ok s := fun op => by rw [signatureFor, hs]
  have hres : t.resolveDescriptor ty.descriptor =
      .func ((s.recv.toList ++ s.params).map Ty.descriptor) (s.results.map Ty.descriptor)
        s.variadic := by
    rw [h.resolveDescriptor_descriptor, underlying_of_signature? hs, Ty.descriptor_func]
  constructor
  case numIn =>
    refine ⟨s.params.length, by rw [numIn, hfor]; rfl, ?_⟩
    rw [Descriptor.ins, hres, List.length_map, List.length_append, Nat.add_comm]
    cases s.recv <;> rfl
  case param =>
    intro i p hp
    rw [paramAt, hfor] at hp
    rw [Descriptor.ins, hres, getElem?_shift, elementFor_ok hp, Option.map_some]
  case receiver =>
    intro r hr
    rw [Descriptor.ins, hres, hr]
    rfl
  case numOut =>
    rw [numOut, hfor, Descriptor.outs, hres, List.length_map]
    rfl
  case result =>
    intro i r hr
    rw [resultAt, hfor] at hr
    rw [Descriptor.outs, hres, List.getElem?_map, elementFor_ok hr, Option.map_some]
  case variadic =>
    rw [isVariadic, hfor, Descriptor.isVariadic, hres]
    rfl

/-- In a table in step both readings of every type agree. -/
theorem InStep.lockstep {t : TypeTable} (h : t.InStep) (ty : Ty) : t.Lockstep ty ty.descriptor := by
  have hres := h.resolveDescriptor_descriptor ty
  have hfields : ty.descriptor.fields t =
      (t.fields ty).map fun f => (f.name, f.type.descriptor) := by
    rw [Descriptor.fields, hres, fields]
    cases hu : t.underlying ty with
    | struct fs => exact Ty.fieldDescriptors_eq_map fs
    | func recv ps rs v => cases recv <;> rfl
    | _ => rfl
  constructor
  case kind => rw [Descriptor.kind, hres, Ty.descriptor_shape, TypeTable.kind]
  case elem =>
    rw [Descriptor.elem?, hres, elem?]
    cases t.underlying ty with
    | func recv ps rs v => cases recv <;> rfl
    | _ => rfl
  case key =>
    rw [Descriptor.key?, hres, key?]
    cases t.underlying ty with
    | func recv ps rs v => cases recv <;> rfl
    | _ => rfl
  case numField => rw [hfields, List.length_map]
  case field => exact fun i => by rw [hfields, List.getElem?_map]
  case signature => exact fun recv hrecv => h.aligned hrecv
  case underlying => exact h.underlying_underlying ty

end TypeTable

/-! ### Operations -/

/-- An operation on types, in the universe with the number `home` where it builds one.  `owned`
builds a function type in the universe of one of its parts. -/
inductive TypeOp where
  | basic (home : Nat) (kind : Kind)
  | slice (home : Nat) (elem : TypeRef)
  | array (home len : Nat) (elem : TypeRef)
  | map (home : Nat) (key value : TypeRef)
  | pointer (home : Nat) (elem : TypeRef)
  | struct (home : Nat) (fields : List (FieldOf TypeRef))
  | interface (home : Nat) (methods : List (MethodOf TypeRef))
  | func (home : Nat) (recv : Option TypeRef) (ins outs : List TypeRef) (variadic : Bool)
  | owned (default : Nat) (recv : Option TypeRef) (ins outs : List TypeRef) (variadic : Bool)
  | named (home : Nat) (name : Name) (package : Option String)
  | setUnderlying (type underlying : TypeRef)
  | addMethod (type : TypeRef) (name : Name) (method : TypeRef)

/-- A step is sound at a table in step if the table stays in step and holds what it held and the
types that the step gives, and if the table is left alone when the step fails. -/
def Build.SoundAt {α : Type} (t : TypeTable) (gives : α → List TypeRef) (step : Build α) : Prop :=
  match step.run.run t with
  | (.ok a, t') => t'.InStep ∧ ∀ r, t.Held r ∨ r ∈ gives a → t'.Held r
  | (.error _, t') => t' = t

namespace Build.SoundAt

variable {α β : Type} {t : TypeTable} {gives : α → List TypeRef}

/-- Failing changes nothing. -/
theorem throw (e : TypeError) : SoundAt t gives (throw e) :=
  rfl

/-- Reading the table first. -/
theorem get {step : TypeTable → Build α} (h : SoundAt t gives (step t)) :
    SoundAt t gives (do step (← get)) :=
  h

/-- A step whose result is turned into another that stands for the same types. -/
theorem map {step : Build α} {f : α → β} {gives' : β → List TypeRef} (h : SoundAt t gives step)
    (hf : ∀ a, gives' (f a) = gives a) : SoundAt t gives' (f <$> step) := by
  simp only [SoundAt, ExceptT.run_map, StateT.run_map] at h ⊢
  revert h
  cases step.run.run t with
  | mk r t' =>
      cases r with
      | error e => exact id
      | ok a => exact fun h => ⟨h.1, fun r hr => h.2 r (hf a ▸ hr)⟩

/-- One of two steps. -/
theorem ite {c : Prop} [Decidable c] {yes no : Build α} (hyes : c → SoundAt t gives yes)
    (hno : ¬c → SoundAt t gives no) : SoundAt t gives (if c then yes else no) := by
  split
  · exact hyes ‹_›
  · exact hno ‹_›

/-- Building a type with the descriptor of its tree. -/
theorem intern (ht : t.InStep) (home : Nat) {ty : Ty} {d : Descriptor} (hd : d = ty.descriptor)
    (comparable : Bool) (partHomes : List Nat) :
    SoundAt t (fun r => [r]) (Universe.intern home ty d comparable partHomes) := by
  refine ⟨ht.intern hd, fun r hr => ?_⟩
  rcases hr with hr | hr
  · exact hr.intern _
  · rw [List.mem_singleton.1 hr]
    exact t.intern_held _

/-- Changing the entry of a named type. -/
theorem modify (ht : t.InStep) (id : Nat) {f : Definition → Definition}
    (hf : ∀ d : Definition, d.InStep → (f d).InStep) :
    SoundAt t (fun _ => []) (set { t with named := t.named.modify id f } : Build Unit) :=
  ⟨ht.modify id hf, fun _ hr => hr.resolve_right (List.not_mem_nil)⟩

end Build.SoundAt

namespace Universe

variable {t : TypeTable} (ht : t.InStep)

include ht

/-- Building a function type. -/
theorem func_sound (home : Nat) (recv : Option TypeRef) (ins outs : List TypeRef)
    (variadic : Bool) : Build.SoundAt t (fun r => [r]) (func home recv ins outs variadic) := by
  refine .get (.ite (fun _ => .throw _) fun _ => .intern ht home ?_ false [])
  rw [Ty.descriptor_func, ht.rtype_funext]
  cases recv <;> simp

/-- Building a struct type. -/
theorem struct_sound (home : Nat) (fields : List (FieldOf TypeRef)) :
    Build.SoundAt t (fun r => [r]) (struct home fields) := by
  rw [struct]
  split
  · exact .throw _
  · refine .get (.intern ht home ?_ _ _)
    simp only [Ty.descriptor, Ty.fieldDescriptors_eq_map, ht.rtype_eq, List.map_map,
      Function.comp_def]

/-- Building an interface type. -/
theorem interface_sound (home : Nat) (methods : List (MethodOf TypeRef)) :
    Build.SoundAt t (fun r => [r]) (interface home methods) := by
  refine .get ?_
  split
  · exact .throw _
  · dsimp only
    split
    · exact .throw _
    · refine .intern ht home ?_ _ _
      simp only [Ty.descriptor, Ty.methodDescriptors_eq_map, ht.rtype_eq, List.map_map,
        Function.comp_def]

/-- Declaring a named type. -/
theorem named_sound (home : Nat) (name : Name) (package : Option String) :
    Build.SoundAt t (fun r => [r]) (named home name package) :=
  Build.SoundAt.intern ht.declare home rfl true []

/-- Defining a named type. -/
theorem setUnderlying_sound (r underlying : TypeRef) :
    Build.SoundAt t (fun _ => []) (setUnderlying r underlying) := by
  rw [setUnderlying]
  split
  · refine .get (.ite (fun _ => .throw _) fun hrec => .ite (fun _ => .throw _) fun _ => ?_)
    have hliteral : (t.resolve underlying).type.isNamed = false :=
      Bool.eq_false_iff.2 fun hnamed => hrec (by rw [hnamed, Bool.true_or])
    refine .modify ht _ fun d hd => ?_
    rw [ht.rtype_eq]
    exact hd.define hliteral
  · exact .throw _

/-- Declaring a method. -/
theorem addMethod_sound (r : TypeRef) (name : Name) (method : TypeRef) :
    Build.SoundAt t (fun _ => []) (addMethod r name method) := by
  rw [addMethod]
  split
  · refine .get (.ite (fun _ => .throw _) fun _ => .ite (fun _ => .throw _) fun _ => ?_)
    exact .modify ht _ fun d hd => ⟨hd.described, hd.literal⟩
  · exact .throw _

end Universe

namespace TypeOp

/-- What an operation does; those that build a type give it. -/
def perform : TypeOp → Build (Option TypeRef)
  | basic home kind => some <$> Universe.basic home kind
  | slice home elem => some <$> Universe.slice home elem
  | array home len elem => some <$> Universe.array home len elem
  | map home key value => some <$> Universe.map home key value
  | pointer home elem => some <$> Universe.pointer home elem
  | struct home fields => some <$> Universe.struct home fields
  | interface home methods => some <$> Universe.interface home methods
  | func home recv ins outs variadic => some <$> Universe.func home recv ins outs variadic
  | owned default recv ins outs variadic =>
    some <$> Universe.func (Universe.owner default recv ins outs) recv ins outs variadic
  | named home name package => some <$> Universe.named home name package
  | setUnderlying type underlying => (fun _ => none) <$> Universe.setUnderlying type underlying
  | addMethod type name method => (fun _ => none) <$> Universe.addMethod type name method

/-- The type that an operation gives and the table after it. -/
def outcome (op : TypeOp) (t : TypeTable) : Option TypeRef × TypeTable :=
  match op.perform.run.run t with
  | (.ok r, t') => (r, t')
  | (.error _, t') => (none, t')

/-- The types that some operations give, one after the other, and the table after them; one that
fails gives none. -/
def performAll : List TypeOp → TypeTable → List TypeRef × TypeTable
  | [], t => ([], t)
  | op :: ops, t =>
    let (r, t) := op.outcome t
    let (rs, t) := performAll ops t
    (r.toList ++ rs, t)

/-- No operation brings a table out of step, and a refused one changes nothing. -/
theorem perform_soundAt {t : TypeTable} (ht : t.InStep) (op : TypeOp) :
    Build.SoundAt t Option.toList op.perform := by
  cases op with
  | basic home kind => exact .map (.intern ht home rfl _ _) fun _ => rfl
  | slice home elem =>
      refine .map (.get (.intern ht home ?_ _ _)) fun _ => rfl
      rw [ht.rtype_eq, Ty.descriptor]
  | array home len elem =>
      refine .map (.get (.intern ht home ?_ _ _)) fun _ => rfl
      rw [ht.rtype_eq, Ty.descriptor]
  | map home key value =>
      refine .map (.get (.ite (fun _ => .intern ht home ?_ _ _) fun _ => .throw _)) fun _ => rfl
      rw [ht.rtype_eq, ht.rtype_eq, Ty.descriptor]
  | pointer home elem =>
      refine .map (.get (.intern ht home ?_ _ _)) fun _ => rfl
      rw [ht.rtype_eq, Ty.descriptor]
  | struct home fields => exact .map (Universe.struct_sound ht home fields) fun _ => rfl
  | interface home methods => exact .map (Universe.interface_sound ht home methods) fun _ => rfl
  | func home recv ins outs variadic =>
      exact .map (Universe.func_sound ht home recv ins outs variadic) fun _ => rfl
  | owned default recv ins outs variadic =>
      exact .map (Universe.func_sound ht _ recv ins outs variadic) fun _ => rfl
  | named home name package => exact .map (Universe.named_sound ht home name package) fun _ => rfl
  | setUnderlying type underlying =>
      exact .map (Universe.setUnderlying_sound ht type underlying) fun _ => rfl
  | addMethod type name method =>
      exact .map (Universe.addMethod_sound ht type name method) fun _ => rfl

/-- After an operation the table is in step and holds what it held and the type given. -/
theorem outcome_inStep {t : TypeTable} (ht : t.InStep) (op : TypeOp) :
    (op.outcome t).2.InStep ∧
      ∀ r, t.Held r ∨ r ∈ (op.outcome t).1.toList → (op.outcome t).2.Held r := by
  have hsound := perform_soundAt ht op
  rw [Build.SoundAt] at hsound
  rw [outcome]
  cases hrun : op.perform.run.run t with
  | mk r t' =>
      rw [hrun] at hsound
      cases r with
      | ok r => exact hsound
      | error e =>
          have heq : t' = t := hsound
          rw [heq]
          exact ⟨ht, fun r hr => hr.resolve_right List.not_mem_nil⟩

/-- After any operations the table is in step and holds what it held and the types given. -/
theorem performAll_inStep {t : TypeTable} (ht : t.InStep) (ops : List TypeOp) :
    (performAll ops t).2.InStep ∧
      ∀ r, t.Held r ∨ r ∈ (performAll ops t).1 → (performAll ops t).2.Held r := by
  induction ops generalizing t with
  | nil => exact ⟨ht, fun r hr => hr.resolve_right List.not_mem_nil⟩
  | cons op ops ih =>
      obtain ⟨hstep, hheld⟩ := outcome_inStep ht op
      obtain ⟨hrun, hkept⟩ := ih hstep
      refine ⟨hrun, fun r hr => hkept r ?_⟩
      rcases hr with hr | hr
      · exact .inl (hheld r (.inl hr))
      · rcases List.mem_append.1 hr with hr | hr
        · exact .inl (hheld r (.inr hr))
        · exact .inr hr

/-- **Lockstep of types and descriptors.**  After any operations in any universes, refused ones
included, every type that was given is held with the descriptor of its tree and agrees with it, and
an operation that is refused changes nothing. -/
theorem performAll_lockstep (ops : List TypeOp) :
    (∀ r ∈ (performAll ops .empty).1, ∃ d, (performAll ops .empty).2.rtype? r = some d ∧
      d = r.type.descriptor ∧ (performAll ops .empty).2.Lockstep r.type d) ∧
    ∀ (op : TypeOp) (e : TypeError) (t : TypeTable),
      op.perform.run.run (performAll ops .empty).2 = (.error e, t) →
        t = (performAll ops .empty).2 := by
  obtain ⟨hstep, hheld⟩ := performAll_inStep TypeTable.empty_inStep ops
  refine ⟨fun r hr => ?_, fun op e t hrun => ?_⟩
  · obtain ⟨d, hd⟩ := Option.isSome_iff_exists.1 (hheld r (.inr hr))
    have hdesc := hstep.eq_of_rtype? hd
    exact ⟨d, hd, hdesc, hdesc ▸ hstep.lockstep r.type⟩
  · have hsound := perform_soundAt hstep op
    rw [Build.SoundAt, hrun] at hsound
    exact hsound

/-- The type of a list of nodes. -/
def node : TypeRef := ⟨0, .named 0 "Node" none⟩

/-- Pointers to nodes, built in another universe. -/
def link : TypeRef := ⟨1, .pointer node.type⟩

/-- What a node is made of. -/
def body : TypeRef := ⟨0, .struct [⟨"next", link.type, false⟩]⟩

/-- A recursive type over two universes, which is defined a second time, and a method of it. -/
def linked : List TypeOp :=
  [.named 0 "Node" none, .pointer 1 node, .struct 0 [⟨"next", link, false⟩],
    .setUnderlying node body, .setUnderlying node link,
    .owned 1 (some node) [link] [] false, .interface 1 [⟨"step", node⟩]]

/-- The types of this list agree with their descriptors; defining nodes once more is refused. -/
theorem linked_lockstep :
    (performAll linked .empty).1 =
      [node, link, body, ⟨0, .func (some node.type) [link.type] [] false⟩] ∧
    (∀ r ∈ (performAll linked .empty).1, ∃ d, (performAll linked .empty).2.rtype? r = some d ∧
      d = r.type.descriptor ∧ (performAll linked .empty).2.Lockstep r.type d) ∧
    ∃ e, (TypeOp.setUnderlying node link).perform.run.run (performAll linked .empty).2 =
      (.error e, (performAll linked .empty).2) := by
  refine ⟨by decide +kernel, (performAll_lockstep linked).1, ?_⟩
  have hfails : ((TypeOp.setUnderlying node link).perform.run.run
      (performAll linked .empty).2).1.isOk = false := by
    decide +kernel
  cases hrun : (TypeOp.setUnderlying node link).perform.run.run (performAll linked .empty).2 with
  | mk r t =>
      rw [hrun] at hfails
      cases r with
      | ok r => cases hfails
      | error e => exact ⟨e, by rw [(performAll_lockstep linked).2 _ e t hrun]⟩

end TypeOp

end ScriptCore
