import ScriptCore.Proofs.Control.Elaborate

/-!
# Local steps

Everything that is written inside a declaration is compiled by steps that look at little of the
state: the types, what names mean, and the bodies being compiled.  They change nothing but the types
and the bodies.  Such steps are local: they are put together from looks at that part of the state,
from types that are built and from changes of the current body.  Only the steps by which a body
begins change what the body returns.

What holds of these few kinds of steps, and of any steps put together from them, holds of every rule
by which an expression, a type or a statement is compiled.

Main statements: `Compile.call_isLocal`, `Compile.composite_isLocal` and `Compile.funcLit_isLocal`.
-/

namespace ScriptCore

/-- What a local step can look at: the rest of the state does not say anything about names, types or
bodies. -/
def Compiler.surroundings (c : Compiler) : Compiler :=
  { c with
    lowers := false, globals := #[], functions := #[], bindings := [], initCode := #[]
    initFuncs := [], funcs := [], vars := [], lowered := [] }

/-- What a body returns: the types of its results, and their slots if they have names. -/
def Frame.returned (f : Frame) : List Ty × Option (List Nat) :=
  (f.results, f.namedResults)

namespace Compile

/-- Steps that look at types, names and bodies, and change types and bodies; where `begins` is set,
they may also change what the current body returns. -/
inductive IsLocal : Bool → {α : Type} → Compile α → Prop where
  | pure {begins : Bool} {α : Type} (a : α) : IsLocal begins (Pure.pure a : Compile α)
  | fail {begins : Bool} {α : Type} (f : Fault) : IsLocal begins (Compile.fail f : Compile α)
  | bind {begins : Bool} {α β : Type} {p : Compile α} {f : α → Compile β} :
      IsLocal begins p → (∀ a, IsLocal begins (f a)) → IsLocal begins (p >>= f)
  | at' {begins : Bool} {α : Type} {p : Compile α} (span : Span) :
      IsLocal begins p → IsLocal begins (Compile.at' span p)
  | look {begins : Bool} {α : Type} {f : Compiler → Compile α} :
      (∀ c, f c.surroundings = f c) → (∀ c, IsLocal begins (f c)) → IsLocal begins (get >>= f)
  | build {begins : Bool} (b : Build TypeRef) : IsLocal begins (Compile.build b)
  | onFrame {begins : Bool} {α : Type} (f : Frame → α × Frame) :
      (begins = false → ∀ fr, (f fr).2.returned = fr.returned) →
      IsLocal begins (Compile.onFrame f)
  | inFrame {begins : Bool} {α : Type} {content : Compile α} (nested : Bool) :
      IsLocal true content → IsLocal begins (Compile.inFrame nested content)

namespace IsLocal

variable {begins : Bool} {α β : Type}

/-- Nothing happens after a failure. -/
theorem fail_bind (f : Fault) (g : β → Compile α) :
    IsLocal begins ((Compile.fail f : Compile β) >>= g) :=
  .fail f

/-- A result that is changed. -/
theorem map {p : Compile α} (f : α → β) (h : IsLocal begins p) : IsLocal begins (f <$> p) := by
  rw [map_eq_pure_bind]
  exact h.bind fun a => .pure (f a)

/-- A choice. -/
theorem ite {P : Prop} [Decidable P] {p q : Compile α} (hp : IsLocal begins p)
    (hq : IsLocal begins q) : IsLocal begins (if P then p else q) := by
  by_cases h : P
  · rwa [if_pos h]
  · rwa [if_neg h]

/-- A rule that needs nothing but what it is given. -/
theorem check (e : Except Fault α) : IsLocal begins (Compile.check e) := by
  cases e with
  | error f => exact .fail f
  | ok a => exact .pure a

/-- A look at the types. -/
theorem types {f : TypeTable → Compile α} (h : ∀ t, IsLocal begins (f t)) :
    IsLocal begins (Compile.types >>= f) :=
  look (f := fun c => f c.types) (fun _ => rfl) fun c => h c.types

/-- A rule. -/
theorem rule (f : TypeTable → Except Fault α) : IsLocal begins (Compile.rule f) :=
  .types fun t => .check (f t)

/-- A change of the current body. -/
theorem updateFrame (f : Frame → Frame)
    (h : begins = false → ∀ fr, (f fr).returned = fr.returned) :
    IsLocal begins (Compile.updateFrame f) :=
  onFrame (fun fr => ((), f fr)) h

end IsLocal

end Compile

/-- Steps that add code and are local with any code before them. -/
def Emit.IsLocal (begins : Bool) {α : Type} (p : Emit α) : Prop :=
  ∀ k, Compile.IsLocal begins (p k)

namespace Emit.IsLocal

variable {begins : Bool} {α β : Type}

/-- A result. -/
theorem pure (a : α) : Emit.IsLocal begins (Pure.pure a) :=
  fun _ => .pure _

/-- One step after another. -/
theorem bind {p : Emit α} {f : α → Emit β} (hp : Emit.IsLocal begins p)
    (hf : ∀ a, Emit.IsLocal begins (f a)) : Emit.IsLocal begins (p >>= f) :=
  fun k => (hp k).bind fun r => hf r.1 r.2

/-- A step that adds no code. -/
theorem lift {p : Compile α} (h : Compile.IsLocal begins p) :
    Emit.IsLocal begins (liftM p : Emit α) := by
  intro k
  rw [Compile.emit_lift]
  exact h.bind fun _ => .pure _

/-- A change of the code. -/
theorem modifyGet (f : Assembly → α × Assembly) : Emit.IsLocal begins (MonadState.modifyGet f) :=
  fun _ => .pure _

/-- Instructions that a step gives. -/
theorem all {p : Compile (List Code.Instr)} (h : Compile.IsLocal begins p) :
    Emit.IsLocal begins (do Emit.all (← p)) :=
  (lift h).bind fun _ => .modifyGet _

/-- An instruction that a step gives. -/
theorem one {p : Compile Code.Instr} (h : Compile.IsLocal begins p) :
    Emit.IsLocal begins (do Emit.one (← p)) :=
  (lift h).bind fun _ => .modifyGet _

/-- Errors that get a place. -/
theorem at' {p : Emit α} (span : Span) (h : Emit.IsLocal begins p) :
    Emit.IsLocal begins (Emit.at' span p) :=
  fun k => (h k).at' span

end Emit.IsLocal

namespace Compile

variable {begins : Bool} {α β : Type}

/-! ### Types -/

/-- The type of a parameter. -/
theorem paramType_isLocal (collects : Bool) (ty : Ty) : IsLocal begins (paramType collects ty) := by
  cases collects with
  | false => exact .pure _
  | true =>
      rw [paramType_variadic]
      exact .build _

/-- The length of an array type. -/
theorem arrayLength_isLocal (length : Operand) : IsLocal begins (arrayLength length) := by
  unfold arrayLength
  split
  · split
    · exact .ite (.pure _) (.fail _)
    · exact .fail _
  · exact .fail _

/-- The signature of what is called. -/
theorem calledSignature_isLocal (ty : Ty) : IsLocal begins (calledSignature ty) := by
  refine .types fun t => ?_
  cases t.signature? ty with
  | none => exact .fail _
  | some s => exact .pure s

/-! ### Names -/

/-- Meaning of a name. -/
theorem resolve_isLocal (name : Name) : IsLocal begins (resolve name) := by
  refine .look (fun _ => rfl) fun c => ?_
  cases c.resolve name with
  | none => exact .fail _
  | some m => exact .pure m

/-- A term that is read from code. -/
theorem ofExpr_isLocal (e : Code.Expr) (ty : Ty) :
    IsLocal begins (do return Operand.term (.ofExpr (← types) e ty)) :=
  .types fun _ => .pure _

/-- Code for what a name means. -/
theorem identifier_isLocal (name : Name) : IsLocal begins (identifier name) := by
  refine (resolve_isLocal name).bind fun m => ?_
  cases m with
  | var depth slot ty => exact ofExpr_isLocal _ _
  | func depth slot ty => exact ofExpr_isLocal _ _
  | const c ty => exact .pure _
  | host f => exact .pure _
  | type ty => exact .fail _
  | package p => exact .fail _
  | builtin k => exact .fail _

/-- The type that a name stands for. -/
theorem namedType_isLocal (name : Name) : IsLocal begins (namedType name) := by
  refine (resolve_isLocal name).bind fun m => ?_
  cases m with
  | type ty => exact .pure _
  | _ => exact .fail _

/-- The type that an identifier stands for, if it stands for one. -/
theorem identifiedType?_isLocal (name : Name) : IsLocal begins (identifiedType? name) := by
  refine .look (fun _ => rfl) fun c => ?_
  cases c.resolve name with
  | none => exact .pure _
  | some m => cases m <;> exact .pure _

/-- The place that a name stands for. -/
theorem namedPlace_isLocal (name : Name) : IsLocal begins (namedPlace name) := by
  refine .ite (.pure _) ((resolve_isLocal name).bind fun m => ?_)
  cases m with
  | var depth slot ty => exact .pure _
  | _ => exact .fail _

/-! ### Parts of values -/

/-- An operand as a value of a type. -/
theorem converted_isLocal {operand : Compile Operand} (h : IsLocal begins operand) (ty : Ty) :
    IsLocal begins (converted operand ty) :=
  h.bind fun _ => (IsLocal.rule _).bind fun _ => .pure _

/-- An index expression. -/
theorem index_isLocal {container key : Compile Operand} (hcontainer : IsLocal begins container)
    (hkey : IsLocal begins key) : IsLocal begins (index container key) :=
  hcontainer.bind fun _ => (IsLocal.rule _).bind fun _ => hkey.bind fun _ =>
    (IsLocal.rule _).bind fun _ => .pure _

/-- A member of a package. -/
theorem packageMember?_isLocal (base : Option Name) (field : Name) :
    IsLocal begins (packageMember? base field) := by
  refine .look (fun _ => rfl) fun c => ?_
  cases base.bind c.resolve with
  | none => exact .pure _
  | some m =>
      cases m with
      | package p =>
          dsimp only
          cases findHost p.members field with
          | none => exact .fail _
          | some f => exact .pure _
      | _ => exact .pure _

/-- A method with its receiver. -/
theorem methodValue_isLocal (recv : Code.Expr) (method : Binding) (name : Name) :
    IsLocal begins (methodValue recv method name) := by
  refine .types fun t => ?_
  cases t.signature? method.type with
  | none => exact .fail _
  | some s =>
      exact (IsLocal.build _).bind fun ty =>
        .look (fun _ => rfl) fun _ => .pure _

/-- A method or field of a value. -/
theorem select_isLocal (e : Code.Expr) (ty : Ty) (name : Name) :
    IsLocal begins (select e ty name) := by
  refine .look (fun _ => rfl) fun c => ?_
  cases c.method? ty name with
  | none =>
      exact (IsLocal.rule _).bind fun _ => .pure _
  | some m => exact methodValue_isLocal e m name

/-- A selector. -/
theorem selector_isLocal (baseName : Option Name) {base : Compile Operand} (field : Name)
    (hbase : IsLocal begins base) : IsLocal begins (selector baseName base field) := by
  refine (packageMember?_isLocal baseName field).bind fun member => ?_
  cases member with
  | some f => exact .pure _
  | none => exact hbase.bind fun op => (IsLocal.rule _).bind fun _ => select_isLocal _ _ _

/-- Elements of a literal whose parts are local. -/
def LocalElements (begins : Bool) (elems : List Element) : Prop :=
  ∀ e ∈ elems, IsLocal begins e.value ∧ ∀ k ∈ e.key, IsLocal begins k

/-- Elements of a slice literal. -/
theorem sliceElements_isLocal (elem : Ty) {elems : List Element}
    (h : LocalElements begins elems) : IsLocal begins (sliceElements elem elems) := by
  induction elems with
  | nil => exact .pure _
  | cons e rest ih =>
      rw [LocalElements, List.forall_mem_cons] at h
      rw [sliceElements]
      have hrest := (converted_isLocal h.1.1 elem).bind fun x => (ih h.2).bind fun xs =>
        (IsLocal.pure (x :: xs) : IsLocal begins _)
      cases e.key.isSome with
      | true => exact .fail_bind _ _
      | false => exact hrest

/-- Entries of a map literal. -/
theorem mapElements_isLocal (key elem : Ty) {elems : List Element}
    (h : LocalElements begins elems) : IsLocal begins (mapElements key elem elems) := by
  induction elems with
  | nil => exact .pure _
  | cons e rest ih =>
      rw [LocalElements, List.forall_mem_cons] at h
      obtain ⟨⟨hvalue, hkey⟩, hrest⟩ := h
      rw [mapElements]
      cases hk : e.key with
      | none => exact .fail _
      | some k =>
          exact (converted_isLocal (hkey k hk) key).bind fun _ =>
            (converted_isLocal hvalue elem).bind fun _ => (ih hrest).bind fun _ => .pure _

/-- Fields of a struct literal. -/
theorem structElements_isLocal (ty : Ty) (count : Nat) {elems : List Element}
    (h : LocalElements begins elems) (pos : Nat) (inits : List Code.Expr) :
    IsLocal begins (structElements ty count pos inits elems) := by
  induction elems generalizing pos inits with
  | nil => exact .pure _
  | cons e rest ih =>
      rw [LocalElements, List.forall_mem_cons] at h
      rw [structElements]
      refine (IsLocal.rule _).bind fun i =>
        .types fun t => ?_
      dsimp only
      cases (t.fields ty)[i]? with
      | none => exact .fail _
      | some f => exact (converted_isLocal h.1.1 f.type).bind fun x => ih h.2 _ _

/-- A literal. -/
theorem composite_isLocal (ty : Ty) {elems : List Element} (h : LocalElements begins elems) :
    IsLocal begins (composite ty elems) := by
  refine .types fun t => ?_
  dsimp only
  split
  · exact (sliceElements_isLocal _ h).bind fun _ => .pure _
  · exact (mapElements_isLocal _ _ h).bind fun _ => .pure _
  · exact (structElements_isLocal _ _ h _ _).bind fun _ => .pure _
  · exact .fail_bind _ _

/-! ### Calls -/

/-- Steps from left to right. -/
theorem sequence_isLocal {steps : List (Compile α)} (h : ∀ s ∈ steps, IsLocal begins s) :
    IsLocal begins (sequence steps) := by
  induction steps with
  | nil => exact .pure _
  | cons s rest ih =>
      rw [List.forall_mem_cons] at h
      exact h.1.bind fun _ => (ih h.2).bind fun _ => .pure _

/-- Steps that are made from others. -/
theorem sequence_map_isLocal {f : Compile α → Compile β} {steps : List (Compile α)}
    (hf : ∀ s, IsLocal begins s → IsLocal begins (f s)) (h : ∀ s ∈ steps, IsLocal begins s) :
    IsLocal begins (sequence (steps.map f)) := by
  apply sequence_isLocal
  intro s hs
  obtain ⟨s', hs', rfl⟩ := List.mem_map.1 hs
  exact hf s' (h s' hs')

/-- A call of a function. -/
theorem directCall_isLocal (name : String) (func : Code.Expr) (s : Signature)
    (recv : Option Code.Expr) {args : List (Compile Operand)}
    (h : ∀ a ∈ args, IsLocal begins a) : IsLocal begins (directCall name func s recv args) :=
  (sequence_isLocal h).bind fun _ => (IsLocal.rule _).bind
    fun _ => .types fun _ => .pure _

/-- A call of a function value. -/
theorem callOperand_isLocal (callee : Operand) {args : List (Compile Operand)}
    (h : ∀ a ∈ args, IsLocal begins a) : IsLocal begins (callOperand callee args) :=
  (IsLocal.rule _).bind fun _ => (calledSignature_isLocal _).bind fun _ =>
    directCall_isLocal _ _ _ _ h

/-- A conversion. -/
theorem conversion_isLocal (ty : Ty) {args : List (Compile Operand)}
    (h : ∀ a ∈ args, IsLocal begins a) : IsLocal begins (conversion ty args) := by
  match args with
  | [] => exact .fail _
  | [arg] =>
      exact (h arg (List.mem_singleton_self _)).bind fun _ => (IsLocal.check _).bind fun _ =>
        (IsLocal.rule _).bind fun _ => .pure _
  | _ :: _ :: _ => exact .fail _

/-- `len` and `cap`. -/
theorem lengthCall_isLocal (k : Builtin) {args : List (Compile Operand)}
    (h : ∀ a ∈ args, IsLocal begins a) : IsLocal begins (lengthCall k args) := by
  match args with
  | [] => exact .fail _
  | [arg] =>
      exact (h arg (List.mem_singleton_self _)).bind fun _ =>
        (IsLocal.rule _).bind fun _ => .pure _
  | _ :: _ :: _ => exact .fail _

/-- An operand as an index. -/
theorem indexed_isLocal {operand : Compile Operand} (h : IsLocal begins operand) :
    IsLocal begins (indexed operand) :=
  h.bind fun _ => .rule _

/-- `make`. -/
theorem makeCall_isLocal {type? : Compile (Option Ty)} {args : List (Compile Operand)}
    (htype : IsLocal begins type?) (h : ∀ a ∈ args, IsLocal begins a) :
    IsLocal begins (makeCall type? args) := by
  cases args with
  | nil => exact .fail _
  | cons _ sizes =>
      rw [List.forall_mem_cons] at h
      refine htype.bind fun ty => ?_
      cases ty with
      | none => exact .fail _
      | some ty =>
          exact (sequence_map_isLocal (fun _ => indexed_isLocal) h.2).bind fun _ =>
            (IsLocal.rule _).bind fun _ => .pure _

/-- `append`. -/
theorem appendCall_isLocal {args : List (Compile Operand)} (h : ∀ a ∈ args, IsLocal begins a) :
    IsLocal begins (appendCall args) := by
  cases args with
  | nil => exact .fail _
  | cons base elems =>
      rw [List.forall_mem_cons] at h
      refine h.1.bind fun op => (IsLocal.rule _).bind fun r =>
        .types fun t => ?_
      split
      · exact (sequence_map_isLocal (fun _ hs => converted_isLocal hs _) h.2).bind fun _ =>
          .pure _
      · exact .fail _

/-- `delete`. -/
theorem deleteCall_isLocal {args : List (Compile Operand)} (h : ∀ a ∈ args, IsLocal begins a) :
    IsLocal begins (deleteCall args) := by
  match args with
  | [] | [_] | _ :: _ :: _ :: _ => exact .fail _
  | [map, key] =>
      have hmap := h map List.mem_cons_self
      have hkey := h key (List.mem_cons_of_mem _ (List.mem_singleton_self _))
      refine hmap.bind fun op => (IsLocal.rule _).bind fun r =>
        .types fun t => ?_
      split
      · exact (converted_isLocal hkey _).bind fun _ => .pure _
      · exact .fail _

/-- A call of a builtin function. -/
theorem builtinCall_isLocal (k : Builtin) {type? : Compile (Option Ty)}
    {args : List (Compile Operand)} (htype : IsLocal begins type?)
    (h : ∀ a ∈ args, IsLocal begins a) : IsLocal begins (builtinCall k type? args) := by
  cases k with
  | len => exact lengthCall_isLocal _ h
  | cap => exact lengthCall_isLocal _ h
  | make => exact makeCall_isLocal htype h
  | append => exact appendCall_isLocal h
  | delete => exact deleteCall_isLocal h

/-- A call of a selector. -/
theorem selectorCall_isLocal (baseName : Option Name) {base whole : Compile Operand} (field : Name)
    {args : List (Compile Operand)} (hbase : IsLocal begins base) (hwhole : IsLocal begins whole)
    (h : ∀ a ∈ args, IsLocal begins a) :
    IsLocal begins (selectorCall baseName base field whole args) := by
  refine (packageMember?_isLocal baseName field).bind fun member => ?_
  cases member with
  | some _ => exact hwhole.bind fun _ => callOperand_isLocal _ h
  | none =>
      refine hbase.bind fun op => (IsLocal.rule _).bind fun r => ?_
      refine .look (fun _ => rfl) fun c => ?_
      cases c.method? r.2 field with
      | none => exact (select_isLocal _ _ _).bind fun _ => callOperand_isLocal _ h
      | some m =>
          exact (calledSignature_isLocal _).bind fun _ =>
            .look (fun _ => rfl) fun _ => directCall_isLocal _ _ _ _ h

/-- What is called has local parts. -/
def LocalCallee (begins : Bool) : Callee → Prop
  | .selector _ base _ => IsLocal begins base
  | .name _ | .other => True

/-- A call. -/
theorem call_isLocal {type? firstType? : Compile (Option Ty)} {callee : Callee}
    {whole : Compile Operand} {args : List (Compile Operand)} (htype : IsLocal begins type?)
    (hcallee : LocalCallee begins callee) (hwhole : IsLocal begins whole)
    (hfirst : IsLocal begins firstType?) (h : ∀ a ∈ args, IsLocal begins a) :
    IsLocal begins (call type? callee whole firstType? args) := by
  refine htype.bind fun ty => ?_
  cases ty with
  | some ty => exact conversion_isLocal ty h
  | none =>
      have hvalue : IsLocal begins (do callOperand (← whole) args) :=
        hwhole.bind fun _ => callOperand_isLocal _ h
      cases callee with
      | name name =>
          refine .look (fun _ => rfl) fun c => ?_
          cases c.resolve name with
          | none => exact hvalue
          | some m =>
              cases m with
              | builtin k => exact builtinCall_isLocal k hfirst h
              | func depth slot ty =>
                  exact (calledSignature_isLocal _).bind fun _ => directCall_isLocal _ _ _ _ h
              | _ => exact hvalue
      | selector baseName base field => exact selectorCall_isLocal _ _ hcallee hwhole h
      | other => exact hvalue

/-! ### Assignments -/

/-- An index expression as a place. -/
theorem indexPlace_isLocal {container key : Compile Operand} (hcontainer : IsLocal begins container)
    (hkey : IsLocal begins key) : IsLocal begins (indexPlace container key) :=
  hcontainer.bind fun _ => (IsLocal.rule _).bind fun _ => hkey.bind fun _ =>
    (IsLocal.rule _).bind fun _ => .pure _

/-- A selector as a place. -/
theorem selectorPlace_isLocal {base : Compile (Option Place)} (h : IsLocal begins base)
    (name : Name) : IsLocal begins (selectorPlace base name) := by
  refine h.bind fun place => ?_
  cases place with
  | none => exact .fail _
  | some _ => exact (IsLocal.rule _).bind fun _ => .pure _

/-- An assignment of the value in a slot. -/
theorem assignSlot_isLocal {target : Compile (Option Place)} (h : IsLocal begins target) (ty : Ty)
    (slot : Nat) : IsLocal begins (assignSlot target ty slot) := by
  refine h.bind fun place => ?_
  cases place with
  | none => exact .pure _
  | some place =>
      exact .types fun _ =>
        (IsLocal.rule _).bind fun _ => .pure _

/-- An assignment of the values in slots. -/
theorem assignSlots_isLocal {targets : List (Compile (Option Place))}
    (h : ∀ p ∈ targets, IsLocal begins p) (slots : List (Ty × Nat)) :
    IsLocal begins (assignSlots targets slots) := by
  induction targets generalizing slots with
  | nil => exact .pure _
  | cons target rest ih =>
      rw [List.forall_mem_cons] at h
      cases slots with
      | nil => exact .pure _
      | cons s slots =>
          exact (assignSlot_isLocal h.1 _ _).bind fun _ => (ih h.2 slots).bind fun _ => .pure _

/-- Slots for types. -/
theorem allocEach_isLocal (types : List Ty) : IsLocal begins (allocEach types) := by
  induction types with
  | nil => exact .pure _
  | cons ty rest ih =>
      exact (IsLocal.onFrame _ fun _ _ => rfl).bind fun _ => ih.bind fun _ => .pure _

/-- Operands with slots for their values. -/
theorem stageEach_isLocal {values : List (Compile Operand)} (h : ∀ p ∈ values, IsLocal begins p) :
    IsLocal begins (stageEach values) := by
  induction values with
  | nil => exact .pure _
  | cons value rest ih =>
      rw [List.forall_mem_cons] at h
      exact h.1.bind fun _ => (IsLocal.rule _).bind fun _ =>
        (IsLocal.onFrame _ fun _ _ => rfl).bind fun _ => (ih h.2).bind fun _ => .pure _

/-- An assignment of one value. -/
theorem assignOne_isLocal {target : Compile (Option Place)} {value : Compile Operand}
    (htarget : IsLocal begins target) (hvalue : IsLocal begins value) :
    IsLocal begins (assignOne target value) := by
  refine htarget.bind fun place => hvalue.bind fun op => ?_
  cases place with
  | none => exact (IsLocal.check _).bind fun _ => .pure _
  | some place => exact (IsLocal.rule _).bind fun _ => .pure _

/-- An assignment of the results of a call. -/
theorem assignResults_isLocal {targets : List (Compile (Option Place))} {value : Compile Operand}
    (htargets : ∀ p ∈ targets, IsLocal begins p) (hvalue : IsLocal begins value) :
    IsLocal begins (assignResults targets value) := by
  refine hvalue.bind fun op => ?_
  cases op with
  | term _ => exact .fail _
  | results call types =>
      have hstores := (allocEach_isLocal types).bind fun slots =>
        (assignSlots_isLocal htargets slots).bind fun stores =>
          (IsLocal.pure (.spread call 0 (slots.map fun s => some s.2) :: stores) : IsLocal begins _)
      exact .ite (.fail_bind _ _) hstores

/-- An assignment of several values. -/
theorem assignEach_isLocal {targets : List (Compile (Option Place))}
    {values : List (Compile Operand)} (htargets : ∀ p ∈ targets, IsLocal begins p)
    (hvalues : ∀ p ∈ values, IsLocal begins p) : IsLocal begins (assignEach targets values) := by
  have hstores := (stageEach_isLocal hvalues).bind fun staged =>
    (assignSlots_isLocal htargets (staged.map Prod.snd)).bind fun stores =>
      (IsLocal.pure (.setSlots (staged.map fun s => (some s.2.2, s.1)) :: stores) :
        IsLocal begins _)
  exact .ite (.fail_bind _ _) hstores

/-- An assignment. -/
theorem assign_isLocal {targets : List (Compile (Option Place))} {values : List (Compile Operand)}
    (htargets : ∀ p ∈ targets, IsLocal begins p) (hvalues : ∀ p ∈ values, IsLocal begins p) :
    IsLocal begins (assign targets values) := by
  unfold assign
  split
  · exact assignOne_isLocal (htargets _ (List.mem_singleton_self _))
      (hvalues _ (List.mem_singleton_self _))
  · exact assignResults_isLocal htargets (hvalues _ (List.mem_singleton_self _))
  · exact assignEach_isLocal htargets hvalues

/-- The place that an update needs. -/
theorem updatedPlace_isLocal {target : Compile (Option Place)} (h : IsLocal begins target) :
    IsLocal begins (updatedPlace target) := by
  refine h.bind fun place => ?_
  cases place with
  | none => exact .fail _
  | some _ => exact .pure _

/-- Increment or decrement. -/
theorem step_isLocal {target : Compile (Option Place)} (h : IsLocal begins target)
    (increment : Bool) : IsLocal begins (step target increment) :=
  (updatedPlace_isLocal h).bind fun _ => .rule _

/-- An operator that is applied in place. -/
theorem update_isLocal (op : BinaryOp) {target : Compile (Option Place)} {value : Compile Operand}
    (htarget : IsLocal begins target) (hvalue : IsLocal begins value) :
    IsLocal begins (update op target value) :=
  (updatedPlace_isLocal htarget).bind fun _ => hvalue.bind fun _ => .rule _

/-! ### Declarations of variables -/

/-- A declared name. -/
theorem bindName_isLocal (redeclare : Bool) (name : Name) (ty : Ty) :
    IsLocal begins (bindName redeclare name ty) := by
  have hnew : IsLocal begins (do return some (← declareLocal name ty)) :=
    (IsLocal.onFrame _ fun _ _ => rfl).bind fun _ => .pure _
  refine .ite (.pure _) (.look (fun _ => rfl) fun c => ?_)
  cases c.frame.findInnermost? name with
  | none => exact hnew
  | some l =>
      cases redeclare with
      | false => exact hnew
      | true =>
          exact (IsLocal.rule _).bind fun _ => .pure _

/-- Names for the results of a call. -/
theorem bindResults_isLocal (declared : Option Ty) (redeclare : Bool) (names : List Name)
    (types : List Ty) : IsLocal begins (bindResults declared redeclare names types) := by
  induction names generalizing types with
  | nil => exact .pure _
  | cons name names ih =>
      cases types with
      | nil => exact .pure _
      | cons ty types =>
          exact (IsLocal.rule _).bind fun _ =>
            (bindName_isLocal _ _ _).bind fun _ => (ih types).bind fun _ => .pure _

/-- Names for staged values. -/
theorem bindStaged_isLocal (redeclare : Bool) (names : List Name)
    (staged : List (Ty × Code.Expr)) : IsLocal begins (bindStaged redeclare names staged) := by
  induction names generalizing staged with
  | nil => exact .pure _
  | cons name names ih =>
      cases staged with
      | nil => exact .pure _
      | cons s staged =>
          exact (bindName_isLocal _ _ _).bind fun _ => (ih staged).bind fun _ => .pure _

/-- A declaration of variables with values. -/
theorem declareValues_isLocal (names : List Name) (declared : Option Ty)
    {values : List (Compile Operand)} (h : ∀ p ∈ values, IsLocal begins p) (redeclare : Bool) :
    IsLocal begins (declareValues names declared values redeclare) := by
  refine (sequence_isLocal h).bind fun ops => ?_
  dsimp only
  split
  · exact .ite (.fail_bind _ _) ((bindResults_isLocal _ _ _ _).bind fun _ => .pure _)
  · exact .ite (.fail_bind _ _) ((IsLocal.rule _).bind fun _ =>
      (bindStaged_isLocal _ _ _).bind fun _ => .pure _)

/-- A declaration of variables that start at zero. -/
theorem declareZeros_isLocal (names : List Name) (declared : Option Ty) :
    IsLocal begins (declareZeros names declared) := by
  cases declared with
  | none => exact .fail _
  | some ty =>
      exact .types fun _ =>
        (bindStaged_isLocal _ _ _).bind fun _ => .pure _

/-! ### Control flow and bodies -/

/-- Code in a block of its own. -/
theorem inBlock_isLocal {content : Emit Unit} (h : Emit.IsLocal begins content) :
    Emit.IsLocal begins (inBlock content) :=
  fun k => (IsLocal.updateFrame Frame.nested fun _ _ => rfl).bind fun _ => (h k).bind fun _ =>
    (IsLocal.updateFrame Frame.unnested fun _ _ => rfl).bind fun _ => .pure _

/-- A condition. -/
theorem condition_isLocal {test : Compile Operand} (h : IsLocal begins test) :
    IsLocal begins (condition test) :=
  h.bind fun _ => (IsLocal.rule _).bind fun _ => .ite (.pure _) (.fail _)

/-- Code for a condition. -/
theorem jumpUnless_isLocal {test : Option (Compile Operand)} (h : ∀ t ∈ test, IsLocal begins t)
    (label : Nat) : Emit.IsLocal begins (jumpUnless test label) := by
  cases test with
  | none => exact .pure _
  | some t => exact (Emit.IsLocal.lift (condition_isLocal (h t rfl))).bind fun _ => .modifyGet _

/-- A clause that may be absent. -/
theorem optional_isLocal {step : Option (Emit Unit)} (h : ∀ s ∈ step, Emit.IsLocal begins s) :
    Emit.IsLocal begins (optional step) := by
  cases step with
  | none => exact .pure _
  | some s => exact h s rfl

/-- A conditional statement. -/
theorem ifThenElse_isLocal {test : Compile Operand} {body : Emit Unit}
    {otherwise : Option (Emit Unit)} (htest : IsLocal begins test)
    (hbody : Emit.IsLocal begins body) (hotherwise : ∀ s ∈ otherwise, Emit.IsLocal begins s) :
    Emit.IsLocal begins (ifThenElse test body otherwise) := by
  refine (Emit.IsLocal.lift (condition_isLocal htest)).bind fun e =>
    (Emit.IsLocal.modifyGet _).bind fun skip => (Emit.IsLocal.modifyGet _).bind fun _ =>
      (inBlock_isLocal hbody).bind fun _ => ?_
  cases otherwise with
  | none => exact .modifyGet _
  | some s =>
      exact (Emit.IsLocal.modifyGet _).bind fun _ => (Emit.IsLocal.modifyGet _).bind fun _ =>
        (Emit.IsLocal.modifyGet _).bind fun _ => (hotherwise s rfl).bind fun _ => .modifyGet _

/-- A loop. -/
theorem loop_isLocal {init post : Option (Emit Unit)} {test : Option (Compile Operand)}
    {body : Emit Unit} (hinit : ∀ s ∈ init, Emit.IsLocal begins s)
    (htest : ∀ t ∈ test, IsLocal begins t) (hpost : ∀ s ∈ post, Emit.IsLocal begins s)
    (hbody : Emit.IsLocal begins body) :
    Emit.IsLocal begins (loop init test post body) :=
  inBlock_isLocal <| (optional_isLocal hinit).bind fun _ => (Emit.IsLocal.modifyGet _).bind fun _ =>
    (Emit.IsLocal.modifyGet _).bind fun _ => (Emit.IsLocal.modifyGet _).bind fun _ =>
      (Emit.IsLocal.modifyGet _).bind fun _ => (jumpUnless_isLocal htest _).bind fun _ =>
        (Emit.IsLocal.modifyGet _).bind fun _ => (inBlock_isLocal hbody).bind fun _ =>
          (Emit.IsLocal.modifyGet _).bind fun _ => (Emit.IsLocal.modifyGet _).bind fun _ =>
            (optional_isLocal hpost).bind fun _ => (Emit.IsLocal.modifyGet _).bind fun _ =>
              .modifyGet _

/-- `break` and `continue`. -/
theorem branchOut_isLocal (keyword : String) (label : LoopLabels → Nat) :
    Emit.IsLocal begins (branchOut keyword label) := by
  intro k
  unfold branchOut
  cases k.loops with
  | nil => exact .fail _
  | cons l _ => exact .pure _

/-- Operands as values of types. -/
theorem convertEach_isLocal {values : List (Compile Operand)} (h : ∀ p ∈ values, IsLocal begins p)
    (types : List Ty) : IsLocal begins (convertEach values types) := by
  induction values generalizing types with
  | nil => exact .pure _
  | cons value rest ih =>
      rw [List.forall_mem_cons] at h
      cases types with
      | nil => exact .pure _
      | cons ty types =>
          exact (converted_isLocal h.1 ty).bind fun _ => (ih h.2 types).bind fun _ => .pure _

/-- A return of as many values as there are results. -/
theorem returnEach_isLocal {values : List (Compile Operand)} (h : ∀ p ∈ values, IsLocal begins p) :
    IsLocal begins (returnEach values) :=
  .look (fun _ => rfl) fun _ => .ite (.fail_bind _ _)
    ((convertEach_isLocal h _).bind fun _ => .pure _)

/-- A return of the results of a call. -/
theorem returnResults_isLocal {value : Compile Operand} (h : IsLocal begins value) :
    IsLocal begins (returnResults value) := by
  refine .look (fun _ => rfl) fun c => h.bind fun op => ?_
  cases op with
  | term _ => exact .fail _
  | results call types =>
      exact .ite (.fail_bind _ _) ((IsLocal.rule _).bind fun _ => .pure _)

/-- A return without values. -/
theorem returnNothing_isLocal : IsLocal begins returnNothing := by
  refine .look (fun _ => rfl) fun c => ?_
  dsimp only
  split
  · exact .pure _
  · exact .ite (.pure _) (.fail _)

/-- A return statement. -/
theorem returnStmt_isLocal {values : List (Compile Operand)} (h : ∀ p ∈ values, IsLocal begins p) :
    IsLocal begins (returnStmt values) := by
  match values with
  | [] => exact returnNothing_isLocal
  | [value] =>
      exact .look (fun _ => rfl) fun c => .ite (returnEach_isLocal h)
        (returnResults_isLocal (h _ (List.mem_singleton_self _)))
  | _ :: _ :: _ => exact returnEach_isLocal h

/-- The slot of a parameter or result. -/
theorem bindSlot_isLocal (name : Option Name) (ty : Ty) : IsLocal begins (bindSlot name ty) := by
  cases name with
  | none => exact .onFrame _ fun _ _ => rfl
  | some name => exact .ite (.onFrame _ fun _ _ => rfl) (.onFrame _ fun _ _ => rfl)

/-- The slots of parameters or results. -/
theorem bindSlots_isLocal (slots : List (Option Name × Ty)) : IsLocal begins (bindSlots slots) := by
  induction slots with
  | nil => exact .pure _
  | cons s rest ih => exact (bindSlot_isLocal _ _).bind fun _ => ih.bind fun _ => .pure _

/-- Named results start at zero. -/
theorem bindResultSlots_isLocal (results : List (Option Name × Ty)) :
    IsLocal true (bindResultSlots results) :=
  .ite ((bindSlots_isLocal results).bind fun _ => .types
    fun _ => (IsLocal.updateFrame _ Bool.noConfusion).bind fun _ => .pure _) (.pure _)

/-- The beginning of a body. -/
theorem enterBody_isLocal (recv : Option (Option Name × Ty)) (h : Heading) :
    IsLocal true (enterBody recv h) :=
  (IsLocal.updateFrame _ Bool.noConfusion).bind fun _ => (bindSlots_isLocal _).bind fun _ =>
    bindResultSlots_isLocal _

/-- The end of a body. -/
theorem leaveBody_isLocal : IsLocal begins leaveBody :=
  .types fun _ =>
    .look (fun _ => rfl) fun _ => .pure _

/-- The body of a function. -/
theorem bodyOf_isLocal (recv : Option (Option Name × Ty)) (h : Heading) {content : Emit Unit}
    (hcontent : Emit.IsLocal true content) : Emit.IsLocal true (bodyOf recv h content) :=
  (Emit.IsLocal.lift (enterBody_isLocal recv h)).bind fun _ => (Emit.IsLocal.modifyGet _).bind
    fun _ => (inBlock_isLocal hcontent).bind fun _ => (Emit.IsLocal.lift leaveBody_isLocal).bind
      fun _ => .modifyGet _

/-- The code of a body. -/
theorem assembled_isLocal {content : Emit Unit} (h : Emit.IsLocal true content) :
    IsLocal true (assembled content) :=
  (h .empty).bind fun _ => .look (fun _ => rfl) fun _ => .pure _

/-- A function literal: its body is compiled in a frame of its own, so slots count in it. -/
theorem funcLit_isLocal {heading : Compile Heading} {content : Emit Unit}
    (hheading : IsLocal begins heading) (hcontent : Emit.IsLocal true content) :
    IsLocal begins (funcLit heading content) :=
  hheading.bind fun h => (IsLocal.build _).bind fun _ =>
    (IsLocal.inFrame true (assembled_isLocal (bodyOf_isLocal none h hcontent))).bind fun _ =>
      .pure _

end ScriptCore.Compile
