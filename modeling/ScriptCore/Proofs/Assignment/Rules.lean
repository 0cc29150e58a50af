import ScriptCore.Proofs.Assignment.Stable

/-!
# Rules are stable

The rules by which expressions, types and statements are compiled from their parts read the types
and the names of a state.  So a rule is stable if its parts are.  Expressions and types are stable
whatever the number of slots; statements are where it counts.

Main statements: `call_stable`, `composite_stable` and `funcLit_stable`.
-/

namespace ScriptCore.Compile

variable {α β : Type} {exact : Bool}

/-! ### Types -/

/-- Slices. -/
theorem sliceType_stable (elem : Ty) : Stable exact (sliceType elem) :=
  .build (Universe.slice_stable elem)

/-- Arrays. -/
theorem arrayType_stable (length : Nat) (elem : Ty) : Stable exact (arrayType length elem) :=
  .build (Universe.array_stable length elem)

/-- Maps. -/
theorem mapType_stable (key value : Ty) : Stable exact (mapType key value) :=
  .build (Universe.map_stable key value)

/-- Pointers. -/
theorem pointerType_stable (elem : Ty) : Stable exact (pointerType elem) :=
  .build (Universe.pointer_stable elem)

/-- Structs. -/
theorem structType_stable (fields : List Field) : Stable exact (structType fields) :=
  .build (Universe.struct_stable fields)

/-- Interfaces. -/
theorem interfaceType_stable (methods : List Method) : Stable exact (interfaceType methods) :=
  .build (Universe.interface_stable methods)

/-- Function types. -/
theorem signatureType_stable (recv : Option Ty) (params results : List Ty) (variadic : Bool) :
    Stable exact (signatureType recv params results variadic) :=
  .build (Universe.func_stable recv params results variadic)

/-- The function type of a heading. -/
theorem headingType_stable (recv : Option Ty) (h : Heading) :
    Stable exact (headingType recv h) :=
  signatureType_stable _ _ _ _

/-- The type of a parameter. -/
theorem paramType_stable (collects : Bool) (ty : Ty) : Stable exact (paramType collects ty) := by
  cases collects with
  | false => exact .pure _
  | true => exact sliceType_stable ty

/-- The length of an array type. -/
theorem arrayLength_stable (length : Operand) : Stable exact (arrayLength length) := by
  unfold arrayLength
  split
  · split
    · exact .ite (.pure _) (.fail _)
    · exact .fail _
  · exact .fail _

/-- The signature of what is called. -/
theorem calledSignature_stable (ty : Ty) : Stable exact (calledSignature ty) := by
  refine .types (fun _ _ ht => ht.same fun _ _ _ _ _ => rfl) fun t => ?_
  cases t.signature? ty with
  | none => exact .fail _
  | some s => exact .pure s

/-! ### Names -/

/-- Meaning of a name. -/
theorem resolve_stable (name : Name) : Stable exact (resolve name) := by
  refine .get (fun _ _ hc => by rw [hc.resolve]) fun c => ?_
  cases c.resolve name with
  | none => exact .fail _
  | some m => exact .pure m

/-- A term that is read from code. -/
theorem ofExpr_stable (e : Code.Expr) (ty : Ty) :
    Stable exact (do return Operand.term (.ofExpr (← types) e ty)) :=
  .types (fun _ _ ht => ht.same fun _ _ _ _ _ => rfl) fun _ => .pure _

/-- Code for what a name means. -/
theorem identifier_stable (name : Name) : Stable exact (identifier name) := by
  refine (resolve_stable name).bind fun m => ?_
  cases m with
  | var depth slot ty => exact ofExpr_stable _ _
  | func depth slot ty => exact ofExpr_stable _ _
  | const c ty => exact .pure _
  | host f => exact .pure _
  | type ty => exact .fail _
  | package p => exact .fail _
  | builtin k => exact .fail _

/-- The type that a name stands for. -/
theorem namedType_stable (name : Name) : Stable exact (namedType name) := by
  refine (resolve_stable name).bind fun m => ?_
  cases m with
  | type ty => exact .pure _
  | _ => exact .fail _

/-- The type that an identifier stands for, if it stands for one. -/
theorem identifiedType?_stable (name : Name) : Stable exact (identifiedType? name) := by
  refine .get (fun _ _ hc => by rw [hc.resolve]) fun c => ?_
  cases c.resolve name with
  | none => exact .pure _
  | some m => cases m <;> exact .pure _

/-- The place that a name stands for. -/
theorem namedPlace_stable (name : Name) : Stable exact (namedPlace name) := by
  refine .ite (.pure _) ((resolve_stable name).bind fun m => ?_)
  cases m with
  | var depth slot ty => exact .pure _
  | _ => exact .fail _

/-! ### Parts of values -/

/-- The value of an operand. -/
theorem valueOf_stable (op : Operand) : Stable exact (rule fun t => op.valueOf t) :=
  .rule fun _ _ ht => ht.same fun _ _ _ _ _ => rfl

/-- An operand as a value of a type. -/
theorem converted_stable {operand : Compile Operand} (h : Stable exact operand) (ty : Ty) :
    Stable exact (converted operand ty) :=
  h.bind fun _ => (Stable.rule fun _ _ ht => ht.same fun _ _ _ _ _ => rfl).bind fun _ => .pure _

/-- An index expression. -/
theorem index_stable {container key : Compile Operand} (hcontainer : Stable exact container)
    (hkey : Stable exact key) : Stable exact (index container key) :=
  hcontainer.bind fun op => (valueOf_stable op).bind fun _ => hkey.bind fun _ =>
    (Stable.rule fun _ _ ht => by rw [ht.elementOf]).bind fun _ => .pure _

/-- A member of a package. -/
theorem packageMember?_stable (base : Option Name) (field : Name) :
    Stable exact (packageMember? base field) := by
  refine .get (fun _ _ hc => by rw [funext hc.resolve]) fun c => ?_
  cases base.bind c.resolve with
  | none => exact .pure _
  | some m =>
      cases m with
      | package p =>
          dsimp only
          cases findHost p.members field with
          | none => exact .fail _
          | some f => exact .pure _
      | _ => exact .pure _

/-- A method with its receiver. -/
theorem methodValue_stable (recv : Code.Expr) (method : Binding) (name : Name) :
    Stable exact (methodValue recv method name) := by
  refine .types (fun _ _ ht => ht.same fun _ _ _ _ _ => rfl) fun t => ?_
  cases t.signature? method.type with
  | none => exact .fail _
  | some s =>
      exact (signatureType_stable _ _ _ _).bind fun ty =>
        .get (fun _ _ hc => by rw [hc.globalsDepth]) fun _ => .pure _

/-- A method or field of a value. -/
theorem select_stable (e : Code.Expr) (ty : Ty) (name : Name) :
    Stable exact (select e ty name) := by
  refine .get (fun _ _ hc => by rw [hc.method]) fun c => ?_
  cases c.method? ty name with
  | none =>
      exact (Stable.rule fun _ _ ht => ht.same fun _ _ _ _ _ => rfl).bind fun _ => .pure _
  | some m => exact methodValue_stable e m name

/-- A selector. -/
theorem selector_stable (baseName : Option Name) {base : Compile Operand} (field : Name)
    (hbase : Stable exact base) : Stable exact (selector baseName base field) := by
  refine (packageMember?_stable baseName field).bind fun member => ?_
  cases member with
  | some f => exact .pure _
  | none => exact hbase.bind fun op => (valueOf_stable op).bind fun _ => select_stable _ _ _

/-- Elements of a literal whose parts are stable. -/
def StableElements (exact : Bool) (elems : List Element) : Prop :=
  ∀ e ∈ elems, Stable exact e.value ∧ ∀ k ∈ e.key, Stable exact k

/-- Elements of a slice literal. -/
theorem sliceElements_stable (elem : Ty) {elems : List Element}
    (h : StableElements exact elems) : Stable exact (sliceElements elem elems) := by
  induction elems with
  | nil => exact .pure _
  | cons e rest ih =>
      rw [StableElements, List.forall_mem_cons] at h
      rw [sliceElements]
      have hrest := (converted_stable h.1.1 elem).bind fun x => (ih h.2).bind fun xs =>
        (Stable.pure (x :: xs) : Stable exact _)
      cases e.key.isSome with
      | true => exact .fail_bind _ _
      | false => exact hrest

/-- Entries of a map literal. -/
theorem mapElements_stable (key elem : Ty) {elems : List Element}
    (h : StableElements exact elems) : Stable exact (mapElements key elem elems) := by
  induction elems with
  | nil => exact .pure _
  | cons e rest ih =>
      rw [StableElements, List.forall_mem_cons] at h
      obtain ⟨⟨hvalue, hkey⟩, hrest⟩ := h
      rw [mapElements]
      cases hk : e.key with
      | none => exact .fail _
      | some k =>
          exact (converted_stable (hkey k hk) key).bind fun _ =>
            (converted_stable hvalue elem).bind fun _ => (ih hrest).bind fun _ => .pure _

/-- Fields of a struct literal. -/
theorem structElements_stable (ty : Ty) (count : Nat) {elems : List Element}
    (h : StableElements exact elems) (pos : Nat) (inits : List Code.Expr) :
    Stable exact (structElements ty count pos inits elems) := by
  induction elems generalizing pos inits with
  | nil => exact .pure _
  | cons e rest ih =>
      rw [StableElements, List.forall_mem_cons] at h
      rw [structElements]
      refine (Stable.rule fun _ _ ht => ht.same fun _ _ _ _ _ => rfl).bind fun i =>
        .types (fun _ _ ht => ht.same fun _ _ _ _ _ => rfl) fun t => ?_
      dsimp only
      cases (t.fields ty)[i]? with
      | none => exact .fail _
      | some f => exact (converted_stable h.1.1 f.type).bind fun x => ih h.2 _ _

/-- A literal. -/
theorem composite_stable (ty : Ty) {elems : List Element} (h : StableElements exact elems) :
    Stable exact (composite ty elems) := by
  refine .types (fun t t' ht => ?_) fun t => ?_
  · refine ht.same_of_zero fun _ _ _ _ _ hzero => ?_
    rw [hzero]
    rfl
  · dsimp only
    split
    · exact (sliceElements_stable _ h).bind fun _ => .pure _
    · exact (mapElements_stable _ _ h).bind fun _ => .pure _
    · exact (structElements_stable _ _ h _ _).bind fun _ => .pure _
    · exact .fail_bind _ _

/-! ### Calls -/

/-- Steps from left to right. -/
theorem sequence_stable {steps : List (Compile α)} (h : ∀ s ∈ steps, Stable exact s) :
    Stable exact (sequence steps) := by
  induction steps with
  | nil => exact .pure _
  | cons s rest ih =>
      rw [List.forall_mem_cons] at h
      exact h.1.bind fun _ => (ih h.2).bind fun _ => .pure _

/-- Steps that are made from others. -/
theorem sequence_map_stable {f : Compile α → Compile β} {steps : List (Compile α)}
    (hf : ∀ s, Stable exact s → Stable exact (f s)) (h : ∀ s ∈ steps, Stable exact s) :
    Stable exact (sequence (steps.map f)) := by
  apply sequence_stable
  intro s hs
  obtain ⟨s', hs', rfl⟩ := List.mem_map.1 hs
  exact hf s' (h s' hs')

/-- A call of a function. -/
theorem directCall_stable (name : String) (func : Code.Expr) (s : Signature)
    (recv : Option Code.Expr) {args : List (Compile Operand)}
    (h : ∀ a ∈ args, Stable exact a) : Stable exact (directCall name func s recv args) :=
  (sequence_stable h).bind fun _ => (Stable.rule fun _ _ ht => by rw [ht.argumentsOf]).bind
    fun _ => .types (fun _ _ ht => ht.same fun _ _ _ _ _ => rfl) fun _ => .pure _

/-- A call of a function value. -/
theorem callOperand_stable (callee : Operand) {args : List (Compile Operand)}
    (h : ∀ a ∈ args, Stable exact a) : Stable exact (callOperand callee args) :=
  (valueOf_stable callee).bind fun _ => (calledSignature_stable _).bind fun _ =>
    directCall_stable _ _ _ _ h

/-- A conversion. -/
theorem conversion_stable (ty : Ty) {args : List (Compile Operand)}
    (h : ∀ a ∈ args, Stable exact a) : Stable exact (conversion ty args) := by
  match args with
  | [] => exact .fail _
  | [arg] =>
      exact (h arg (List.mem_singleton_self _)).bind fun _ => (Stable.check _).bind fun _ =>
        (Stable.rule fun _ _ ht => ht.same fun _ _ _ _ _ => rfl).bind fun _ => .pure _
  | _ :: _ :: _ => exact .fail _

/-- `len` and `cap`. -/
theorem lengthCall_stable (k : Builtin) {args : List (Compile Operand)}
    (h : ∀ a ∈ args, Stable exact a) : Stable exact (lengthCall k args) := by
  match args with
  | [] => exact .fail _
  | [arg] =>
      exact (h arg (List.mem_singleton_self _)).bind fun _ =>
        (Stable.rule fun _ _ ht => ht.same fun _ _ _ _ _ => rfl).bind fun _ => .pure _
  | _ :: _ :: _ => exact .fail _

/-- An operand as an index. -/
theorem indexed_stable {operand : Compile Operand} (h : Stable exact operand) :
    Stable exact (indexed operand) :=
  h.bind fun _ => .rule fun _ _ ht => ht.same fun _ _ _ _ _ => rfl

/-- `make`. -/
theorem makeCall_stable {type? : Compile (Option Ty)} {args : List (Compile Operand)}
    (htype : Stable exact type?) (h : ∀ a ∈ args, Stable exact a) :
    Stable exact (makeCall type? args) := by
  cases args with
  | nil => exact .fail _
  | cons _ sizes =>
      rw [List.forall_mem_cons] at h
      refine htype.bind fun ty => ?_
      cases ty with
      | none => exact .fail _
      | some ty =>
          exact (sequence_map_stable (fun _ => indexed_stable) h.2).bind fun _ =>
            (Stable.rule fun _ _ ht => by rw [ht.made]).bind fun _ => .pure _

/-- `append`. -/
theorem appendCall_stable {args : List (Compile Operand)} (h : ∀ a ∈ args, Stable exact a) :
    Stable exact (appendCall args) := by
  cases args with
  | nil => exact .fail _
  | cons base elems =>
      rw [List.forall_mem_cons] at h
      refine h.1.bind fun op => (valueOf_stable op).bind fun r =>
        .types (fun _ _ ht => ht.same fun _ _ _ _ _ => rfl) fun t => ?_
      split
      · exact (sequence_map_stable (fun _ hs => converted_stable hs _) h.2).bind fun _ =>
          .pure _
      · exact .fail _

/-- `delete`. -/
theorem deleteCall_stable {args : List (Compile Operand)} (h : ∀ a ∈ args, Stable exact a) :
    Stable exact (deleteCall args) := by
  match args with
  | [] | [_] | _ :: _ :: _ :: _ => exact .fail _
  | [map, key] =>
      have hmap := h map List.mem_cons_self
      have hkey := h key (List.mem_cons_of_mem _ (List.mem_singleton_self _))
      refine hmap.bind fun op => (valueOf_stable op).bind fun r =>
        .types (fun _ _ ht => ht.same fun _ _ _ _ _ => rfl) fun t => ?_
      split
      · exact (converted_stable hkey _).bind fun _ => .pure _
      · exact .fail _

/-- A call of a builtin function. -/
theorem builtinCall_stable (k : Builtin) {type? : Compile (Option Ty)}
    {args : List (Compile Operand)} (htype : Stable exact type?)
    (h : ∀ a ∈ args, Stable exact a) : Stable exact (builtinCall k type? args) := by
  cases k with
  | len => exact lengthCall_stable _ h
  | cap => exact lengthCall_stable _ h
  | make => exact makeCall_stable htype h
  | append => exact appendCall_stable h
  | delete => exact deleteCall_stable h

/-- A call of a selector. -/
theorem selectorCall_stable (baseName : Option Name) {base whole : Compile Operand} (field : Name)
    {args : List (Compile Operand)} (hbase : Stable exact base) (hwhole : Stable exact whole)
    (h : ∀ a ∈ args, Stable exact a) :
    Stable exact (selectorCall baseName base field whole args) := by
  refine (packageMember?_stable baseName field).bind fun member => ?_
  cases member with
  | some _ => exact hwhole.bind fun _ => callOperand_stable _ h
  | none =>
      refine hbase.bind fun op => (valueOf_stable op).bind fun r => ?_
      refine .get (fun _ _ hc => by rw [hc.method]) fun c => ?_
      cases c.method? r.2 field with
      | none => exact (select_stable _ _ _).bind fun _ => callOperand_stable _ h
      | some m =>
          exact (calledSignature_stable _).bind fun _ =>
            .get (fun _ _ hc => by rw [hc.globalsDepth]) fun _ => directCall_stable _ _ _ _ h

/-- What is called has stable parts. -/
def StableCallee (exact : Bool) : Callee → Prop
  | .selector _ base _ => Stable exact base
  | .name _ | .other => True

/-- A call. -/
theorem call_stable {type? firstType? : Compile (Option Ty)} {callee : Callee}
    {whole : Compile Operand} {args : List (Compile Operand)} (htype : Stable exact type?)
    (hcallee : StableCallee exact callee) (hwhole : Stable exact whole)
    (hfirst : Stable exact firstType?) (h : ∀ a ∈ args, Stable exact a) :
    Stable exact (call type? callee whole firstType? args) := by
  refine htype.bind fun ty => ?_
  cases ty with
  | some ty => exact conversion_stable ty h
  | none =>
      have hvalue : Stable exact (do callOperand (← whole) args) :=
        hwhole.bind fun _ => callOperand_stable _ h
      cases callee with
      | name name =>
          refine .get (fun _ _ hc => by rw [hc.resolve]) fun c => ?_
          cases c.resolve name with
          | none => exact hvalue
          | some m =>
              cases m with
              | builtin k => exact builtinCall_stable k hfirst h
              | func depth slot ty =>
                  exact (calledSignature_stable _).bind fun _ => directCall_stable _ _ _ _ h
              | _ => exact hvalue
      | selector baseName base field => exact selectorCall_stable _ _ hcallee hwhole h
      | other => exact hvalue

/-! ### Assignments -/

/-- An index expression as a place. -/
theorem indexPlace_stable {container key : Compile Operand} (hcontainer : Stable exact container)
    (hkey : Stable exact key) : Stable exact (indexPlace container key) :=
  hcontainer.bind fun op => (valueOf_stable op).bind fun _ => hkey.bind fun _ =>
    (Stable.rule fun _ _ ht => ht.same fun _ _ _ _ _ => rfl).bind fun _ => .pure _

/-- A selector as a place. -/
theorem selectorPlace_stable {base : Compile (Option Place)} (h : Stable exact base)
    (name : Name) : Stable exact (selectorPlace base name) := by
  refine h.bind fun place => ?_
  cases place with
  | none => exact .fail _
  | some _ => exact (Stable.rule fun _ _ ht => by rw [ht.fieldPlace]).bind fun _ => .pure _

/-- An assignment of an operand to a place. -/
theorem store_stable (place : Place) (op : Operand) : Stable exact (store place op) :=
  .rule fun _ _ ht => by rw [ht.set]

/-- An assignment of the value in a slot. -/
theorem assignSlot_stable {target : Compile (Option Place)} (h : Stable exact target) (ty : Ty)
    (slot : Nat) : Stable exact (assignSlot target ty slot) := by
  refine h.bind fun place => ?_
  cases place with
  | none => exact .pure _
  | some place =>
      exact .types (fun _ _ ht => ht.same fun _ _ _ _ _ => rfl) fun _ =>
        (store_stable _ _).bind fun _ => .pure _

/-- An assignment of the values in slots. -/
theorem assignSlots_stable {targets : List (Compile (Option Place))}
    (h : ∀ p ∈ targets, Stable exact p) (slots : List (Ty × Nat)) :
    Stable exact (assignSlots targets slots) := by
  induction targets generalizing slots with
  | nil => exact .pure _
  | cons target rest ih =>
      rw [List.forall_mem_cons] at h
      cases slots with
      | nil => exact .pure _
      | cons s slots =>
          exact (assignSlot_stable h.1 _ _).bind fun _ => (ih h.2 slots).bind fun _ => .pure _

/-- Slots for types. -/
theorem allocEach_stable (types : List Ty) : Stable true (allocEach types) := by
  induction types with
  | nil => exact .pure _
  | cons ty rest ih => exact (Stable.onFrame _).bind fun _ => ih.bind fun _ => .pure _

/-- Operands with slots for their values. -/
theorem stageEach_stable {values : List (Compile Operand)} (h : ∀ p ∈ values, Stable true p) :
    Stable true (stageEach values) := by
  induction values with
  | nil => exact .pure _
  | cons value rest ih =>
      rw [List.forall_mem_cons] at h
      exact h.1.bind fun op => (valueOf_stable op).bind fun _ => (Stable.onFrame _).bind fun _ =>
        (ih h.2).bind fun _ => .pure _

/-- An assignment of one value. -/
theorem assignOne_stable {target : Compile (Option Place)} {value : Compile Operand}
    (htarget : Stable exact target) (hvalue : Stable exact value) :
    Stable exact (assignOne target value) := by
  refine htarget.bind fun place => hvalue.bind fun op => ?_
  cases place with
  | none => exact (Stable.check _).bind fun _ => .pure _
  | some place => exact (store_stable _ _).bind fun _ => .pure _

/-- An assignment of the results of a call. -/
theorem assignResults_stable {targets : List (Compile (Option Place))} {value : Compile Operand}
    (htargets : ∀ p ∈ targets, Stable true p) (hvalue : Stable true value) :
    Stable true (assignResults targets value) := by
  refine hvalue.bind fun op => ?_
  cases op with
  | term _ => exact .fail _
  | results call types =>
      have hstores := (allocEach_stable types).bind fun slots =>
        (assignSlots_stable htargets slots).bind fun stores =>
          (Stable.pure (.spread call 0 (slots.map fun s => some s.2) :: stores) : Stable true _)
      exact .ite (.fail_bind _ _) hstores

/-- An assignment of several values. -/
theorem assignEach_stable {targets : List (Compile (Option Place))}
    {values : List (Compile Operand)} (htargets : ∀ p ∈ targets, Stable true p)
    (hvalues : ∀ p ∈ values, Stable true p) : Stable true (assignEach targets values) := by
  have hstores := (stageEach_stable hvalues).bind fun staged =>
    (assignSlots_stable htargets (staged.map Prod.snd)).bind fun stores =>
      (Stable.pure (.setSlots (staged.map fun s => (some s.2.2, s.1)) :: stores) :
        Stable true _)
  exact .ite (.fail_bind _ _) hstores

/-- An assignment. -/
theorem assign_stable {targets : List (Compile (Option Place))} {values : List (Compile Operand)}
    (htargets : ∀ p ∈ targets, Stable true p) (hvalues : ∀ p ∈ values, Stable true p) :
    Stable true (assign targets values) := by
  unfold assign
  split
  · exact assignOne_stable (htargets _ (List.mem_singleton_self _))
      (hvalues _ (List.mem_singleton_self _))
  · exact assignResults_stable htargets (hvalues _ (List.mem_singleton_self _))
  · exact assignEach_stable htargets hvalues

/-- The place that an update needs. -/
theorem updatedPlace_stable {target : Compile (Option Place)} (h : Stable exact target) :
    Stable exact (updatedPlace target) := by
  refine h.bind fun place => ?_
  cases place with
  | none => exact .fail _
  | some _ => exact .pure _

/-- Increment or decrement. -/
theorem step_stable {target : Compile (Option Place)} (h : Stable exact target)
    (increment : Bool) : Stable exact (step target increment) := by
  refine (updatedPlace_stable h).bind fun p => .rule fun t t' ht => ?_
  have hone : one t = one t' := ht.same fun _ _ _ _ _ => rfl
  rw [hone, ht.setOp]

/-- An operator that is applied in place. -/
theorem update_stable (op : BinaryOp) {target : Compile (Option Place)} {value : Compile Operand}
    (htarget : Stable exact target) (hvalue : Stable exact value) :
    Stable exact (update op target value) := by
  refine (updatedPlace_stable htarget).bind fun p => hvalue.bind fun v => .rule fun t t' ht => ?_
  have hof : v.valueOf t = v.valueOf t' := ht.same fun _ _ _ _ _ => rfl
  have hfor : v.valueFor t = v.valueFor t' := ht.same fun _ _ _ _ _ => rfl
  rw [hof, hfor, ht.setOp]

/-! ### Declarations of variables -/

/-- A declared name. -/
theorem bindName_stable (redeclare : Bool) (name : Name) (ty : Ty) :
    Stable true (bindName redeclare name ty) := by
  have hnew : Stable true (do return some (← declareLocal name ty)) :=
    (Stable.onFrame _).bind fun _ => .pure _
  refine .ite (.pure _) (.get (fun _ _ hc => by rw [hc.frame]) fun c => ?_)
  cases c.frame.findInnermost? name with
  | none => exact hnew
  | some l =>
      cases redeclare with
      | false => exact hnew
      | true =>
          exact (Stable.rule fun _ _ ht => ht.same fun _ _ _ _ _ => rfl).bind fun _ => .pure _

/-- Names for the results of a call. -/
theorem bindResults_stable (declared : Option Ty) (redeclare : Bool) (names : List Name)
    (types : List Ty) : Stable true (bindResults declared redeclare names types) := by
  induction names generalizing types with
  | nil => exact .pure _
  | cons name names ih =>
      cases types with
      | nil => exact .pure _
      | cons ty types =>
          exact (Stable.rule fun _ _ ht => ht.same fun _ _ _ _ _ => rfl).bind fun _ =>
            (bindName_stable _ _ _).bind fun _ => (ih types).bind fun _ => .pure _

/-- Names for staged values. -/
theorem bindStaged_stable (redeclare : Bool) (names : List Name)
    (staged : List (Ty × Code.Expr)) : Stable true (bindStaged redeclare names staged) := by
  induction names generalizing staged with
  | nil => exact .pure _
  | cons name names ih =>
      cases staged with
      | nil => exact .pure _
      | cons s staged =>
          exact (bindName_stable _ _ _).bind fun _ => (ih staged).bind fun _ => .pure _

/-- A declaration of variables with values. -/
theorem declareValues_stable (names : List Name) (declared : Option Ty)
    {values : List (Compile Operand)} (h : ∀ p ∈ values, Stable true p) (redeclare : Bool) :
    Stable true (declareValues names declared values redeclare) := by
  refine (sequence_stable h).bind fun ops => ?_
  dsimp only
  split
  · exact .ite (.fail_bind _ _) ((bindResults_stable _ _ _ _).bind fun _ => .pure _)
  · refine .ite (.fail_bind _ _) ((Stable.rule fun t t' ht => ?_).bind fun _ =>
      (bindStaged_stable _ _ _).bind fun _ => .pure _)
    exact ht.stageDeclared declared ops

/-- A declaration of variables that start at zero. -/
theorem declareZeros_stable (names : List Name) (declared : Option Ty) :
    Stable true (declareZeros names declared) := by
  cases declared with
  | none => exact .fail _
  | some ty =>
      exact .types (fun _ _ ht => by rw [ht.zero]) fun _ =>
        (bindStaged_stable _ _ _).bind fun _ => .pure _

/-! ### Control flow and bodies -/

/-- Code in a block of its own. -/
theorem inBlock_stable {content : Emit Unit} (h : Emit.Stable content) :
    Emit.Stable (inBlock content) :=
  fun k => (Stable.updateFrame _).bind fun _ => (h k).bind fun _ =>
    (Stable.updateFrame _).bind fun _ => .pure _

/-- A condition. -/
theorem condition_stable {test : Compile Operand} (h : Stable exact test) :
    Stable exact (condition test) :=
  h.bind fun op => (valueOf_stable op).bind fun _ => .ite (.pure _) (.fail _)

/-- Code for a condition. -/
theorem jumpUnless_stable {test : Option (Compile Operand)} (h : ∀ t ∈ test, Stable true t)
    (label : Nat) : Emit.Stable (jumpUnless test label) := by
  cases test with
  | none => exact .pure _
  | some t => exact (Emit.Stable.lift (condition_stable (h t rfl))).bind fun _ => .modifyGet _

/-- A clause that may be absent. -/
theorem optional_stable {step : Option (Emit Unit)} (h : ∀ s ∈ step, Emit.Stable s) :
    Emit.Stable (optional step) := by
  cases step with
  | none => exact .pure _
  | some s => exact h s rfl

/-- A conditional statement. -/
theorem ifThenElse_stable {test : Compile Operand} {body : Emit Unit}
    {otherwise : Option (Emit Unit)} (htest : Stable true test) (hbody : Emit.Stable body)
    (hotherwise : ∀ s ∈ otherwise, Emit.Stable s) :
    Emit.Stable (ifThenElse test body otherwise) := by
  refine (Emit.Stable.lift (condition_stable htest)).bind fun e =>
    (Emit.Stable.modifyGet _).bind fun skip => (Emit.Stable.modifyGet _).bind fun _ =>
      (inBlock_stable hbody).bind fun _ => ?_
  cases otherwise with
  | none => exact .modifyGet _
  | some s =>
      exact (Emit.Stable.modifyGet _).bind fun _ => (Emit.Stable.modifyGet _).bind fun _ =>
        (Emit.Stable.modifyGet _).bind fun _ => (hotherwise s rfl).bind fun _ => .modifyGet _

/-- A loop. -/
theorem loop_stable {init post : Option (Emit Unit)} {test : Option (Compile Operand)}
    {body : Emit Unit} (hinit : ∀ s ∈ init, Emit.Stable s) (htest : ∀ t ∈ test, Stable true t)
    (hpost : ∀ s ∈ post, Emit.Stable s) (hbody : Emit.Stable body) :
    Emit.Stable (loop init test post body) :=
  inBlock_stable <| (optional_stable hinit).bind fun _ => (Emit.Stable.modifyGet _).bind fun _ =>
    (Emit.Stable.modifyGet _).bind fun _ => (Emit.Stable.modifyGet _).bind fun _ =>
      (Emit.Stable.modifyGet _).bind fun _ => (jumpUnless_stable htest _).bind fun _ =>
        (Emit.Stable.modifyGet _).bind fun _ => (inBlock_stable hbody).bind fun _ =>
          (Emit.Stable.modifyGet _).bind fun _ => (Emit.Stable.modifyGet _).bind fun _ =>
            (optional_stable hpost).bind fun _ => (Emit.Stable.modifyGet _).bind fun _ =>
              .modifyGet _

/-- `break` and `continue`. -/
theorem branchOut_stable (keyword : String) (label : LoopLabels → Nat) :
    Emit.Stable (branchOut keyword label) := by
  intro k
  unfold branchOut
  cases k.loops with
  | nil => exact .fail _
  | cons l _ => exact .pure _

/-- Operands as values of types. -/
theorem convertEach_stable {values : List (Compile Operand)} (h : ∀ p ∈ values, Stable exact p)
    (types : List Ty) : Stable exact (convertEach values types) := by
  induction values generalizing types with
  | nil => exact .pure _
  | cons value rest ih =>
      rw [List.forall_mem_cons] at h
      cases types with
      | nil => exact .pure _
      | cons ty types =>
          exact (converted_stable h.1 ty).bind fun _ => (ih h.2 types).bind fun _ => .pure _

/-- A return of as many values as there are results. -/
theorem returnEach_stable {values : List (Compile Operand)} (h : ∀ p ∈ values, Stable true p) :
    Stable true (returnEach values) :=
  .get (fun _ _ hc => by rw [hc.frame]) fun _ => .ite (.fail_bind _ _)
    ((convertEach_stable h _).bind fun _ => .pure _)

/-- A return of the results of a call. -/
theorem returnResults_stable {value : Compile Operand} (h : Stable true value) :
    Stable true (returnResults value) := by
  refine .get (fun _ _ hc => by rw [hc.frame]) fun c => h.bind fun op => ?_
  cases op with
  | term _ => exact .fail _
  | results call types =>
      refine .ite (.fail_bind _ _) ((Stable.rule fun t t' ht => ?_).bind fun _ => .pure _)
      have hassign : Term.requireAssignable t = Term.requireAssignable t' :=
        ht.same fun _ _ _ _ _ => rfl
      rw [hassign]

/-- A return without values. -/
theorem returnNothing_stable : Stable true returnNothing := by
  refine .get (fun _ _ hc => by rw [hc.frame]) fun c => ?_
  dsimp only
  split
  · exact .pure _
  · exact .ite (.pure _) (.fail _)

/-- A return statement. -/
theorem returnStmt_stable {values : List (Compile Operand)} (h : ∀ p ∈ values, Stable true p) :
    Stable true (returnStmt values) := by
  match values with
  | [] => exact returnNothing_stable
  | [value] =>
      exact .get (fun _ _ hc => by rw [hc.frame]) fun c => .ite (returnEach_stable h)
        (returnResults_stable (h _ (List.mem_singleton_self _)))
  | _ :: _ :: _ => exact returnEach_stable h

/-- The slot of a parameter or result. -/
theorem bindSlot_stable (name : Option Name) (ty : Ty) : Stable true (bindSlot name ty) := by
  cases name with
  | none => exact .onFrame _
  | some name => exact .ite (.onFrame _) (.onFrame _)

/-- The slots of parameters or results. -/
theorem bindSlots_stable (slots : List (Option Name × Ty)) : Stable true (bindSlots slots) := by
  induction slots with
  | nil => exact .pure _
  | cons s rest ih => exact (bindSlot_stable _ _).bind fun _ => ih.bind fun _ => .pure _

/-- Named results start at zero. -/
theorem bindResultSlots_stable (results : List (Option Name × Ty)) :
    Stable true (bindResultSlots results) :=
  .ite ((bindSlots_stable results).bind fun slots => .types (fun _ _ ht => by rw [ht.zero])
    fun t => (Stable.updateFrame _).bind fun _ => .pure _) (.pure _)

/-- The beginning of a body. -/
theorem enterBody_stable (recv : Option (Option Name × Ty)) (h : Heading) :
    Stable true (enterBody recv h) :=
  (Stable.updateFrame _).bind fun _ => (bindSlots_stable _).bind fun _ =>
    bindResultSlots_stable _

/-- The end of a body. -/
theorem leaveBody_stable : Stable true leaveBody :=
  .types (fun _ _ ht => by rw [ht.implicitReturn]) fun _ =>
    .get (fun _ _ hc => by rw [hc.frame]) fun _ => .pure _

/-- The body of a function. -/
theorem bodyOf_stable (recv : Option (Option Name × Ty)) (h : Heading) {content : Emit Unit}
    (hcontent : Emit.Stable content) : Emit.Stable (bodyOf recv h content) :=
  (Emit.Stable.lift (enterBody_stable recv h)).bind fun _ => (Emit.Stable.modifyGet _).bind
    fun _ => (inBlock_stable hcontent).bind fun _ => (Emit.Stable.lift leaveBody_stable).bind
      fun _ => .modifyGet _

/-- The code of a body. -/
theorem assembled_stable {content : Emit Unit} (h : Emit.Stable content) :
    Stable true (assembled content) :=
  (h .empty).bind fun _ => .get (fun _ _ hc => by rw [hc.frame]) fun _ => .pure _

/-- A function literal: its body is compiled in a frame of its own, so slots count in it. -/
theorem funcLit_stable {heading : Compile Heading} {content : Emit Unit}
    (hheading : Stable exact heading) (hcontent : Emit.Stable content) :
    Stable exact (funcLit heading content) :=
  hheading.bind fun h => (headingType_stable none h).bind fun _ =>
    (Stable.inFrame true (assembled_stable (bodyOf_stable none h hcontent))).bind fun _ =>
      .pure _

end ScriptCore.Compile
