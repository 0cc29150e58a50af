import ScriptCore.Proofs.Dependencies.Views

/-!
# Rules are blind

The rules by which expressions, types and statements are compiled from their parts look up what they
are given the name of, and nothing else.  So a rule is blind if its parts are.

Main statements: `call_quiet`, `composite_quiet` and `loop_blind`.
-/

namespace ScriptCore.Compile

variable {α β : Type} {v : Views} {b b' : List Name} {c : Compiler}

/-! ### Names -/

/-- Meaning of a name. -/
theorem resolve_quiet {name : Name} (hname : ∀ u ∈ nameUse b name, v.Agree u) :
    Quiet v b (resolve name) := by
  refine Blind.get (fun c hc => by rw [hc.resolve hname]) fun c _ => ?_
  cases c.resolve name with
  | none => exact Quiet.fail _
  | some m => exact Quiet.pure m

/-- Code for what a name means. -/
theorem identifier_quiet {name : Name} (hname : ∀ u ∈ nameUse b name, v.Agree u) :
    Quiet v b (identifier name) := by
  refine (resolve_quiet hname).bind fun m => ?_
  cases m with
  | var depth slot ty => exact Blind.types fun t => Quiet.pure _
  | func depth slot ty => exact Blind.types fun t => Quiet.pure _
  | const c ty => exact .pure _
  | host f => exact .pure _
  | type ty => exact .fail _
  | package p => exact .fail _
  | builtin k => exact .fail _

/-- The type that a name stands for. -/
theorem namedType_quiet {name : Name} (hname : ∀ u ∈ nameUse b name, v.Agree u) :
    Quiet v b (namedType name) := by
  refine (resolve_quiet hname).bind fun m => ?_
  cases m with
  | type ty => exact .pure _
  | _ => exact .fail _

/-- The type that an identifier stands for, if it stands for one. -/
theorem identifiedType?_quiet {name : Name} (hname : ∀ u ∈ nameUse b name, v.Agree u) :
    Quiet v b (identifiedType? name) := by
  refine Blind.get (fun c hc => by rw [hc.resolve hname]) fun c _ => ?_
  cases c.resolve name with
  | none => exact Quiet.pure _
  | some m => cases m <;> exact Quiet.pure _

/-- The place that a name stands for. -/
theorem namedPlace_quiet {name : Name} (hname : ∀ u ∈ nameUse b name, v.Agree u) :
    Quiet v b (namedPlace name) := by
  refine Blind.ite (fun _ => Quiet.pure _) fun _ => (resolve_quiet hname).bind fun m => ?_
  cases m with
  | var depth slot ty => exact .pure _
  | _ => exact .fail _

/-! ### Parts of values -/

/-- An index expression. -/
theorem index_quiet {container key : Compile Operand} (hcontainer : Quiet v b container)
    (hkey : Quiet v b key) : Quiet v b (index container key) :=
  hcontainer.bind fun _ => (Quiet.rule _).bind fun _ => hkey.bind fun _ =>
    (Quiet.rule _).bind fun _ => .pure _

/-- The names that the base of a selector may be. -/
def BaseBlind (v : Views) (b : List Name) (base : Option Name) : Prop :=
  ∀ name ∈ base, ∀ u ∈ nameUse b name, v.Agree u

/-- A member of a package. -/
theorem packageMember?_quiet {base : Option Name} (hbase : BaseBlind v b base) (field : Name) :
    Quiet v b (packageMember? base field) := by
  have hresolve (c : Compiler) (hc : c.Shows v b) :
      base.bind (c.other v).resolve = base.bind c.resolve := by
    cases base with
    | none => rfl
    | some name => exact hc.resolve (hbase name rfl)
  refine Blind.get (fun c hc => by rw [hresolve c hc]) fun c _ => ?_
  cases base.bind c.resolve with
  | none => exact Quiet.pure _
  | some m =>
      cases m with
      | package p =>
          cases hf : findHost p.members field with
          | none =>
              simp only [hf]
              exact Quiet.fail _
          | some f =>
              simp only [hf]
              exact Quiet.pure _
      | _ => exact Quiet.pure _

/-- A method with its receiver. -/
theorem methodValue_quiet (recv : Code.Expr) (method : Binding) (name : Name) :
    Quiet v b (methodValue recv method name) := by
  refine Blind.types fun t => ?_
  cases t.signature? method.type with
  | none => exact Quiet.fail _
  | some s =>
      exact (signatureType_quiet _ _ _ _).bind fun ty =>
        Blind.get (fun _ _ => rfl) fun _ _ => Quiet.pure _

/-- A method or field of a value. -/
theorem select_quiet {name : Name} (hname : v.Agree (.method name)) (e : Code.Expr) (ty : Ty) :
    Quiet v b (select e ty name) := by
  refine Blind.get (fun c hc => by rw [hc.method hname]) fun c _ => ?_
  cases c.method? ty name with
  | none => exact (Quiet.rule _).bind fun _ => .pure _
  | some m => exact methodValue_quiet e m name

/-- A selector. -/
theorem selector_quiet {baseName : Option Name} {base : Compile Operand} {field : Name}
    (hname : BaseBlind v b baseName) (hbase : Quiet v b base)
    (hfield : v.Agree (.method field)) : Quiet v b (selector baseName base field) := by
  refine (packageMember?_quiet hname field).bind fun member => ?_
  cases member with
  | some f => exact .pure _
  | none => exact hbase.bind fun _ => (Quiet.rule _).bind fun _ => select_quiet hfield _ _

/-- An operand as a value of a type. -/
theorem converted_quiet {operand : Compile Operand} (h : Quiet v b operand) (ty : Ty) :
    Quiet v b (converted operand ty) :=
  h.bind fun _ => (Quiet.rule _).bind fun _ => .pure _

/-- Elements of a slice literal. -/
theorem sliceElements_quiet (elem : Ty) {elems : List Element}
    (h : ∀ e ∈ elems, Quiet v b e.value) : Quiet v b (sliceElements elem elems) := by
  induction elems with
  | nil => exact .pure _
  | cons e rest ih =>
      rw [List.forall_mem_cons] at h
      rw [sliceElements]
      have hrest := (converted_quiet h.1 elem).bind fun x => (ih h.2).bind fun xs =>
        (Quiet.pure (x :: xs) : Quiet v b _)
      cases e.key.isSome with
      | true => exact Blind.fail_bind _ _
      | false => exact hrest

/-- Entries of a map literal. -/
theorem mapElements_quiet (key elem : Ty) {elems : List Element}
    (h : ∀ e ∈ elems, Quiet v b e.value) (hkey : ∀ e ∈ elems, ∀ k ∈ e.key, Quiet v b k) :
    Quiet v b (mapElements key elem elems) := by
  induction elems with
  | nil => exact .pure _
  | cons e rest ih =>
      rw [List.forall_mem_cons] at h hkey
      rw [mapElements]
      cases hk : e.key with
      | none => exact .fail _
      | some k =>
          exact (converted_quiet (hkey.1 k hk) key).bind fun _ =>
            (converted_quiet h.1 elem).bind fun _ => (ih h.2 hkey.2).bind fun _ => .pure _

/-- Fields of a struct literal. -/
theorem structElements_quiet (ty : Ty) (count : Nat) {elems : List Element}
    (h : ∀ e ∈ elems, Quiet v b e.value) (pos : Nat) (inits : List Code.Expr) :
    Quiet v b (structElements ty count pos inits elems) := by
  induction elems generalizing pos inits with
  | nil => exact .pure _
  | cons e rest ih =>
      rw [List.forall_mem_cons] at h
      rw [structElements]
      refine (Quiet.rule _).bind fun i => Blind.types fun t => ?_
      dsimp only
      cases (t.fields ty)[i]? with
      | none => exact Quiet.fail _
      | some f => exact (converted_quiet h.1 f.type).bind fun x => ih h.2 _ _

/-- A literal, whose keys are looked at if it is one of a map type. -/
theorem composite_blind {ty : Ty} {elems : List Element} (hc : c.Shows v b)
    (h : ∀ e ∈ elems, Quiet v b e.value)
    (hkey : c.types.kind ty = .map → ∀ e ∈ elems, ∀ k ∈ e.key, Quiet v b k) :
    BlindAt v b (composite ty elems) c := by
  unfold composite
  apply BlindAt.types
  dsimp only
  split
  · exact (sliceElements_quiet _ h).bind (fun _ => .pure _) c hc
  · rename_i hmap _ _
    exact (mapElements_quiet _ _ h (hkey hmap)).bind (fun _ => .pure _) c hc
  · exact (structElements_quiet _ _ h _ _).bind (fun _ => .pure _) c hc
  · exact Blind.fail_bind _ _ c hc

/-! ### Calls -/

/-- Steps from left to right. -/
theorem sequence_quiet {steps : List (Compile α)} (h : ∀ s ∈ steps, Quiet v b s) :
    Quiet v b (sequence steps) := by
  induction steps with
  | nil => exact .pure _
  | cons s rest ih =>
      rw [List.forall_mem_cons] at h
      exact h.1.bind fun _ => (ih h.2).bind fun _ => .pure _

/-- Steps that are made from others. -/
theorem sequence_map_quiet {f : Compile α → Compile β} {steps : List (Compile α)}
    (hf : ∀ s, Quiet v b s → Quiet v b (f s)) (h : ∀ s ∈ steps, Quiet v b s) :
    Quiet v b (sequence (steps.map f)) := by
  apply sequence_quiet
  intro s hs
  obtain ⟨s', hs', rfl⟩ := List.mem_map.1 hs
  exact hf s' (h s' hs')

/-- A call of a function. -/
theorem directCall_quiet (name : String) (func : Code.Expr) (s : Signature)
    (recv : Option Code.Expr) {args : List (Compile Operand)} (h : ∀ a ∈ args, Quiet v b a) :
    Quiet v b (directCall name func s recv args) :=
  (sequence_quiet h).bind fun _ => (Quiet.rule _).bind fun _ => Blind.types fun _ => Quiet.pure _

/-- A call of a function value. -/
theorem callOperand_quiet (callee : Operand) {args : List (Compile Operand)}
    (h : ∀ a ∈ args, Quiet v b a) : Quiet v b (callOperand callee args) :=
  (Quiet.rule _).bind fun _ => (calledSignature_quiet _).bind fun _ =>
    directCall_quiet _ _ _ _ h

/-- A conversion. -/
theorem conversion_quiet (ty : Ty) {args : List (Compile Operand)} (h : ∀ a ∈ args, Quiet v b a) :
    Quiet v b (conversion ty args) := by
  match args with
  | [] => exact .fail _
  | [arg] =>
      exact (h arg (List.mem_singleton_self _)).bind fun _ => (Quiet.check _).bind fun _ =>
        (Quiet.rule _).bind fun _ => .pure _
  | _ :: _ :: _ => exact .fail _

/-- `len` and `cap`. -/
theorem lengthCall_quiet (k : Builtin) {args : List (Compile Operand)}
    (h : ∀ a ∈ args, Quiet v b a) : Quiet v b (lengthCall k args) := by
  match args with
  | [] => exact .fail _
  | [arg] =>
      exact (h arg (List.mem_singleton_self _)).bind fun _ => (Quiet.rule _).bind fun _ => .pure _
  | _ :: _ :: _ => exact .fail _

/-- An operand as an index. -/
theorem indexed_quiet {operand : Compile Operand} (h : Quiet v b operand) :
    Quiet v b (indexed operand) :=
  h.bind fun _ => .rule _

/-- `make`. -/
theorem makeCall_quiet {type? : Compile (Option Ty)} {args : List (Compile Operand)}
    (htype : Quiet v b type?) (h : ∀ a ∈ args, Quiet v b a) :
    Quiet v b (makeCall type? args) := by
  cases args with
  | nil => exact .fail _
  | cons _ sizes =>
      rw [List.forall_mem_cons] at h
      refine htype.bind fun ty => ?_
      cases ty with
      | none => exact .fail _
      | some ty =>
          exact (sequence_map_quiet (fun _ => indexed_quiet) h.2).bind fun _ =>
            (Quiet.rule _).bind fun _ => .pure _

/-- `append`. -/
theorem appendCall_quiet {args : List (Compile Operand)} (h : ∀ a ∈ args, Quiet v b a) :
    Quiet v b (appendCall args) := by
  cases args with
  | nil => exact .fail _
  | cons base elems =>
      rw [List.forall_mem_cons] at h
      refine h.1.bind fun _ => (Quiet.rule _).bind fun r => Blind.types fun t => ?_
      split
      · exact (sequence_map_quiet (fun _ hs => converted_quiet hs _) h.2).bind fun _ =>
          Quiet.pure _
      · exact Quiet.fail _

/-- `delete`. -/
theorem deleteCall_quiet {args : List (Compile Operand)} (h : ∀ a ∈ args, Quiet v b a) :
    Quiet v b (deleteCall args) := by
  match args with
  | [] | [_] | _ :: _ :: _ :: _ => exact .fail _
  | [map, key] =>
      have hmap := h map List.mem_cons_self
      have hkey := h key (List.mem_cons_of_mem _ (List.mem_singleton_self _))
      refine hmap.bind fun _ => (Quiet.rule _).bind fun r => Blind.types fun t => ?_
      split
      · exact (converted_quiet hkey _).bind fun _ => Quiet.pure _
      · exact Quiet.fail _

/-- A call of a builtin function. -/
theorem builtinCall_quiet (k : Builtin) {type? : Compile (Option Ty)}
    {args : List (Compile Operand)} (htype : Quiet v b type?) (h : ∀ a ∈ args, Quiet v b a) :
    Quiet v b (builtinCall k type? args) := by
  cases k with
  | len => exact lengthCall_quiet _ h
  | cap => exact lengthCall_quiet _ h
  | make => exact makeCall_quiet htype h
  | append => exact appendCall_quiet h
  | delete => exact deleteCall_quiet h

/-- A call of a selector. -/
theorem selectorCall_quiet {baseName : Option Name} {base whole : Compile Operand} {field : Name}
    {args : List (Compile Operand)} (hname : BaseBlind v b baseName) (hbase : Quiet v b base)
    (hfield : v.Agree (.method field)) (hwhole : Quiet v b whole)
    (h : ∀ a ∈ args, Quiet v b a) : Quiet v b (selectorCall baseName base field whole args) := by
  refine (packageMember?_quiet hname field).bind fun member => ?_
  cases member with
  | some _ => exact hwhole.bind fun _ => callOperand_quiet _ h
  | none =>
      refine hbase.bind fun _ => (Quiet.rule _).bind fun r => ?_
      refine Blind.get (fun c hc => by rw [hc.method hfield]) fun c _ => ?_
      cases c.method? r.2 field with
      | none => exact (select_quiet hfield _ _).bind fun _ => callOperand_quiet _ h
      | some m =>
          exact (calledSignature_quiet _).bind fun _ =>
            Blind.get (fun _ _ => rfl) fun _ _ => directCall_quiet _ _ _ _ h

/-- What is called looks up nothing but names and methods on which the views agree. -/
def CalleeBlind (v : Views) (b : List Name) : Callee → Prop
  | .name name => ∀ u ∈ nameUse b name, v.Agree u
  | .selector baseName base field =>
    BaseBlind v b baseName ∧ Quiet v b base ∧ v.Agree (.method field)
  | .other => True

/-- A call. -/
theorem call_quiet {type? firstType? : Compile (Option Ty)} {callee : Callee}
    {whole : Compile Operand} {args : List (Compile Operand)} (htype : Quiet v b type?)
    (hcallee : CalleeBlind v b callee) (hwhole : Quiet v b whole)
    (hfirst : Quiet v b firstType?) (h : ∀ a ∈ args, Quiet v b a) :
    Quiet v b (call type? callee whole firstType? args) := by
  refine htype.bind fun ty => ?_
  cases ty with
  | some ty => exact conversion_quiet ty h
  | none =>
      have hvalue : Quiet v b (do callOperand (← whole) args) :=
        hwhole.bind fun _ => callOperand_quiet _ h
      cases callee with
      | name name =>
          refine Blind.get (fun c hc => by rw [hc.resolve hcallee]) fun c _ => ?_
          cases c.resolve name with
          | none => exact hvalue
          | some m =>
              cases m with
              | builtin k => exact builtinCall_quiet k hfirst h
              | func depth slot ty =>
                  exact (calledSignature_quiet _).bind fun _ => directCall_quiet _ _ _ _ h
              | _ => exact hvalue
      | selector baseName base field =>
          exact selectorCall_quiet hcallee.1 hcallee.2.1 hcallee.2.2 hwhole h
      | other => exact hvalue

end ScriptCore.Compile
