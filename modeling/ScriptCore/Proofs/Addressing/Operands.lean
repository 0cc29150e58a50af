import ScriptCore.Proofs.Addressing.Terms

/-!
# Expressions with checked addresses

For every rule that compiles an expression from its parts: if the parts agree, with and without
checks, so does the expression, and its code is covered by the world if that of its parts is.

The checks themselves are made at identifiers: `identifier_stays` and `namedPlace_stays`.
-/

namespace ScriptCore.Compile

open Code

variable {w : World}

/-- Two steps agree and stay in a world, which covers what they give. -/
abbrev Stays {α : Type} [HasCode α] (w : World) (p q : Compile α) : Prop :=
  Agrees w p q w w.Covers

/-- Two steps agree and stay in a world, whatever they give. -/
abbrev Keeps {α : Type} (w : World) (p q : Compile α) : Prop :=
  Agrees w p q w fun _ => True

/-! ### Names -/

/-- What a name means lies within the world. -/
theorem resolve_agrees (name : Name) :
    Agrees w (resolve name) (resolve name) w fun m => m.Within w := by
  refine .get fun c hc => ?_
  cases hm : c.resolve name with
  | none => exact .fail _
  | some m => exact .pure (hc.resolve hm).1

/-- A step that looks a name up does not change the state. -/
theorem resolve_bind_ok {α : Type} {name : Name} {f : Meaning → Compile α} {c c' : Compiler} {a : α}
    (h : (resolve name >>= f) c = .ok (a, c')) :
    ∃ m, c.resolve name = some m ∧ f m c = .ok (a, c') := by
  change (resolve name c).bind (fun r => f r.1 r.2) = _ at h
  cases hm : c.resolve name with
  | none =>
      rw [resolve_none hm] at h
      cases h
  | some m =>
      rw [resolve_some hm] at h
      exact ⟨m, rfl, h⟩

/-- Code that loads a slot loads its address, whether or not the value is checked. -/
theorem ofExpr_load_address (t : TypeTable) (depth slot : Nat) (ty : Ty) :
    (Operand.term (.ofExpr t (.load depth slot) ty)).address? = some (depth, slot) := by
  rw [Term.ofExpr, Operand.address?, Typed.ofCategory]
  cases Typed.storage (t.category ty) <;> rfl

/-- An identifier loads the variable that it stands for. -/
theorem identifier_stays (name : Name) :
    Stays w (identifier name) (Checked.identifier w.scopes name) := by
  have hident : Stays w (identifier name) (identifier name) := by
    refine .bind (resolve_agrees name) fun m hm => ?_
    cases m with
    | var depth slot ty => exact .types fun t => .pure (Term.ofExpr_covers hm)
    | func depth slot ty => exact .types fun t => .pure (Term.ofExpr_covers hm)
    | const c ty => exact .pure (Term.const_covers c ty)
    | host f => exact .pure (World.admits_cons.2 ⟨World.holds_value.2 hm, World.admits_nil⟩)
    | type ty => exact .fail _
    | package p => exact .fail _
    | builtin b => exact .fail _
  refine hident.checked fun c op c' hc hrun _ _ => ?_
  obtain ⟨m, hm, hlast⟩ := resolve_bind_ok hrun
  have haddress := (hc.resolve hm).2
  cases m with
  | var depth slot ty =>
      cases hlast
      rw [haddress, Meaning.address?, Option.all_some, ofExpr_load_address, beq_self_eq_true]
  | func depth slot ty => cases hlast; rw [haddress]; rfl
  | const _ _ => cases hlast; rw [haddress]; rfl
  | host f => cases hlast; rw [haddress]; rfl
  | type ty => cases hlast
  | package p => cases hlast
  | builtin b => cases hlast

/-- A name as a place is the variable that it stands for. -/
theorem namedPlace_stays (name : Name) :
    Stays w (namedPlace name) (Checked.namedPlace w.scopes name) := by
  have hplace : Stays w (namedPlace name) (namedPlace name) := by
    refine .ite (fun _ => .pure World.covers_none) fun _ => ?_
    refine .bind (resolve_agrees name) fun m hm => ?_
    cases m with
    | var depth slot ty => exact .pure (World.covers_some.2 (Place.var_covers hm))
    | _ => exact .fail _
  refine hplace.checked fun c place c' hc hrun _ _ => ?_
  unfold namedPlace at hrun
  split at hrun
  · cases hrun
    rfl
  · obtain ⟨m, hm, hlast⟩ := resolve_bind_ok hrun
    have haddress := (hc.resolve hm).2
    cases m with
    | var depth slot ty =>
        cases hlast
        rw [haddress, Option.all_some]
        exact beq_self_eq_true _
    | _ => cases hlast

/-- The type that an identifier stands for. -/
theorem identifiedType?_keeps (name : Name) :
    Keeps w (identifiedType? name) (identifiedType? name) := by
  refine .get fun c hc => ?_
  split <;> exact .pure trivial

/-- The type that a name stands for. -/
theorem namedType_keeps (name : Name) : Keeps w (namedType name) (namedType name) := by
  refine .bind (resolve_agrees name) fun m _ => ?_
  cases m with
  | type ty => exact .pure trivial
  | _ => exact .fail _

/-- A member of a package is a function of the host. -/
theorem packageMember?_stays (base : Option Name) (field : Name) :
    Stays w (packageMember? base field) (packageMember? base field) := by
  refine .get fun c hc => ?_
  split
  · next p hp =>
      obtain ⟨name, -, hname⟩ := Option.bind_eq_some_iff.1 hp
      have hwithin := (hc.resolve hname).1
      split
      · next f hf => exact .pure (World.covers_some.2 (hwithin f (Compiler.findHost_mem hf)))
      · exact .fail _
  · exact .pure World.covers_none

/-! ### Parts of values -/

/-- A signature that is needed for a call. -/
theorem calledSignature_keeps (ty : Ty) : Keeps w (calledSignature ty) (calledSignature ty) := by
  refine .types fun t => ?_
  split
  · exact .pure trivial
  · exact .fail _

/-- An index expression. -/
theorem index_stays {c c' k k' : Compile Operand} (hc : Stays w c c') (hk : Stays w k k') :
    Stays w (index c k) (index c' k') := by
  refine .bind hc fun op hop => .bind (.rule fun t => Operand.valueOf_covers hop) fun r hr =>
    .bind hk fun key hkey => .bind (.rule fun t => elementOf_covers hr _ hkey) fun x hx => .pure hx

/-- A function of the host. -/
theorem hostOperand_covers {f : HostFunc} (h : w.Covers f) : w.Covers (hostOperand f) :=
  World.admits_cons.2 ⟨World.holds_value.2 h, World.admits_nil⟩

/-- A method with its receiver. -/
theorem methodValue_stays {recv : Code.Expr} {method : Binding} (hrecv : w.Covers recv)
    (hmethod : w.Covers method) (name : Name) :
    Stays w (methodValue recv method name) (methodValue recv method name) := by
  refine .types fun t => ?_
  split
  · exact .fail _
  · refine .bind (build_agrees _) fun ty _ => .get fun c hc => .pure ?_
    exact World.admits_append.2 ⟨hrecv, hc.global hmethod⟩

/-- A method or field. -/
theorem select_stays {e : Code.Expr} (he : w.Covers e) (ty : Ty) (name : Name) :
    Stays w (select e ty name) (select e ty name) := by
  refine .get fun c hc => ?_
  split
  · next m hm => exact methodValue_stays he (hc.method hm) name
  · exact .bind (.rule fun t => fieldOf_covers he ty name) fun x hx => .pure hx

/-- A selector. -/
theorem selector_stays {base base' : Compile Operand} (hbase : Stays w base base')
    (baseName : Option Name) (field : Name) :
    Stays w (selector baseName base field) (selector baseName base' field) := by
  refine .bind (packageMember?_stays baseName field) fun m hm => ?_
  cases m with
  | some f => exact .pure (hostOperand_covers (World.covers_some.1 hm))
  | none =>
      exact .bind hbase fun b hb => .bind (.rule fun t => Operand.valueOf_covers hb) fun r hr =>
        select_stays hr _ _

/-- An operand as a value of a type. -/
theorem converted_stays {p q : Compile Operand} (h : Stays w p q) (ty : Ty) :
    Stays w (converted p ty) (converted q ty) := by
  refine .bind h fun op hop => .bind (.rule fun t => Operand.valueFor_covers hop ty) fun e he =>
    .pure he

/-- Elements of a literal agree part by part. -/
structure ElementAgrees (w : World) (e e' : Element) : Prop where
  keyName : e.keyName = e'.keyName
  key : Option.Rel (Stays w) e.key e'.key
  value : Stays w e.value e'.value

/-- Elements of a slice literal. -/
theorem sliceElements_stays (elem : Ty) {es es' : List Element}
    (h : List.Forall₂ (ElementAgrees w) es es') :
    Stays w (sliceElements elem es) (sliceElements elem es') := by
  induction h with
  | nil => exact .pure World.covers_nil
  | @cons e e' rest rest' he _ ih =>
      obtain ⟨_, key, value⟩ := e
      obtain ⟨_, key', value'⟩ := e'
      obtain ⟨-, hkey, hvalue⟩ := he
      rw [sliceElements, sliceElements]
      cases hkey with
      | some _ => exact .fail_bind _
      | none =>
          exact .bind (converted_stays hvalue elem) fun v hv => .bind ih fun vs hvs =>
            .pure (World.covers_cons.2 ⟨hv, hvs⟩)

/-- Entries of a map literal. -/
theorem mapElements_stays (key elem : Ty) {es es' : List Element}
    (h : List.Forall₂ (ElementAgrees w) es es') :
    Stays w (mapElements key elem es) (mapElements key elem es') := by
  induction h with
  | nil => exact .pure World.covers_nil
  | @cons e e' rest rest' he _ ih =>
      obtain ⟨_, k, value⟩ := e
      obtain ⟨_, k', value'⟩ := e'
      obtain ⟨-, hkey, hvalue⟩ := he
      rw [mapElements, mapElements]
      cases hkey with
      | none => exact .fail _
      | some hk =>
          exact .bind (converted_stays hk key) fun k hk =>
            .bind (converted_stays hvalue elem) fun v hv => .bind ih fun vs hvs =>
              .pure (World.covers_cons.2 ⟨World.covers_pair.2 ⟨hk, hv⟩, hvs⟩)

/-- Position of the field that an element gives. -/
theorem fieldPosition_eq {t : TypeTable} {ty : Ty} {pos : Nat} {e e' : Element}
    (he : ElementAgrees w e e') : fieldPosition t ty pos e = fieldPosition t ty pos e' := by
  obtain ⟨name, key, value⟩ := e
  obtain ⟨name', key', value'⟩ := e'
  obtain ⟨hname, hkey, -⟩ := he
  dsimp only at hname hkey
  subst hname
  cases hkey with
  | none => rfl
  | some _ => cases name <;> rfl

/-- Fields of a struct literal. -/
theorem structElements_stays (ty : Ty) (count : Nat) {es es' : List Element}
    (h : List.Forall₂ (ElementAgrees w) es es') (pos : Nat) {inits : List Code.Expr}
    (hinits : w.Covers inits) :
    Stays w (structElements ty count pos inits es) (structElements ty count pos inits es') := by
  induction h generalizing pos inits with
  | nil => exact .pure hinits
  | @cons e e' rest rest' he _ ih =>
      rw [structElements, structElements]
      simp only [fieldPosition_eq he]
      refine .bind (S := fun _ => True) (.rule fun t _ _ => trivial) fun i _ => .types fun t => ?_
      cases (t.fields ty)[i]? with
      | none => exact .fail _
      | some f =>
          refine .bind (converted_stays he.value f.type) fun v hv => ih (pos + 1) ?_
          intro a ha
          rcases List.mem_or_eq_of_mem_set ha with ha | rfl
          · exact hinits a ha
          · exact hv

/-- A literal of a slice, map or struct type. -/
theorem composite_stays (ty : Ty) {es es' : List Element}
    (h : List.Forall₂ (ElementAgrees w) es es') :
    Stays w (composite ty es) (composite ty es') := by
  refine .types fun t => ?_
  have hrest : ∀ build : Code.Expr, w.Covers build →
      Stays w (pure (Operand.term (.reference build ty))) (pure (.term (.reference build ty))) :=
    fun build hbuild => .pure hbuild
  dsimp only
  split
  · next elem _ _ =>
      exact .bind (sliceElements_stays elem h) fun es hes =>
        hrest _ (World.admits_partsOf.2 hes)
  · next key elem _ _ _ =>
      exact .bind (mapElements_stays key elem h) fun es hes =>
        hrest _ (World.admits_partsOfEntries.2 hes)
  · rw [← h.length_eq]
    refine .bind (structElements_stays ty _ h 0 ?_) fun es hes =>
      hrest _ (World.admits_partsOf.2 hes)
    intro e he
    obtain ⟨f, -, rfl⟩ := List.mem_map.1 he
    exact World.admits_cons.2 ⟨World.holds_zero _, World.admits_nil⟩
  · exact .fail_bind _

/-! ### Calls -/

/-- Steps from left to right. -/
theorem sequence_stays {α : Type} [HasCode α] {ps qs : List (Compile α)}
    (h : List.Forall₂ (Stays w) ps qs) : Stays w (sequence ps) (sequence qs) := by
  induction h with
  | nil => exact .pure World.covers_nil
  | cons hp _ ih =>
      exact .bind hp fun a ha => .bind ih fun as has => .pure (World.covers_cons.2 ⟨ha, has⟩)

/-- A call of a function. -/
theorem directCall_stays (name : String) {func : Code.Expr} (s : Signature)
    {recv : Option Code.Expr} {args args' : List (Compile Operand)} (hfunc : w.Covers func)
    (hrecv : w.Covers recv) (hargs : List.Forall₂ (Stays w) args args') :
    Stays w (directCall name func s recv args) (directCall name func s recv args') := by
  refine .bind (sequence_stays hargs) fun ops hops =>
    .bind (.rule fun t => argumentsOf_covers name s hops) fun args hargs => .types fun t => .pure ?_
  have hcall : w.Covers (.direct func recv args : Code.Call) :=
    World.admits_append.2 ⟨hfunc, World.admits_append.2 ⟨World.admits_partsOf?.2 hrecv, hargs⟩⟩
  exact Operand.ofCall_covers hcall _

/-- A call of a function value. -/
theorem callOperand_stays {callee : Operand} {args args' : List (Compile Operand)}
    (hcallee : w.Covers callee) (hargs : List.Forall₂ (Stays w) args args') :
    Stays w (callOperand callee args) (callOperand callee args') := by
  refine .bind (.rule fun t => Operand.valueOf_covers hcallee) fun r hr =>
    .bind (calledSignature_keeps _) fun s _ => directCall_stays _ s hr World.covers_none hargs

/-- A conversion. -/
theorem conversion_stays (ty : Ty) {args args' : List (Compile Operand)}
    (hargs : List.Forall₂ (Stays w) args args') :
    Stays w (conversion ty args) (conversion ty args') := by
  cases hargs with
  | nil => exact .fail _
  | cons harg hrest =>
      cases hrest with
      | nil =>
          exact .bind harg fun op hop => .bind (.check (Operand.single_covers hop)) fun x hx =>
            .bind (.rule fun t => convertedTerm_covers hx ty) fun y hy => .pure hy
      | cons _ hrest =>
          unfold conversion
          simp only [List.length_cons, hrest.length_eq]
          exact .fail _

/-- `len` and `cap`. -/
theorem lengthCall_stays (b : Builtin) {args args' : List (Compile Operand)}
    (hargs : List.Forall₂ (Stays w) args args') :
    Stays w (lengthCall b args) (lengthCall b args') := by
  cases hargs with
  | nil => exact .fail _
  | cons harg hrest =>
      cases hrest with
      | nil =>
          exact .bind harg fun op hop => .bind (.rule fun t => lengthOf_covers b hop) fun x hx =>
            .pure hx
      | cons _ hrest =>
          unfold lengthCall
          simp only [List.length_cons, hrest.length_eq]
          exact .fail _

/-- An index. -/
theorem indexed_stays {p q : Compile Operand} (h : Stays w p q) : Stays w (indexed p) (indexed q) :=
  .bind h fun _ hop => .rule fun _ => indexOperand_covers hop

/-- Steps that are changed alike. -/
theorem forall₂_map {α β : Type} [HasCode α] [HasCode β] {f : Compile α → Compile β}
    (hf : ∀ p q, Stays w p q → Stays w (f p) (f q)) {ps qs : List (Compile α)}
    (h : List.Forall₂ (Stays w) ps qs) : List.Forall₂ (Stays w) (ps.map f) (qs.map f) := by
  induction h with
  | nil => exact .nil
  | cons hp _ ih => exact .cons (hf _ _ hp) ih

/-- `make`. -/
theorem makeCall_stays {type? type?' : Compile (Option Ty)} (htype : Stays w type? type?')
    {args args' : List (Compile Operand)} (hargs : List.Forall₂ (Stays w) args args') :
    Stays w (makeCall type? args) (makeCall type?' args') := by
  cases hargs with
  | nil => exact .fail _
  | cons _ hsizes =>
      refine .bind htype fun ty _ => ?_
      cases ty with
      | none => exact .fail _
      | some ty =>
          exact .bind (sequence_stays (forall₂_map (fun _ _ => indexed_stays) hsizes))
            fun sizes hsizes => .bind (.rule fun t => made_covers ty hsizes) fun e he => .pure he

/-- `append`. -/
theorem appendCall_stays {args args' : List (Compile Operand)}
    (hargs : List.Forall₂ (Stays w) args args') :
    Stays w (appendCall args) (appendCall args') := by
  cases hargs with
  | nil => exact .fail _
  | cons hbase helems =>
      refine .bind hbase fun b hb => .bind (.rule fun t => Operand.valueOf_covers hb) fun r hr =>
        .types fun t => ?_
      split
      · next elem _ _ =>
          exact .bind
            (sequence_stays (forall₂_map (fun _ _ h => converted_stays h elem) helems))
            fun vs hvs => .pure (World.admits_append.2 ⟨hr, World.admits_partsOf.2 hvs⟩)
      · exact .fail _

/-- `delete`. -/
theorem deleteCall_stays {args args' : List (Compile Operand)}
    (hargs : List.Forall₂ (Stays w) args args') :
    Stays w (deleteCall args) (deleteCall args') := by
  have hfail : ∀ {n n' : Nat}, n = n' → Stays w (fail (.argCount "delete" 2 n))
      (fail (.argCount "delete" 2 n') : Compile Operand) := by
    rintro n _ rfl
    exact .fail _
  cases hargs with
  | nil => exact .fail _
  | cons hmap hrest =>
      cases hrest with
      | nil => exact .fail _
      | cons hkey hrest =>
          cases hrest with
          | nil =>
              refine .bind hmap fun m hm => .bind (.rule fun t => Operand.valueOf_covers hm)
                fun r hr => .types fun t => ?_
              split
              · next keyType _ _ =>
                  exact .bind (converted_stays hkey keyType) fun k hk =>
                    .pure (World.admits_append.2 ⟨hr, hk⟩)
              · exact .fail _
          | cons _ hrest => exact hfail (by simp [hrest.length_eq])

/-- A call of a builtin function. -/
theorem builtinCall_stays (b : Builtin) {type? type?' : Compile (Option Ty)}
    (htype : Stays w type? type?') {args args' : List (Compile Operand)}
    (hargs : List.Forall₂ (Stays w) args args') :
    Stays w (builtinCall b type? args) (builtinCall b type?' args') := by
  cases b with
  | len => exact lengthCall_stays _ hargs
  | cap => exact lengthCall_stays _ hargs
  | make => exact makeCall_stays htype hargs
  | append => exact appendCall_stays hargs
  | delete => exact deleteCall_stays hargs

/-- A call of a selector. -/
theorem selectorCall_stays (baseName : Option Name) {base base' : Compile Operand}
    (hbase : Stays w base base') (field : Name) {whole whole' : Compile Operand}
    (hwhole : Stays w whole whole') {args args' : List (Compile Operand)}
    (hargs : List.Forall₂ (Stays w) args args') :
    Stays w (selectorCall baseName base field whole args)
      (selectorCall baseName base' field whole' args') := by
  refine .bind (packageMember?_stays baseName field) fun m _ => ?_
  cases m with
  | some f => exact .bind hwhole fun callee hcallee => callOperand_stays hcallee hargs
  | none =>
      refine .bind hbase fun b hb => .bind (.rule fun t => Operand.valueOf_covers hb) fun r hr =>
        .get fun c hc => ?_
      dsimp only
      split
      · next m hm =>
          exact .bind (calledSignature_keeps _) fun s _ => .get fun c' hc' =>
            directCall_stays field s (hc'.global (hc.method hm)) (World.covers_some.2 hr) hargs
      · exact .bind (select_stays hr _ _) fun callee hcallee => callOperand_stays hcallee hargs

/-- What is called agrees. -/
inductive CalleeAgrees (w : World) : Callee → Callee → Prop
  | name (name : Name) : CalleeAgrees w (.name name) (.name name)
  | selector (baseName : Option Name) {base base' : Compile Operand} (h : Stays w base base')
      (field : Name) :
      CalleeAgrees w (.selector baseName base field) (.selector baseName base' field)
  | other : CalleeAgrees w .other .other

/-- A call. -/
theorem call_stays {type? type?' : Compile (Option Ty)} (htype : Stays w type? type?')
    {callee callee' : Callee} (hcallee : CalleeAgrees w callee callee')
    {whole whole' : Compile Operand} (hwhole : Stays w whole whole')
    {first first' : Compile (Option Ty)} (hfirst : Stays w first first')
    {args args' : List (Compile Operand)} (hargs : List.Forall₂ (Stays w) args args') :
    Stays w (call type? callee whole first args) (call type?' callee' whole' first' args') := by
  have hvalue : Stays w (do callOperand (← whole) args) (do callOperand (← whole') args') :=
    .bind hwhole fun callee hcallee => callOperand_stays hcallee hargs
  refine .bind htype fun ty _ => ?_
  cases ty with
  | some ty => exact conversion_stays ty hargs
  | none =>
      cases hcallee with
      | name name =>
          refine .get fun c hc => ?_
          split
          · exact builtinCall_stays _ hfirst hargs
          · next depth slot ty hm =>
              exact .bind (calledSignature_keeps ty) fun s _ =>
                directCall_stays name s (hc.resolve hm).1 World.covers_none hargs
          · exact hvalue
      | selector baseName hbase field => exact selectorCall_stays baseName hbase field hwhole hargs
      | other => exact hvalue

end ScriptCore.Compile
