import ScriptCore.Proofs.Assignment.Update
import ScriptCore.Proofs.Dependencies.Syntax
import ScriptCore.Proofs.Operands.Made

/-!
# How operands are stored

Code for a value says how the value is stored, and its type says so as well.  The two agree for
every operand: code that is checked when it is read is checked for the category of its type, and
code that is not has a type of references, structs or interfaces.

Functions of the host come from outside; they are taken to have function types.

Main statement: `Compile.operand_classified`.
-/

namespace ScriptCore

/-! ### Categories of types -/

namespace TypeTable

variable {t : TypeTable} {S T : Ty}

/-- Types that can be assigned to each other have one category, if no interface is between them. -/
theorem category_of_assignable (h : t.assignable S T = true) (hT : t.isInterface T = false) :
    t.category S = t.category T := by
  by_cases heq : S = T
  · rw [heq]
  · rw [assignable, beq_false_of_ne heq, hT] at h
    simp only [Bool.false_or, Bool.false_eq_true, if_false, Bool.and_eq_true, beq_iff_eq] at h
    rw [category, category, kind, kind, h.2]

end TypeTable

namespace Code.Typed

/-- A fixed value that is stored as a scalar is stored as one of its category. -/
theorem constant_category {c : Category} {v : Value}
    (h : Compile.isScalar (constant c v).category = true) :
    (constant c v).category = storage c := by
  unfold constant at h ⊢
  split at h <;> first | rfl | cases h

/-- A fixed value of any other category. -/
theorem constant_unknown {c : Category} (h : Compile.isScalar c = false) (v : Value) :
    (constant c v).category = storage c := by
  cases c with
  | func | unknown => rfl
  | _ => cases h

end Code.Typed

/-! ### Terms -/

/-- Code for a value is stored in the way of its type. -/
def Term.Classified (t : TypeTable) : Term → Prop
  | .const _ _ => True
  | .code e ty => e.category = Code.Typed.storage (t.category ty)

/-- The same for operands; the results of a call are no value. -/
def Operand.Classified (t : TypeTable) : Operand → Prop
  | .term x => x.Classified t
  | .results _ _ => True

namespace Term

variable {t : TypeTable} {x y z : Term}

/-- What is read from code. -/
theorem ofExpr_classified (t : TypeTable) (e : Code.Expr) (ty : Ty) :
    (ofExpr t e ty).Classified t := by
  rw [ofExpr, Classified, Code.Typed.ofCategory]
  cases Code.Typed.storage (t.category ty) <;> rfl

/-- References, structs and values of interfaces. -/
theorem reference_classified {ty : Ty} (h : Code.Typed.storage (t.category ty) = .unknown)
    (e : Code.Expr) :
    (reference e ty).Classified t :=
  h.symm

/-- A fixed value. -/
theorem fixed_category {c : Constant} {ty : Ty} {e : Code.Typed} (h : fixed t c ty = .ok e)
    (he : Compile.isScalar e.category = true) :
    e.category = Code.Typed.storage (t.category ty) := by
  obtain ⟨v, -, h⟩ := Compile.rules_ok h
  cases h
  exact Code.Typed.constant_category he

/-- A term as a scalar of its own type. -/
theorem valueOf_category (hx : x.Classified t) {e : Code.Typed} {ty : Ty}
    (h : x.valueOf t = .ok (e, ty)) (he : Compile.isScalar e.category = true) :
    e.category = Code.Typed.storage (t.category ty) := by
  cases x with
  | const c type =>
      obtain ⟨ty', -, h⟩ := Compile.rules_ok h
      obtain ⟨e', hfixed, h⟩ := Compile.rules_ok h
      cases h
      exact fixed_category hfixed he
  | code e' ty' =>
      cases h
      exact hx

/-- A term as a scalar of another type. -/
theorem valueFor_category (hx : x.Classified t) {e : Code.Typed} {target : Ty}
    (h : x.valueFor t target = .ok e) (he : Compile.isScalar e.category = true) :
    e.category = Code.Typed.storage (t.category target) := by
  cases x with
  | const c type =>
      cases type with
      | none => exact fixed_category h he
      | some ty =>
          obtain ⟨-, -, h⟩ := Compile.rules_ok h
          exact fixed_category h he
  | code e' ty =>
      obtain ⟨_, hassign, h⟩ := Compile.rules_ok h
      cases hiface : t.isInterface target with
      | true =>
          rw [hiface] at h
          cases h
          cases he
      | false =>
          rw [hiface] at h
          cases h
          have hassign : t.assignable ty target = true := by
            unfold requireAssignable at hassign
            split at hassign
            · assumption
            · cases hassign
          rw [← TypeTable.category_of_assignable hassign hiface]
          exact hx

/-- Nil is no scalar. -/
theorem nil_represent {ty : Ty} {c : Constant} (h : Constant.nil.represent t ty = .ok c) :
    Compile.isScalar (t.category ty) = false := by
  unfold Constant.represent at h
  rw [TypeTable.category]
  dsimp only at h
  cases hc : (t.kind ty).category with
  | func | unknown => rfl
  | _ =>
      rw [hc] at h
      cases h

/-- Unary operators. -/
theorem unary_classified {op : UnaryOp} (hx : x.Classified t) (h : x.unary t op = .ok z) :
    z.Classified t := by
  cases x with
  | const c type =>
      obtain ⟨c', type', rfl⟩ := unary_const h
      trivial
  | code e ty =>
      simp only [unary] at h
      split at h
      all_goals first | (cases h; exact hx) | cases h

/-- Shifts. -/
theorem shift_classified {op : BinaryOp} (hx : x.Classified t) (h : x.shift t op y = .ok z) :
    z.Classified t := by
  obtain ⟨count, -, h⟩ := Compile.rules_ok h
  obtain ⟨⟨e, ty⟩, hvalue, h⟩ := Compile.rules_ok h
  dsimp only at h
  split at h
  · rename_i hint
    have hscalar : Compile.isScalar e.category = true := by
      rcases hint with hint | hint <;> (rw [hint]; rfl)
    have hcategory := valueOf_category hx hvalue hscalar
    cases h
    exact hcategory
  · cases h

/-- Other binary operators. -/
theorem converted_classified {op : BinaryOp} (hx : x.Classified t)
    (h : x.converted t op y = .ok z) : z.Classified t := by
  obtain ⟨ty, -, h⟩ := Compile.rules_ok h
  obtain ⟨a, ha, h⟩ := Compile.rules_ok h
  obtain ⟨b, -, h⟩ := Compile.rules_ok h
  split at h
  · split at h
    · unfold comparison at h
      split at h
      · cases h
        rfl
      · cases h
    · cases h
  split at h
  · unfold logical at h
    split at h
    · rename_i hbool
      have hcategory := valueFor_category hx ha (by rw [hbool.1]; rfl)
      rw [hbool.1] at hcategory
      cases h
      exact hcategory
    · cases h
  · unfold arithmetic at h
    split at h
    · rename_i hop
      have hcategory := valueFor_category hx ha (Place.isScalar_of_hasOperator hop.2)
      cases h
      exact hcategory
    · cases h

/-- Binary operators. -/
theorem binary_classified {op : BinaryOp} (hx : x.Classified t) (h : x.binary t op y = .ok z) :
    z.Classified t := by
  unfold binary at h
  split at h
  · obtain ⟨c, type, rfl⟩ := fold_const h
    trivial
  · split at h
    · exact shift_classified hx h
    · exact converted_classified hx h

end Term

/-! ### Rules -/

namespace Compile

variable {α β : Type} {t : TypeTable} {c d : Compiler} {P : α → Prop}

/-- The host provides functions, and their types are function types. -/
structure HostsAreFunctions (c : Compiler) : Prop where
  host : ∀ name f, c.resolve name = some (.host f) → c.types.category f.type = .func
  member : ∀ name p, c.resolve name = some (.package p) → ∀ f ∈ p.members,
    c.types.category f.type = .func

/-- A stable step leaves what the host provides alone. -/
theorem HostsAreFunctions.step (h : HostsAreFunctions c) {p : Compile α} (hp : Stable false p)
    (hs : c.types.Settled) {a : α} (hok : p c = .ok (a, d)) : HostsAreFunctions d := by
  have hkept := (hp c c a d (.refl hs) hok).1
  have hlike : c.Like false d := hkept.like hs (hp.types_only hs hok).2
  have hcategory : d.types.category = c.types.category :=
    hkept.types.symm.same fun _ _ _ _ _ => rfl
  constructor
  · intro name f hf
    rw [← hlike.resolve] at hf
    rw [hcategory]
    exact h.host name f hf
  · intro name p hp f hf
    rw [← hlike.resolve] at hp
    rw [hcategory]
    exact h.member name p hp f hf

/-- Every result of a step has a property, in states whose types are like `t`. -/
def Delivers (t : TypeTable) (P : α → Prop) (p : Compile α) : Prop :=
  ∀ c a d, c.types.Settled → t.Alike c.types → HostsAreFunctions c → p c = .ok (a, d) → P a

namespace Delivers

/-- A result. -/
protected theorem pure {a : α} (h : P a) : Delivers t P (Pure.pure a) := by
  rintro c _ _ _ _ _ ⟨⟩
  exact h

/-- A failure. -/
protected theorem fail (f : Fault) : Delivers t P (Compile.fail f : Compile α) := by
  intro c a d _ _ _ hok
  cases hok

/-- One step after another, where something is known of the result of the first. -/
protected theorem bind {Q : β → Prop} {p : Compile β} {f : β → Compile α} (hp : Stable false p)
    (hQ : Delivers t Q p) (hf : ∀ b, Q b → Delivers t P (f b)) : Delivers t P (p >>= f) := by
  intro c a d hs ht hhosts hok
  obtain ⟨b, c₁, hfirst, hnext⟩ := bind_ok.1 hok
  have hkept := (hp c c b c₁ (.refl hs) hfirst).1
  exact hf b (hQ c b c₁ hs ht hhosts hfirst) c₁ a d (hp.types_only hs hfirst).2
    (ht.trans hkept.types) (hhosts.step hp hs hfirst) hnext

/-- One step after another. -/
protected theorem andThen {p : Compile β} {f : β → Compile α} (hp : Stable false p)
    (hf : ∀ b, Delivers t P (f b)) : Delivers t P (p >>= f) :=
  .bind hp (fun _ _ _ _ _ _ _ => trivial) fun b (_ : True) => hf b

/-- A look at the state. -/
protected theorem get {f : Compiler → Compile α}
    (h : ∀ c, HostsAreFunctions c → t.Alike c.types → Delivers t P (f c)) :
    Delivers t P (MonadState.get >>= f) :=
  fun c a d hs ht hhosts hok => h c hhosts ht c a d hs ht hhosts hok

/-- A look at the types. -/
protected theorem types {f : TypeTable → Compile α}
    (h : ∀ t', t.Alike t' → Delivers t P (f t')) : Delivers t P (Compile.types >>= f) :=
  fun c a d hs ht hhosts hok => h c.types ht c a d hs ht hhosts hok

/-- A rule. -/
protected theorem rule {f : TypeTable → Except Fault α}
    (h : ∀ t' a, t.Alike t' → f t' = .ok a → P a) : Delivers t P (Compile.rule f) := by
  intro c a d _ ht _ hok
  exact h c.types a ht (rule_ok.1 hok).1

/-- Errors that get a place. -/
protected theorem at' {p : Compile α} (span : Span) (h : Delivers t P p) :
    Delivers t P (Compile.at' span p) :=
  fun c a d hs ht hhosts hok => h c a d hs ht hhosts (at'_ok.1 hok)

/-- A step that always gives results with the property. -/
protected theorem gives {p : Compile α} (h : Gives P p) : Delivers t P p :=
  fun c a d _ _ _ hok => h c (a, d) hok

/-- Categories are the same in tables that are alike. -/
theorem category_alike {t' : TypeTable} (ht : t.Alike t') (ty : Ty) :
    t'.category ty = t.category ty :=
  ht.symm.same fun _ _ _ _ _ => rfl

/-- A term that a rule gives. -/
theorem term {f : TypeTable → Except Fault Term}
    (h : ∀ t' x, f t' = .ok x → x.Classified t') :
    Delivers t (Operand.Classified t) (do return Operand.term (← Compile.rule f)) := by
  intro c a d _ ht _ hok
  simp only [bind_ok, rule_ok, pure_ok] at hok
  obtain ⟨x, _, ⟨hx, rfl⟩, rfl, rfl⟩ := hok
  have hclassified := h c.types x hx
  cases x with
  | const => trivial
  | code e ty =>
      rw [Term.Classified, category_alike ht] at hclassified
      exact hclassified

/-- A term that is read from code. -/
theorem ofExpr (e : Code.Expr) (ty : Ty) :
    Delivers t (Operand.Classified t)
      (do return Operand.term (.ofExpr (← Compile.types) e ty)) := by
  refine .types fun t' ht => .pure ?_
  have hsame : Term.ofExpr t' e ty = Term.ofExpr t e ty := by
    rw [Term.ofExpr, Term.ofExpr, category_alike ht]
  rw [hsame]
  exact Term.ofExpr_classified t e ty

/-- References, structs and values of interfaces. -/
theorem reference {t' : TypeTable} (ht : t.Alike t') {ty : Ty}
    (h : Code.Typed.storage (t'.category ty) = .unknown) (e : Code.Expr) :
    Delivers t (Operand.Classified t) (Pure.pure (Operand.term (.reference e ty))) := by
  rw [category_alike ht] at h
  exact .pure (Term.reference_classified h e)

end Delivers

/-- Functions are no scalars. -/
theorem storage_func {ty : Ty} (h : t.category ty = .func) :
    Code.Typed.storage (t.category ty) = .unknown := by
  rw [h]
  rfl

/-- Kinds of references and structs. -/
theorem storage_of_kind {ty : Ty} {k : Kind} (h : t.kind ty = k)
    (hk : k.category = .unknown) : Code.Typed.storage (t.category ty) = .unknown := by
  rw [TypeTable.category, h, hk]
  rfl

/-- Function types. -/
theorem signatureType_delivers (recv : Option Ty) (params results : List Ty) (variadic : Bool) :
    Delivers t (fun ty => t.category ty = .func)
      (signatureType recv params results variadic) :=
  .gives (.build (Universe.func_makes _ _ _ _ _ fun _ _ _ => rfl))

/-- Operands whose code goes with their types. -/
abbrev DeliversClassified (t : TypeTable) (p : Compile Operand) : Prop :=
  Delivers t (Operand.Classified t) p

/-! ### Names and parts of values -/

/-- Code for what a name means. -/
theorem identifier_classified (name : Name) : DeliversClassified t (identifier name) := by
  intro c a d hs ht hhosts hok
  obtain ⟨m, c₁, hm, hok⟩ := bind_ok.1 hok
  obtain ⟨hresolve, rfl⟩ := resolve_ok.1 hm
  cases m with
  | var depth slot ty => exact Delivers.ofExpr _ ty c a d hs ht hhosts hok
  | func depth slot ty => exact Delivers.ofExpr _ ty c a d hs ht hhosts hok
  | const k ty =>
      cases hok
      trivial
  | host f =>
      have hfunc := storage_func (hhosts.host name f hresolve)
      exact Delivers.reference ht hfunc _ c a d hs ht hhosts hok
  | _ => cases hok

/-- An element. -/
theorem elementOf_classified {e : Code.Typed} {ty : Ty} {key : Operand} {x : Term}
    (h : elementOf t e ty key = .ok x) : x.Classified t := by
  unfold elementOf at h
  split at h
  · obtain ⟨k, -, h⟩ := rules_ok h
    cases h
    exact Term.ofExpr_classified t _ _
  · obtain ⟨i, -, h⟩ := rules_ok h
    cases h
    exact Term.ofExpr_classified t _ _
  · obtain ⟨i, -, h⟩ := rules_ok h
    cases h
    rfl
  · cases h

/-- An index expression. -/
theorem index_classified {container key : Compile Operand} (hcontainer : Stable false container)
    (hkey : Stable false key) : DeliversClassified t (index container key) :=
  .andThen hcontainer fun op => .andThen (valueOf_stable op) fun _ => .andThen hkey fun _ =>
    .term fun _ _ h => elementOf_classified h

/-- A member of a package is a function. -/
theorem packageMember?_delivers (base : Option Name) (field : Name) :
    Delivers t (fun f? => ∀ f ∈ f?, t.category f.type = .func) (packageMember? base field) := by
  refine .get fun c hhosts ht => ?_
  have hnone : Delivers t (fun f? : Option HostFunc => ∀ f ∈ f?, t.category f.type = .func)
      (Pure.pure none) := .pure fun f hf => nomatch hf
  cases base with
  | none => exact hnone
  | some name =>
      rw [Option.bind_some]
      cases hresolve : c.resolve name with
      | none => exact hnone
      | some m =>
          cases m with
          | package p =>
              dsimp only
              cases hfound : findHost p.members field with
              | none => exact .fail _
              | some f =>
                  refine .pure fun f' hf' => ?_
                  cases hf'
                  rw [← Delivers.category_alike ht]
                  exact hhosts.member name p hresolve f (Compiler.findHost_mem hfound)
          | _ => exact hnone

/-- A method with its receiver. -/
theorem methodValue_classified (recv : Code.Expr) (method : Binding) (name : Name) :
    DeliversClassified t (methodValue recv method name) := by
  refine .types fun t' _ => ?_
  cases t'.signature? method.type with
  | none => exact .fail _
  | some s =>
      exact .bind (signatureType_stable _ _ _ _) (signatureType_delivers _ _ _ _) fun _ hty =>
        .get fun c _ _ => .reference (.refl t) (storage_func hty) _

/-- A field. -/
theorem fieldOf_classified {e : Code.Expr} {ty : Ty} {name : Name} {x : Term}
    (h : fieldOf t e ty name = .ok x) : x.Classified t := by
  unfold fieldOf at h
  split at h
  · cases h
  · split at h
    · cases h
      exact Term.ofExpr_classified t _ _
    · cases h

/-- A method or field of a value. -/
theorem select_classified (e : Code.Expr) (ty : Ty) (name : Name) :
    DeliversClassified t (select e ty name) := by
  refine .get fun c _ _ => ?_
  cases c.method? ty name with
  | none => exact .term fun _ _ h => fieldOf_classified h
  | some m => exact methodValue_classified e m name

/-- A selector. -/
theorem selector_classified (baseName : Option Name) {base : Compile Operand} (field : Name)
    (hbase : Stable false base) : DeliversClassified t (selector baseName base field) := by
  refine .bind (packageMember?_stable baseName field) (packageMember?_delivers baseName field)
    fun member hmember => ?_
  cases member with
  | some f => exact .reference (.refl t) (storage_func (hmember f rfl)) _
  | none =>
      exact .andThen hbase fun op => .andThen (valueOf_stable op) fun _ => select_classified _ _ _

/-- A literal. -/
theorem composite_classified (ty : Ty) {elems : List Element} (h : StableElements false elems) :
    DeliversClassified t (composite ty elems) := by
  refine .types fun t' ht => ?_
  dsimp only
  split
  · rename_i hkind _
    exact .andThen (sliceElements_stable _ h) fun _ =>
      .reference ht (storage_of_kind hkind rfl) _
  · rename_i hkind _ _
    exact .andThen (mapElements_stable _ _ h) fun _ =>
      .reference ht (storage_of_kind hkind rfl) _
  · rename_i hkind
    exact .andThen (structElements_stable _ _ h _ _) fun _ =>
      .reference ht (storage_of_kind hkind rfl) _
  · intro c a d _ _ _ hok
    cases hok

/-! ### Calls -/

/-- A call of a function. -/
theorem directCall_classified (name : String) (func : Code.Expr) (s : Signature)
    (recv : Option Code.Expr) {args : List (Compile Operand)}
    (h : ∀ a ∈ args, Stable false a) : DeliversClassified t (directCall name func s recv args) := by
  refine .andThen (sequence_stable h) fun ops =>
    .andThen (Stable.rule fun _ _ ht => by rw [ht.argumentsOf]) fun call => .types fun t' ht => ?_
  unfold Operand.ofCall
  split
  · intro c a d hs halike hhosts hok
    cases hok
    have hsame : Term.ofExpr t' = Term.ofExpr t := by
      funext e ty
      rw [Term.ofExpr, Term.ofExpr, Delivers.category_alike ht]
    rw [hsame]
    exact Term.ofExpr_classified t _ _
  · exact .pure trivial

/-- A call of a function value. -/
theorem callOperand_classified (callee : Operand) {args : List (Compile Operand)}
    (h : ∀ a ∈ args, Stable false a) : DeliversClassified t (callOperand callee args) :=
  .andThen (valueOf_stable callee) fun _ => .andThen (calledSignature_stable _) fun _ =>
    directCall_classified _ _ _ _ h

/-- A converted term. -/
theorem convertedTerm_classified {x y : Term} {ty : Ty} (h : convertedTerm t x ty = .ok y) :
    y.Classified t := by
  cases x with
  | const k type =>
      unfold convertedTerm at h
      dsimp only at h
      split at h
      · unfold convertedConst at h
        split at h
        · cases h
          trivial
        · obtain ⟨k', -, h⟩ := rules_ok h
          cases h
          trivial
      · rename_i hconstant
        obtain ⟨e, he, h⟩ := rules_ok h
        cases h
        obtain ⟨v, hv, he⟩ : ∃ v, k.toValue t ty = .ok v ∧
            e = .constant (t.category ty) v := by
          have hfixed : Term.fixed t k ty = .ok e := by
            cases type with
            | none => exact he
            | some _ => exact (rules_ok he).choose_spec.2
          obtain ⟨v, hv, hfixed⟩ := rules_ok hfixed
          cases hfixed
          exact ⟨v, hv, rfl⟩
        have hscalar : isScalar (t.category ty) = false := by
          cases hnil : k.isNil with
          | true =>
              cases k with
              | nil => exact Term.nil_represent (rules_ok hv).choose_spec.1
              | _ => cases hnil
          | false => simpa [hnil] using hconstant
        rw [Term.Classified, he]
        exact Code.Typed.constant_unknown hscalar v
  | code e _ =>
      cases h
      exact Term.ofExpr_classified t _ _

/-- A conversion. -/
theorem conversion_classified (ty : Ty) {args : List (Compile Operand)}
    (h : ∀ a ∈ args, Stable false a) : DeliversClassified t (conversion ty args) := by
  match args with
  | [] => exact .fail _
  | [arg] =>
      exact .andThen (h arg (List.mem_singleton_self _)) fun _ => .andThen (Stable.check _) fun _ =>
        .term fun _ _ h => convertedTerm_classified h
  | _ :: _ :: _ => exact .fail _

/-- Lengths and capacities. -/
theorem lengthOf_classified {k : Builtin} {op : Operand} {x : Term}
    (h : lengthOf t k op = .ok x) : x.Classified t := by
  unfold lengthOf at h
  split at h
  · cases h
    trivial
  · obtain ⟨r, -, h⟩ := rules_ok h
    dsimp only at h
    split at h
    all_goals first | (cases h; rfl) | cases h

/-- `len` and `cap`. -/
theorem lengthCall_classified (k : Builtin) {args : List (Compile Operand)}
    (h : ∀ a ∈ args, Stable false a) : DeliversClassified t (lengthCall k args) := by
  match args with
  | [] => exact .fail _
  | [arg] =>
      exact .andThen (h arg (List.mem_singleton_self _)) fun _ =>
        .term fun _ _ h => lengthOf_classified h
  | _ :: _ :: _ => exact .fail _

/-- What is made is a slice or a map. -/
theorem storage_made {ty : Ty} {sizes : List Code.Expr} {e : Code.Expr}
    (h : made t ty sizes = .ok e) : Code.Typed.storage (t.category ty) = .unknown := by
  unfold made at h
  split at h
  · rename_i hkind
    exact storage_of_kind hkind rfl
  · rename_i hkind
    exact storage_of_kind hkind rfl
  · cases h

/-- `make`. -/
theorem makeCall_classified {type? : Compile (Option Ty)} {args : List (Compile Operand)}
    (htype : Stable false type?) (h : ∀ a ∈ args, Stable false a) :
    DeliversClassified t (makeCall type? args) := by
  cases args with
  | nil => exact .fail _
  | cons _ sizes =>
      rw [List.forall_mem_cons] at h
      refine .andThen htype fun ty => ?_
      cases ty with
      | none => exact .fail _
      | some ty =>
          refine .andThen (sequence_map_stable (fun _ => indexed_stable) h.2) fun sizes => ?_
          intro c a d hs ht hhosts hok
          simp only [bind_ok, rule_ok, pure_ok] at hok
          obtain ⟨e, _, ⟨he, rfl⟩, rfl, rfl⟩ := hok
          have hstorage := storage_made he
          rw [Delivers.category_alike ht] at hstorage
          exact Term.reference_classified hstorage e

/-- `append`. -/
theorem appendCall_classified {args : List (Compile Operand)} (h : ∀ a ∈ args, Stable false a) :
    DeliversClassified t (appendCall args) := by
  cases args with
  | nil => exact .fail _
  | cons base elems =>
      rw [List.forall_mem_cons] at h
      refine .andThen h.1 fun op => .andThen (valueOf_stable op) fun r => .types fun t' ht => ?_
      split
      · rename_i hkind _
        exact .andThen (sequence_map_stable (fun _ hs => converted_stable hs _) h.2) fun _ =>
          .reference ht (storage_of_kind hkind rfl) _
      · exact .fail _

/-- `delete`. -/
theorem deleteCall_classified {args : List (Compile Operand)} (h : ∀ a ∈ args, Stable false a) :
    DeliversClassified t (deleteCall args) := by
  match args with
  | [] | [_] | _ :: _ :: _ :: _ => exact .fail _
  | [map, key] =>
      have hmap := h map List.mem_cons_self
      have hkey := h key (List.mem_cons_of_mem _ (List.mem_singleton_self _))
      refine .andThen hmap fun op => .andThen (valueOf_stable op) fun r => .types fun t' ht => ?_
      split
      · exact .andThen (converted_stable hkey _) fun _ => .pure trivial
      · exact .fail _

/-- A call of a builtin function. -/
theorem builtinCall_classified (k : Builtin) {type? : Compile (Option Ty)}
    {args : List (Compile Operand)} (htype : Stable false type?)
    (h : ∀ a ∈ args, Stable false a) : DeliversClassified t (builtinCall k type? args) := by
  cases k with
  | len => exact lengthCall_classified _ h
  | cap => exact lengthCall_classified _ h
  | make => exact makeCall_classified htype h
  | append => exact appendCall_classified h
  | delete => exact deleteCall_classified h

/-- A call of a selector. -/
theorem selectorCall_classified (baseName : Option Name) {base whole : Compile Operand}
    (field : Name) {args : List (Compile Operand)} (hbase : Stable false base)
    (hwhole : Stable false whole) (h : ∀ a ∈ args, Stable false a) :
    DeliversClassified t (selectorCall baseName base field whole args) := by
  refine .andThen (packageMember?_stable baseName field) fun member => ?_
  cases member with
  | some _ => exact .andThen hwhole fun _ => callOperand_classified _ h
  | none =>
      refine .andThen hbase fun op => .andThen (valueOf_stable op) fun r => .get fun c _ _ => ?_
      dsimp only
      cases c.method? r.2 field with
      | none => exact .andThen (select_stable _ _ _) fun _ => callOperand_classified _ h
      | some m =>
          exact .andThen (calledSignature_stable _) fun _ => .get fun c _ _ =>
            directCall_classified _ _ _ _ h

/-- A call. -/
theorem call_classified {type? firstType? : Compile (Option Ty)} {callee : Callee}
    {whole : Compile Operand} {args : List (Compile Operand)} (htype : Stable false type?)
    (hcallee : StableCallee false callee) (hwhole : Stable false whole)
    (hfirst : Stable false firstType?) (h : ∀ a ∈ args, Stable false a) :
    DeliversClassified t (call type? callee whole firstType? args) := by
  refine .andThen htype fun ty => ?_
  cases ty with
  | some ty => exact conversion_classified ty h
  | none =>
      have hvalue : DeliversClassified t (do callOperand (← whole) args) :=
        .andThen hwhole fun _ => callOperand_classified _ h
      cases callee with
      | name name =>
          refine .get fun c _ _ => ?_
          cases c.resolve name with
          | none => exact hvalue
          | some m =>
              cases m with
              | builtin k => exact builtinCall_classified k hfirst h
              | func depth slot ty =>
                  exact .andThen (calledSignature_stable _) fun _ =>
                    directCall_classified _ _ _ _ h
              | _ => exact hvalue
      | selector baseName base field => exact selectorCall_classified _ _ hcallee hwhole h
      | other => exact hvalue

/-! ### Syntax -/

/-- A function literal. -/
theorem funcLit_classified {heading : Compile Heading} {content : Emit Unit}
    (hheading : Stable false heading) (hcontent : Emit.Stable content) :
    DeliversClassified t (funcLit heading content) :=
  .andThen hheading fun h =>
    .bind (headingType_stable none h) (signatureType_delivers _ _ _ _) fun _ hty =>
      .andThen (Stable.inFrame true (assembled_stable (bodyOf_stable none h hcontent))) fun _ =>
        .reference (.refl t) (storage_func hty) _

/-- The one value of an operand whose code goes with its type. -/
theorem single_delivers {o : Operand} (h : o.Classified t) :
    Delivers t (Term.Classified t) (check o.single) := by
  cases o with
  | term x => exact .pure h
  | results call types => exact .fail _

/-- **The code of an operand goes with its type.** -/
theorem operand_classified (t : TypeTable) : ∀ e : Expr, DeliversClassified t (operand e)
  | .node span (.ident name) => by
      rw [operand_node, operandOf]
      exact (identifier_classified name).at' span
  | .node span .nil | .node span (.bool _) | .node span (.int _) | .node span (.float _)
  | .node span (.imag _) | .node span (.str _) => by
      rw [operand_node, operandOf]
      exact .at' span (.pure trivial)
  | .node span (.unary op e) => by
      rw [operand_node, operandOf]
      refine .at' span (.bind (operand_stable e false) (operand_classified t e) fun o ho =>
        .bind (Stable.check _) (single_delivers ho) fun x hx => ?_)
      intro c a d hs ht hhosts hok
      simp only [bind_ok, rule_ok, pure_ok] at hok
      obtain ⟨y, _, ⟨hy, rfl⟩, rfl, rfl⟩ := hok
      have hsame : x.unary c.types op = x.unary t op := ht.symm.same fun _ _ _ _ _ => rfl
      rw [hsame] at hy
      exact Term.unary_classified hx hy
  | .node span (.binary op a b) => by
      rw [operand_node, operandOf]
      refine .at' span (.bind (operand_stable a false) (operand_classified t a) fun o ho =>
        .bind (Stable.check _) (single_delivers ho) fun x hx =>
          .andThen (operand_stable b false) fun o' => .andThen (Stable.check _) fun y => ?_)
      intro c a d hs ht hhosts hok
      simp only [bind_ok, rule_ok, pure_ok] at hok
      obtain ⟨z, _, ⟨hz, rfl⟩, rfl, rfl⟩ := hok
      rw [ht.symm.binary] at hz
      exact Term.binary_classified hx hz
  | .node span (.call f args) => by
      rw [operand_node, operandOf]
      exact .at' span (call_classified (typeOf?_stable f false) (callee_stable f false)
        (operand_stable f false) (firstType?_stable args false) (operands_stable args false))
  | .node span (.index container key) => by
      rw [operand_node, operandOf]
      exact .at' span (index_classified (operand_stable container false) (operand_stable key false))
  | .node span (.selector base field) => by
      rw [operand_node, operandOf]
      exact .at' span (selector_classified _ field (operand_stable base false))
  | .node span (.paren e) => by
      rw [operand_node, operandOf]
      exact .at' span (operand_classified t e)
  | .node span (.composite ty elems) => by
      rw [operand_node, operandOf]
      exact .at' span (.andThen (typeExpr_stable ty false) fun _ =>
        composite_classified _ (elements_stable elems false))
  | .node span (.funcLit sig body) => by
      rw [operand_node, operandOf]
      exact .at' span (funcLit_classified (heading_stable sig false) (block_stable body))
  | .node span (.type _) => by
      rw [operand_node, operandOf]
      exact .at' span (.fail _)

end Compile

end ScriptCore
