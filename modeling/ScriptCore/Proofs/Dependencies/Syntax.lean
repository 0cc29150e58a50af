import ScriptCore.Proofs.Dependencies.Bodies

/-!
# Syntax is blind to what it does not use

The compilation of syntax looks up the names and methods that the syntax is said to use, and no
others.  One lemma for each family of syntax; the induction is on the syntax, and the names that are
bound grow along a block as they do while its uses are collected.

Only what is called regular is compiled as its uses are collected: a literal whose type is a name
for a map type evaluates keys that are not among the uses, and what the last clause of a loop
declares is not bound in the body that is compiled before it.

Main statements: `operand_quiet` and `statement_blind`.
-/

namespace ScriptCore

/-! ### Types that are not maps -/

/-- A step gives only types with a property. -/
def Build.Makes (P : Ty → Prop) (step : Build TypeRef) : Prop :=
  ∀ t r t', step.run.run t = (.ok r, t') → P r.type

namespace Universe

variable {P : Ty → Prop}

/-- A type that is kept. -/
theorem intern_makes {ty : Ty} (h : P ty) (home : Nat) (descriptor : Descriptor)
    (comparable : Bool) (partHomes : List Nat) :
    (intern home ty descriptor comparable partHomes).Makes P := by
  intro t r t' hrun
  change (Except.ok (⟨home, ty⟩ : TypeRef), _) = _ at hrun
  cases hrun
  exact h

/-- Pointers. -/
theorem pointer_makes (home : Nat) (elem : TypeRef) (h : P (.pointer elem.type)) :
    (pointer home elem).Makes P :=
  fun t => intern_makes h home (.pointer (t.rtype elem)) true [] t

/-- Structs. -/
theorem struct_makes (home : Nat) (fields : List (FieldOf TypeRef))
    (h : ∀ fs, P (.struct fs)) : (struct home fields).Makes P := by
  intro t
  unfold struct
  split
  · intro r t' hrun
    cases hrun
  · exact intern_makes (h _) home _ _ _ t

/-- Interfaces. -/
theorem interface_makes (home : Nat) (methods : List (MethodOf TypeRef))
    (h : ∀ ms, P (.interface ms)) : (interface home methods).Makes P := by
  intro t r t'
  rw [interface, Build.get_bind]
  split
  · intro hrun
    cases hrun
  · dsimp only
    split
    · intro hrun
      cases hrun
    · exact intern_makes (h _) home _ _ _ t r t'

/-- Functions. -/
theorem func_makes (home : Nat) (recv : Option TypeRef) (ins outs : List TypeRef)
    (variadic : Bool) (h : ∀ r is os, P (.func r is os variadic)) :
    (func home recv ins outs variadic).Makes P := by
  intro t r t'
  unfold func
  change (if _ then _ else _ : Build TypeRef).run.run t = _ → _
  split
  · intro hrun
    cases hrun
  · exact intern_makes (h _ _ _) home _ _ _ t r t'

end Universe

/-- A local variable is no type. -/
theorem Compiler.localMeaning_ne_type (depth : Nat) (name : Name) (frames : List Frame) (ty : Ty) :
    localMeaning depth name frames ≠ some (.type ty) := by
  induction frames generalizing depth with
  | nil =>
      intro h
      cases h
  | cons f rest ih =>
      rw [localMeaning]
      cases f.find? name with
      | some l =>
          intro h
          cases h
      | none => exact ih _

namespace Compile

/-- What a built type is. -/
theorem Gives.build {P : Ty → Prop} {step : Build TypeRef} (h : step.Makes P) :
    Gives P (build step) := by
  intro c r hr
  rw [build_eq] at hr
  cases hrun : step.run.run c.types with
  | mk e t =>
      rw [hrun] at hr
      cases e with
      | error _ => cases hr
      | ok ref =>
          cases hr
          exact h c.types ref t hrun

/-- A type that is no map type, whatever named types stand for. -/
def NeverMap (ty : Ty) : Prop :=
  ∀ t : TypeTable, t.kind ty ≠ .map

/-- Pointer types. -/
theorem pointerType_neverMap (elem : Ty) : Gives NeverMap (pointerType elem) :=
  .build (Universe.pointer_makes _ _ fun _ h => by cases h)

/-- Struct types. -/
theorem structType_neverMap (fields : List Field) : Gives NeverMap (structType fields) :=
  .build (Universe.struct_makes _ _ fun _ _ h => by cases h)

/-- Interface types. -/
theorem interfaceType_neverMap (methods : List Method) : Gives NeverMap (interfaceType methods) :=
  .build (Universe.interface_makes _ _ fun _ _ h => by cases h)

/-- Function types. -/
theorem headingType_neverMap (recv : Option Ty) (h : Heading) :
    Gives NeverMap (headingType recv h) :=
  .build (Universe.func_makes _ _ _ _ _ fun _ _ _ _ h => by cases h)

/-- No basic type is a map type. -/
theorem ofBasicName?_ne_map (name : Name) : Kind.ofBasicName? name ≠ some .map := by
  unfold Kind.ofBasicName?
  split
  · decide
  · split
    · decide
    · intro h
      exact absurd (List.mem_of_find?_eq_some h) (by decide)

/-- A predeclared type is no map type. -/
theorem predeclared_neverMap {c : Compiler} {name : Name} {ty : Ty}
    (h : c.predeclared name = some (.type ty)) : NeverMap ty := by
  unfold Compiler.predeclared at h
  split at h
  case h_6 =>
    split at h
    · cases h
    · cases h
    · obtain ⟨k, hk, hty⟩ := Option.map_eq_some_iff.1 h
      cases hty
      intro t hmap
      have hkind : k = .map := hmap
      rw [hkind] at hk
      exact ofBasicName?_ne_map _ hk
  all_goals cases h
  intro t hmap
  cases hmap

/-- A name that is plain stands for no map type. -/
theorem resolve_plain {v : Views} {b : List Name} {c : Compiler} (hc : c.Shows v b)
    {name : Name} (hplain : v.plain name) {ty : Ty} (h : c.resolve name = some (.type ty)) :
    c.types.kind ty ≠ .map := by
  rw [Compiler.resolve] at h
  cases hlocal : Compiler.localMeaning 0 name (c.frame :: c.enclosing) with
  | some m =>
      rw [hlocal] at h
      cases h
      exact absurd hlocal (Compiler.localMeaning_ne_type _ _ _ _)
  | none =>
      rw [hlocal] at h
      cases hentity : c.entity? name with
      | none =>
          rw [hentity] at h
          exact predeclared_neverMap h c.types
      | some e =>
          rw [hentity] at h
          cases e with
          | type ty' =>
              cases h
              rw [Compiler.entity?, hc.names] at hentity
              exact hc.plain name ty hplain hentity
          | _ => cases h

/-- A name that stands for a type means it. -/
theorem namedType_ok {c d : Compiler} {name : Name} {ty : Ty}
    (h : namedType name c = .ok (ty, d)) : c.resolve name = some (.type ty) ∧ d = c := by
  obtain ⟨m, c₁, hm, hty⟩ := bind_ok.1 h
  cases hresolve : c.resolve name with
  | none =>
      rw [resolve_none hresolve] at hm
      cases hm
  | some m' =>
      rw [resolve_some hresolve] at hm
      cases hm
      cases m with
      | type ty' =>
          cases hty
          exact ⟨rfl, rfl⟩
      | _ => cases hty

/-- A written type that is plain, or no map, slice or array, gives no map type. -/
theorem typeExpr_plain {v : Views} {b : List Name} {c d : Compiler} (hc : c.Shows v b)
    {t : TypeExpr} (hkeys : t.hasExprKeys = false) (hplain : t.Plain v.plain) {ty : Ty}
    (h : typeExpr t c = .ok (ty, d)) : d.types.kind ty ≠ .map := by
  obtain ⟨span, kind⟩ := t
  have hkind : typeOfKind kind c = .ok (ty, d) := by
    rw [typeExpr] at h
    exact at'_ok.1 h
  cases kind with
  | named name =>
      rw [typeOfKind] at hkind
      obtain ⟨hresolve, rfl⟩ := namedType_ok hkind
      exact resolve_plain hc hplain hresolve
  | qualified package name =>
      rw [typeOfKind] at hkind
      cases hkind
  | slice _ => cases hkeys
  | array _ _ => cases hkeys
  | map _ _ => cases hkeys
  | pointer elem =>
      rw [typeOfKind] at hkind
      exact Gives.bind (fun elem => pointerType_neverMap elem) c _ hkind d.types
  | func sig =>
      rw [typeOfKind] at hkind
      exact Gives.bind (fun h => headingType_neverMap none h) c _ hkind d.types
  | struct fields =>
      rw [typeOfKind] at hkind
      exact Gives.bind (fun fields => structType_neverMap fields) c _ hkind d.types
  | interface methods =>
      rw [typeOfKind] at hkind
      exact Gives.bind (fun methods => interfaceType_neverMap methods) c _ hkind d.types

/-! ### The walk -/

section Walk

variable {v : Views}

/-- Slots bind the names of the parameters they are for. -/
theorem boundBy_eq {slots : List (Option Name × Ty)} {params : List Param}
    (h : slots.map Prod.fst = params.map Param.name) :
    boundBy slots = params.filterMap Param.name := by
  rw [boundBy, ← Function.id_comp Prod.fst, ← List.filterMap_map, h, List.filterMap_map]
  rfl

/-- A heading binds the names of its signature. -/
theorem heading_names (sig : Sig) :
    Gives (fun h => headingNames h = sig.boundNames) (heading sig) := by
  intro c r hr
  obtain ⟨hparams, hresults⟩ := heading_fst sig c r hr
  rw [headingNames, boundBy_eq hparams, boundBy_eq hresults]
  rfl

/-- The base of a selector. -/
theorem identifier?_blind {base : Expr} {b : List Name} (h : ∀ u ∈ base.uses b, v.Agree u) :
    BaseBlind v b base.identifier? := by
  intro name hname
  obtain ⟨span, kind⟩ := base
  cases kind with
  | ident n =>
      cases hname
      simp only [Expr.uses, ExprKind.uses] at h
      exact h
  | _ => cases hname

mutual

/-- An expression. -/
theorem operand_quiet : ∀ (e : Expr) (b : List Name), e.Regular v.plain →
    (∀ u ∈ e.uses b, v.Agree u) → Quiet v b (operand e)
  | .node span kind, b, hr, hu => by
      simp only [Expr.Regular] at hr
      simp only [Expr.uses] at hu
      simp only [operand]
      exact (operandOf_quiet kind b hr hu).at' span

/-- A form of expression. -/
theorem operandOf_quiet : ∀ (kind : ExprKind) (b : List Name), kind.Regular v.plain →
    (∀ u ∈ kind.uses b, v.Agree u) → Quiet v b (operandOf kind)
  | .ident name, b, hr, hu => by
      simp only [ExprKind.uses] at hu
      simp only [operandOf]
      exact identifier_quiet hu
  | .nil, b, _, _ | .bool _, b, _, _ | .int _, b, _, _ | .float _, b, _, _ | .imag _, b, _, _
  | .str _, b, _, _ => by
      simp only [operandOf]
      exact .pure _
  | .unary op e, b, hr, hu => by
      simp only [ExprKind.Regular] at hr
      simp only [ExprKind.uses] at hu
      simp only [operandOf]
      exact (operand_quiet e b hr hu).bind fun _ => (Quiet.check _).bind fun _ =>
        (Quiet.rule _).bind fun _ => .pure _
  | .binary op l r, b, hr, hu => by
      simp only [ExprKind.Regular] at hr
      simp only [ExprKind.uses, List.forall_mem_append] at hu
      simp only [operandOf]
      exact (operand_quiet l b hr.1 hu.1).bind fun _ => (Quiet.check _).bind fun _ =>
        (operand_quiet r b hr.2 hu.2).bind fun _ => (Quiet.check _).bind fun _ =>
          (Quiet.rule _).bind fun _ => .pure _
  | .call f args, b, hr, hu => by
      simp only [ExprKind.Regular] at hr
      simp only [ExprKind.uses, List.forall_mem_append] at hu
      simp only [operandOf]
      exact call_quiet (typeOf?_quiet f b hr.1 hu.1) (callee_blind f b hr.1 hu.1)
        (operand_quiet f b hr.1 hu.1) (firstType?_quiet args b hr.2 hu.2)
        (operands_quiet args b hr.2 hu.2)
  | .index container key, b, hr, hu => by
      simp only [ExprKind.Regular] at hr
      simp only [ExprKind.uses, List.forall_mem_append] at hu
      simp only [operandOf]
      exact index_quiet (operand_quiet container b hr.1 hu.1) (operand_quiet key b hr.2 hu.2)
  | .selector base field, b, hr, hu => by
      simp only [ExprKind.Regular] at hr
      simp only [ExprKind.uses, List.forall_mem_append] at hu
      simp only [operandOf]
      exact selector_quiet (identifier?_blind hu.1) (operand_quiet base b hr hu.1)
        (hu.2 _ (List.mem_singleton_self _))
  | .paren e, b, hr, hu => by
      simp only [ExprKind.Regular] at hr
      simp only [ExprKind.uses] at hu
      simp only [operandOf]
      exact operand_quiet e b hr hu
  | .composite t elems, b, hr, hu => by
      simp only [ExprKind.Regular] at hr
      simp only [ExprKind.uses, List.forall_mem_append] at hu
      obtain ⟨htype, helems, hkeys⟩ := hr
      simp only [operandOf]
      intro c hc
      refine (typeExpr_quiet t b htype hu.1 c hc).bind_of fun ty d hty hd => ?_
      refine composite_blind hd (elements_values elems b _ helems hu.2) fun hmap => ?_
      apply elements_keys elems b _ helems hu.2
      by_cases hexpr : t.hasExprKeys = true
      · exact .inl hexpr
      · rcases hkeys with hexpr' | hbare | hplain
        · exact .inl hexpr'
        · exact .inr hbare
        · exact absurd hmap (typeExpr_plain hc (eq_false_of_ne_true hexpr) hplain hty)
  | .funcLit sig body, b, hr, hu => by
      simp only [ExprKind.Regular] at hr
      simp only [ExprKind.uses, List.forall_mem_append] at hu
      simp only [operandOf]
      exact funcLit_quiet (heading_quiet sig b hr.1 hu.1) (heading_names sig)
        (block_quiet body _ hr.2 hu.2)
  | .type _, _, _, _ => by
      simp only [operandOf]
      exact .fail _

/-- Expressions. -/
theorem operands_quiet : ∀ (es : List Expr) (b : List Name), RegularExprs v.plain es →
    (∀ u ∈ usesOfExprs b es, v.Agree u) → ∀ p ∈ operands es, Quiet v b p
  | [], _, _, _ => by
      simp only [operands]
      exact List.forall_mem_nil _
  | e :: rest, b, hr, hu => by
      simp only [RegularExprs] at hr
      simp only [usesOfExprs, List.forall_mem_append] at hu
      simp only [operands, List.forall_mem_cons]
      exact ⟨operand_quiet e b hr.1 hu.1, operands_quiet rest b hr.2 hu.2⟩

/-- An optional expression. -/
theorem operand?_quiet : ∀ (e : Option Expr) (b : List Name), RegularExpr? v.plain e →
    (∀ u ∈ usesOfExpr? b e, v.Agree u) → ∀ p ∈ operand? e, Quiet v b p
  | none, _, _, _ => by
      simp only [operand?]
      intro p hp
      cases hp
  | some e, b, hr, hu => by
      simp only [RegularExpr?] at hr
      simp only [usesOfExpr?] at hu
      simp only [operand?]
      intro p hp
      cases hp
      exact operand_quiet e b hr hu

/-- Values of elements. -/
theorem elements_values : ∀ (elems : List Elem) (b : List Name) (exprKeys : Bool),
    RegularElems v.plain elems → (∀ u ∈ usesOfElems b exprKeys elems, v.Agree u) →
    ∀ e ∈ elements elems, Quiet v b e.value
  | [], _, _, _, _ => by
      simp only [elements]
      exact List.forall_mem_nil _
  | .mk key value :: rest, b, exprKeys, hr, hu => by
      simp only [RegularElems] at hr
      simp only [usesOfElems, List.forall_mem_append] at hu
      simp only [elements, List.forall_mem_cons]
      have hvalue : ∀ u ∈ value.uses b, v.Agree u := by
        cases key with
        | none =>
            simp only [Elem.uses] at hu
            exact hu.1
        | some k =>
            simp only [Elem.uses, List.forall_mem_append] at hu
            exact hu.1.2
      exact ⟨operand_quiet value b hr.2.1 hvalue,
        elements_values rest b exprKeys hr.2.2 hu.2⟩

/-- Keys of elements, if they are all among the uses. -/
theorem elements_keys : ∀ (elems : List Elem) (b : List Name) (exprKeys : Bool),
    RegularElems v.plain elems → (∀ u ∈ usesOfElems b exprKeys elems, v.Agree u) →
    exprKeys = true ∨ (∀ e ∈ elems, e.hasBareKey = false) →
    ∀ e ∈ elements elems, ∀ k ∈ e.key, Quiet v b k
  | [], _, _, _, _, _ => by
      simp only [elements]
      exact List.forall_mem_nil _
  | .mk key value :: rest, b, exprKeys, hr, hu, hkeys => by
      simp only [RegularElems] at hr
      simp only [usesOfElems, List.forall_mem_append] at hu
      simp only [List.forall_mem_cons] at hkeys
      simp only [elements, List.forall_mem_cons]
      refine ⟨operand?_quiet key b hr.1 ?_,
        elements_keys rest b exprKeys hr.2.2 hu.2 (hkeys.imp_right And.right)⟩
      cases key with
      | none =>
          simp only [usesOfExpr?]
          exact List.forall_mem_nil _
      | some k =>
          have hused : (exprKeys || !k.isIdent) = true := by
            rcases hkeys with hexpr | hbare
            · rw [hexpr, Bool.true_or]
            · have hk : k.isIdent = false := hbare.1
              rw [hk, Bool.not_false, Bool.or_true]
          simp only [Elem.uses, hused, if_true, List.forall_mem_append] at hu
          simp only [usesOfExpr?]
          exact hu.1.1

/-- The type that an expression names. -/
theorem typeOf?_quiet : ∀ (e : Expr) (b : List Name), e.Regular v.plain →
    (∀ u ∈ e.uses b, v.Agree u) → Quiet v b (typeOf? e)
  | .node _ (.ident name), b, _, hu => by
      simp only [Expr.uses, ExprKind.uses] at hu
      simp only [typeOf?]
      exact identifiedType?_quiet hu
  | .node _ (.paren e), b, hr, hu => by
      simp only [Expr.Regular, ExprKind.Regular] at hr
      simp only [Expr.uses, ExprKind.uses] at hu
      simp only [typeOf?]
      exact typeOf?_quiet e b hr hu
  | .node _ (.type ty), b, hr, hu => by
      simp only [Expr.Regular, ExprKind.Regular] at hr
      simp only [Expr.uses, ExprKind.uses] at hu
      simp only [typeOf?]
      exact (typeExpr_quiet ty b hr hu).map some
  | .node _ .nil, b, _, _ | .node _ (.bool _), b, _, _ | .node _ (.int _), b, _, _
  | .node _ (.float _), b, _, _ | .node _ (.imag _), b, _, _ | .node _ (.str _), b, _, _
  | .node _ (.unary _ _), b, _, _ | .node _ (.binary _ _ _), b, _, _
  | .node _ (.call _ _), b, _, _ | .node _ (.index _ _), b, _, _
  | .node _ (.selector _ _), b, _, _ | .node _ (.composite _ _), b, _, _
  | .node _ (.funcLit _ _), b, _, _ => by
      simp only [typeOf?]
      exact .pure _

/-- The type that the first expression names. -/
theorem firstType?_quiet : ∀ (es : List Expr) (b : List Name), RegularExprs v.plain es →
    (∀ u ∈ usesOfExprs b es, v.Agree u) → Quiet v b (firstType? es)
  | [], _, _, _ => by
      simp only [firstType?]
      exact .pure _
  | e :: rest, b, hr, hu => by
      simp only [RegularExprs] at hr
      simp only [usesOfExprs, List.forall_mem_append] at hu
      simp only [firstType?]
      exact typeOf?_quiet e b hr.1 hu.1

/-- What an expression calls. -/
theorem callee_blind : ∀ (e : Expr) (b : List Name), e.Regular v.plain →
    (∀ u ∈ e.uses b, v.Agree u) → CalleeBlind v b (callee e)
  | .node _ (.ident name), b, _, hu => by
      simp only [Expr.uses, ExprKind.uses] at hu
      simp only [callee]
      exact hu
  | .node _ (.selector base field), b, hr, hu => by
      simp only [Expr.Regular, ExprKind.Regular] at hr
      simp only [Expr.uses, ExprKind.uses, List.forall_mem_append] at hu
      simp only [callee]
      exact ⟨identifier?_blind hu.1, operand_quiet base b hr hu.1,
        hu.2 _ (List.mem_singleton_self _)⟩
  | .node _ .nil, b, _, _ | .node _ (.bool _), b, _, _ | .node _ (.int _), b, _, _
  | .node _ (.float _), b, _, _ | .node _ (.imag _), b, _, _ | .node _ (.str _), b, _, _
  | .node _ (.unary _ _), b, _, _ | .node _ (.binary _ _ _), b, _, _
  | .node _ (.call _ _), b, _, _ | .node _ (.index _ _), b, _, _
  | .node _ (.paren _), b, _, _ | .node _ (.composite _ _), b, _, _
  | .node _ (.funcLit _ _), b, _, _ | .node _ (.type _), b, _, _ => by
      simp only [callee]
      trivial

/-- An expression as a place. -/
theorem placeOf_quiet : ∀ (e : Expr) (b : List Name), e.Regular v.plain →
    (∀ u ∈ e.uses b, v.Agree u) → Quiet v b (placeOf e)
  | .node span (.ident name), b, _, hu => by
      simp only [Expr.uses, ExprKind.uses] at hu
      simp only [placeOf]
      exact (namedPlace_quiet hu).at' span
  | .node span (.paren e), b, hr, hu => by
      simp only [Expr.Regular, ExprKind.Regular] at hr
      simp only [Expr.uses, ExprKind.uses] at hu
      simp only [placeOf]
      exact (placeOf_quiet e b hr hu).at' span
  | .node span (.index container key), b, hr, hu => by
      simp only [Expr.Regular, ExprKind.Regular] at hr
      simp only [Expr.uses, ExprKind.uses, List.forall_mem_append] at hu
      simp only [placeOf]
      exact (indexPlace_quiet (operand_quiet container b hr.1 hu.1)
        (operand_quiet key b hr.2 hu.2)).at' span
  | .node span (.selector base field), b, hr, hu => by
      simp only [Expr.Regular, ExprKind.Regular] at hr
      simp only [Expr.uses, ExprKind.uses, List.forall_mem_append] at hu
      simp only [placeOf]
      exact (selectorPlace_quiet (placeOf_quiet base b hr hu.1) field).at' span
  | .node span .nil, b, _, _ | .node span (.bool _), b, _, _ | .node span (.int _), b, _, _
  | .node span (.float _), b, _, _ | .node span (.imag _), b, _, _ | .node span (.str _), b, _, _
  | .node span (.unary _ _), b, _, _ | .node span (.binary _ _ _), b, _, _
  | .node span (.call _ _), b, _, _ | .node span (.composite _ _), b, _, _
  | .node span (.funcLit _ _), b, _, _ | .node span (.type _), b, _, _ => by
      simp only [placeOf]
      exact (Blind.fail _).at' span

/-- Expressions as places. -/
theorem placesOf_quiet : ∀ (es : List Expr) (b : List Name), RegularExprs v.plain es →
    (∀ u ∈ usesOfExprs b es, v.Agree u) → ∀ p ∈ placesOf es, Quiet v b p
  | [], _, _, _ => by
      simp only [placesOf]
      exact List.forall_mem_nil _
  | e :: rest, b, hr, hu => by
      simp only [RegularExprs] at hr
      simp only [usesOfExprs, List.forall_mem_append] at hu
      simp only [placesOf, List.forall_mem_cons]
      exact ⟨placeOf_quiet e b hr.1 hu.1, placesOf_quiet rest b hr.2 hu.2⟩

/-- A type expression. -/
theorem typeExpr_quiet : ∀ (t : TypeExpr) (b : List Name), t.Regular v.plain →
    (∀ u ∈ t.uses b, v.Agree u) → Quiet v b (typeExpr t)
  | .node span kind, b, hr, hu => by
      simp only [TypeExpr.Regular] at hr
      simp only [TypeExpr.uses] at hu
      simp only [typeExpr]
      exact (typeOfKind_quiet kind b hr hu).at' span

/-- A form of type expression. -/
theorem typeOfKind_quiet : ∀ (kind : TypeKind) (b : List Name), kind.Regular v.plain →
    (∀ u ∈ kind.uses b, v.Agree u) → Quiet v b (typeOfKind kind)
  | .named name, b, _, hu => by
      simp only [TypeKind.uses] at hu
      simp only [typeOfKind]
      exact namedType_quiet hu
  | .qualified package name, b, _, _ => by
      simp only [typeOfKind]
      exact .fail _
  | .slice elem, b, hr, hu => by
      simp only [TypeKind.Regular] at hr
      simp only [TypeKind.uses] at hu
      simp only [typeOfKind]
      exact (typeExpr_quiet elem b hr hu).bind fun _ => sliceType_quiet _
  | .array length elem, b, hr, hu => by
      simp only [TypeKind.Regular] at hr
      simp only [TypeKind.uses, List.forall_mem_append] at hu
      simp only [typeOfKind]
      exact (operand_quiet length b hr.1 hu.1).bind fun _ => (arrayLength_quiet _).bind fun _ =>
        (typeExpr_quiet elem b hr.2 hu.2).bind fun _ => arrayType_quiet _ _
  | .map key value, b, hr, hu => by
      simp only [TypeKind.Regular] at hr
      simp only [TypeKind.uses, List.forall_mem_append] at hu
      simp only [typeOfKind]
      exact (typeExpr_quiet key b hr.1 hu.1).bind fun _ =>
        (typeExpr_quiet value b hr.2 hu.2).bind fun _ => mapType_quiet _ _
  | .pointer elem, b, hr, hu => by
      simp only [TypeKind.Regular] at hr
      simp only [TypeKind.uses] at hu
      simp only [typeOfKind]
      exact (typeExpr_quiet elem b hr hu).bind fun _ => pointerType_quiet _
  | .func sig, b, hr, hu => by
      simp only [TypeKind.Regular] at hr
      simp only [TypeKind.uses] at hu
      simp only [typeOfKind]
      exact (heading_quiet sig b hr hu).bind fun _ => headingType_quiet _ _
  | .struct fields, b, hr, hu => by
      simp only [TypeKind.Regular] at hr
      simp only [TypeKind.uses] at hu
      simp only [typeOfKind]
      exact (fieldTypes_quiet fields b hr hu).bind fun _ => structType_quiet _
  | .interface methods, b, hr, hu => by
      simp only [TypeKind.Regular] at hr
      simp only [TypeKind.uses] at hu
      simp only [typeOfKind]
      exact (methodTypes_quiet methods b hr hu).bind fun _ => interfaceType_quiet _

/-- An optional type expression. -/
theorem typeExpr?_quiet : ∀ (t : Option TypeExpr) (b : List Name), RegularType? v.plain t →
    (∀ u ∈ usesOfType? b t, v.Agree u) → Quiet v b (typeExpr? t)
  | none, _, _, _ => by
      simp only [typeExpr?]
      exact .pure _
  | some t, b, hr, hu => by
      simp only [RegularType?] at hr
      simp only [usesOfType?] at hu
      simp only [typeExpr?]
      exact (typeExpr_quiet t b hr hu).map some

/-- Types of fields. -/
theorem fieldTypes_quiet : ∀ (fields : List FieldDecl) (b : List Name),
    RegularFields v.plain fields → (∀ u ∈ usesOfFields b fields, v.Agree u) →
    Quiet v b (fieldTypes fields)
  | [], _, _, _ => by
      simp only [fieldTypes]
      exact .pure _
  | .mk name ty embedded :: rest, b, hr, hu => by
      simp only [RegularFields] at hr
      simp only [usesOfFields, FieldDecl.uses, List.forall_mem_append] at hu
      simp only [fieldTypes]
      exact (typeExpr_quiet ty b hr.1 hu.1).bind fun _ =>
        (fieldTypes_quiet rest b hr.2 hu.2).bind fun _ => .pure _

/-- Types of methods. -/
theorem methodTypes_quiet : ∀ (methods : List MethodSpec) (b : List Name),
    RegularMethods v.plain methods → (∀ u ∈ usesOfMethods b methods, v.Agree u) →
    Quiet v b (methodTypes methods)
  | [], _, _, _ => by
      simp only [methodTypes]
      exact .pure _
  | .mk name sig :: rest, b, hr, hu => by
      simp only [RegularMethods] at hr
      simp only [usesOfMethods, MethodSpec.uses, List.forall_mem_append] at hu
      simp only [methodTypes]
      exact (heading_quiet sig b hr.1 hu.1).bind fun _ => (headingType_quiet _ _).bind fun _ =>
        (methodTypes_quiet rest b hr.2 hu.2).bind fun _ => .pure _

/-- A signature. -/
theorem heading_quiet : ∀ (sig : Sig) (b : List Name), sig.Regular v.plain →
    (∀ u ∈ sig.uses b, v.Agree u) → Quiet v b (heading sig)
  | .mk params results variadic, b, hr, hu => by
      simp only [Sig.Regular] at hr
      simp only [Sig.uses, List.forall_mem_append] at hu
      simp only [heading]
      exact (paramTypes_quiet params variadic b hr.1 hu.1).bind fun _ =>
        (paramTypes_quiet results false b hr.2 hu.2).bind fun _ => .pure _

/-- Types of parameters. -/
theorem paramTypes_quiet : ∀ (params : List Param) (variadic : Bool) (b : List Name),
    RegularParams v.plain params → (∀ u ∈ usesOfParams b params, v.Agree u) →
    Quiet v b (paramTypes variadic params)
  | [], _, _, _, _ => by
      simp only [paramTypes]
      exact .pure _
  | .mk name ty :: rest, variadic, b, hr, hu => by
      simp only [RegularParams] at hr
      simp only [usesOfParams, Param.uses, List.forall_mem_append] at hu
      simp only [paramTypes]
      exact (typeExpr_quiet ty b hr.1 hu.1).bind fun _ => (paramType_quiet _ _).bind fun _ =>
        (paramTypes_quiet rest variadic b hr.2 hu.2).bind fun _ => .pure _

/-- A statement, after which its names are bound. -/
theorem statement_blind : ∀ (s : Stmt) (b : List Name), s.Regular v.plain →
    (∀ u ∈ (s.uses b).1, v.Agree u) → Emit.Blind v b (statement s) (s.declares ++ b)
  | .node span kind, b, hr, hu => by
      simp only [Stmt.Regular] at hr
      simp only [Stmt.uses] at hu
      simp only [statement, Stmt.declares]
      exact (statementOf_blind kind b hr hu).at' span

/-- A form of statement, after which its names are bound. -/
theorem statementOf_blind : ∀ (kind : StmtKind) (b : List Name), kind.Regular v.plain →
    (∀ u ∈ (kind.uses b).1, v.Agree u) → Emit.Blind v b (statementOf kind) (kind.declares ++ b)
  | .expr e, b, hr, hu => by
      simp only [StmtKind.Regular] at hr
      simp only [StmtKind.uses] at hu
      simp only [statementOf]
      exact (Emit.Blind.lift (operand_quiet e b hr hu)).bind fun _ => .modifyGet _
  | .assign lhs rhs, b, hr, hu => by
      simp only [StmtKind.Regular] at hr
      simp only [StmtKind.uses, List.forall_mem_append] at hu
      simp only [statementOf]
      exact .all (assign_quiet (placesOf_quiet lhs b hr.1 hu.1) (operands_quiet rhs b hr.2 hu.2))
  | .opAssign op lhs rhs, b, hr, hu => by
      simp only [StmtKind.Regular] at hr
      simp only [StmtKind.uses, List.forall_mem_append] at hu
      simp only [statementOf]
      exact .one (update_quiet op (placeOf_quiet lhs b hr.1 hu.1) (operand_quiet rhs b hr.2 hu.2))
  | .define names values, b, hr, hu => by
      simp only [StmtKind.Regular] at hr
      simp only [StmtKind.uses] at hu
      simp only [statementOf]
      exact .one (declareValues_blind names none (operands_quiet values b hr hu) true)
  | .var spec, b, hr, hu => by
      simp only [StmtKind.Regular] at hr
      simp only [StmtKind.uses] at hu
      simp only [statementOf]
      exact .one (declare_blind spec b hr hu)
  | .incDec target increment, b, hr, hu => by
      simp only [StmtKind.Regular] at hr
      simp only [StmtKind.uses] at hu
      simp only [statementOf]
      exact .one (step_quiet (placeOf_quiet target b hr hu) increment)
  | .cond test body otherwise, b, hr, hu => by
      simp only [StmtKind.Regular] at hr
      simp only [StmtKind.uses, List.forall_mem_append] at hu
      simp only [statementOf, StmtKind.declares]
      refine ifThenElse_blind (operand_quiet test b hr.1 hu.1.1) (block_quiet body b hr.2.1 hu.1.2)
        (fun hnone => ?_) (statement?_blind otherwise b hr.2.2 hu.2)
      cases otherwise with
      | none =>
          simp only [declaresOf?, List.nil_append]
          exact List.Subset.refl b
      | some s =>
          simp only [statement?] at hnone
          cases hnone
  | .loop init test post body, b, hr, hu => by
      simp only [StmtKind.Regular] at hr
      obtain ⟨hinit, htest, hpost, hbody, hnone⟩ := hr
      simp only [StmtKind.uses, usesOfStmt?_snd, hnone, List.nil_append,
        List.forall_mem_append] at hu
      obtain ⟨⟨⟨huInit, huTest⟩, huPost⟩, huBody⟩ := hu
      have hlast := optional_blind post _ hpost huPost
      rw [hnone] at hlast
      simp only [statementOf]
      exact loop_quiet (optional_blind init b hinit huInit) (operand?_quiet test _ htest huTest)
        hlast (block_quiet body _ hbody huBody)
  | .break, b, _, _ | .continue, b, _, _ => by
      simp only [statementOf]
      exact branchOut_quiet _ _
  | .return values, b, hr, hu => by
      simp only [StmtKind.Regular] at hr
      simp only [StmtKind.uses] at hu
      simp only [statementOf]
      exact .one (returnStmt_quiet (operands_quiet values b hr hu))
  | .block body, b, hr, hu => by
      simp only [StmtKind.Regular] at hr
      simp only [StmtKind.uses] at hu
      simp only [statementOf]
      exact inBlock_quiet (block_quiet body b hr hu)

/-- A local declaration, after which its names are bound. -/
theorem declare_blind : ∀ (spec : ValueSpec) (b : List Name), spec.Regular v.plain →
    (∀ u ∈ spec.uses b, v.Agree u) → Blind v b (declare spec) (spec.names ++ b)
  | .mk names ty [] iota, b, hr, hu => by
      simp only [ValueSpec.Regular] at hr
      simp only [ValueSpec.uses, List.forall_mem_append] at hu
      simp only [declare]
      exact Blind.bind (typeExpr?_quiet ty b hr.1 hu.1) fun declared =>
        declareZeros_blind names declared
  | .mk names ty (value :: rest) iota, b, hr, hu => by
      simp only [ValueSpec.Regular, RegularExprs] at hr
      simp only [ValueSpec.uses, usesOfExprs, List.forall_mem_append] at hu
      simp only [declare]
      refine Blind.bind (typeExpr?_quiet ty b hr.1 hu.1) fun declared =>
        declareValues_blind names declared ?_ false
      rw [List.forall_mem_cons]
      exact ⟨operand_quiet value b hr.2.1 hu.2.1, operands_quiet rest b hr.2.2 hu.2.2⟩

/-- An optional statement, after which its names are bound. -/
theorem statement?_blind : ∀ (s : Option Stmt) (b : List Name), RegularStmt? v.plain s →
    (∀ u ∈ (usesOfStmt? b s).1, v.Agree u) →
    ∀ p ∈ statement? s, Emit.Blind v b p (declaresOf? s ++ b)
  | none, _, _, _ => by
      simp only [statement?]
      intro p hp
      cases hp
  | some s, b, hr, hu => by
      simp only [RegularStmt?] at hr
      simp only [usesOfStmt?] at hu
      simp only [statement?, declaresOf?]
      intro p hp
      cases hp
      exact statement_blind s b hr hu

/-- An optional clause, after which its names are bound. -/
theorem optional_blind : ∀ (s : Option Stmt) (b : List Name), RegularStmt? v.plain s →
    (∀ u ∈ (usesOfStmt? b s).1, v.Agree u) →
    Emit.Blind v b (optional (statement? s)) (declaresOf? s ++ b)
  | none, b, _, _ => by
      simp only [statement?, declaresOf?]
      exact .pure _
  | some s, b, hr, hu => by
      simp only [RegularStmt?] at hr
      simp only [usesOfStmt?] at hu
      simp only [statement?, declaresOf?]
      exact statement_blind s b hr hu

/-- A block. -/
theorem block_quiet : ∀ (body : Block) (b : List Name), body.Regular v.plain →
    (∀ u ∈ body.uses b, v.Agree u) → Emit.Blind v b (block body) b
  | .mk stmts stop, b, hr, hu => by
      simp only [Block.Regular] at hr
      simp only [Block.uses] at hu
      simp only [block]
      exact statements_quiet stmts b hr hu

/-- Statements, each of which may use the names of those before it. -/
theorem statements_quiet : ∀ (stmts : List Stmt) (b : List Name), RegularStmts v.plain stmts →
    (∀ u ∈ usesOfStmts b stmts, v.Agree u) → Emit.Blind v b (statements stmts) b
  | [], _, _, _ => by
      simp only [statements]
      exact .pure _
  | s :: rest, b, hr, hu => by
      simp only [RegularStmts] at hr
      simp only [usesOfStmts, Stmt.uses_snd, List.forall_mem_append] at hu
      simp only [statements]
      exact (statement_blind s b hr.1 hu.1).bind fun _ =>
        (statements_quiet rest _ hr.2 hu.2).mono (List.subset_append_right _ _)

end

end Walk

end Compile

end ScriptCore
