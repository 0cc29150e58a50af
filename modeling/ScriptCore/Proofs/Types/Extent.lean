import ScriptCore.Proofs.Types.Placement
import ScriptCore.Proofs.Types.Unfolding

/-!
# How large types are

The size and the alignment of a type as a relation (`TypeTable.Measures`): of a type literal they
are made from those of the types written in it, of a named type they are those of the type that it
stands for.  A named type that stands for nothing measures nothing at all, which is why the relation
does not depend on when it is asked: what a type measures it measures forever
(`Measures.grows`), and it measures one thing only (`Measures.unique`).

The relation goes along the types inside a type together with the universes that hold them
(`partRefs`).  In a table that operations on held types have made, these are held as well
(`Regular.partsHeld`).
-/

namespace ScriptCore

open Layout (Extent)

namespace TypeTable

/-! ### Parts and the universes that hold them -/

/-- The types of fields; `homes` are the universes that hold them. -/
def fieldRefs : List Nat → Nat → List Field → List TypeRef
  | _, _, [] => []
  | homes, home, f :: fs => ⟨homes.headD home, f.type⟩ :: fieldRefs homes.tail home fs

/-- The types written in an array or struct type; `homes` are the universes that hold them. -/
def literalRefs (homes : List Nat) (r : TypeRef) : List TypeRef :=
  match r.type with
  | .array _ e => [⟨homes.headD r.home, e⟩]
  | .struct fs => fieldRefs homes r.home fs
  | _ => []

/-- The parts of a type with the universes that hold them. -/
def partRefs (t : TypeTable) (r : TypeRef) : List TypeRef :=
  match r.type with
  | .named id _ _ => (t.definition? id).toList
  | _ => literalRefs (t.partHomes r) r

/-- The second type is the first or a part of it, through any number of parts. -/
def ComponentRef (t : TypeTable) : TypeRef → TypeRef → Prop :=
  Relation.ReflTransGen fun a b => b ∈ t.partRefs a

/-- All named types inside a type stand for something. -/
def Complete (t : TypeTable) (ty : Ty) : Prop :=
  ∀ c, t.Component ty c → t.Defined c

variable {t t' : TypeTable}

/-- The types of fields one by one. -/
theorem fieldRefs_type (homes : List Nat) (home : Nat) (fs : List Field) :
    (fieldRefs homes home fs).map TypeRef.type = fs.map FieldOf.type := by
  induction fs generalizing homes with
  | nil => rfl
  | cons f fs ih => rw [fieldRefs, List.map_cons, List.map_cons, ih]

/-- Given the universes of the types themselves, these are what one gets back. -/
theorem fieldRefs_of_refs (home : Nat) (fields : List (FieldOf TypeRef)) :
    fieldRefs (fields.map fun f => f.type.home) home
      (fields.map fun f => ⟨f.name, f.type.type, f.embedded⟩) = fields.map FieldOf.type := by
  induction fields with
  | nil => rfl
  | cons f fields ih =>
      rw [List.map_cons, List.map_cons, List.map_cons, fieldRefs, List.tail_cons, ih]
      rfl

/-- The types written in a type literal, without their universes. -/
theorem literalRefs_type (homes : List Nat) (r : TypeRef) :
    (literalRefs homes r).map TypeRef.type = r.type.inner := by
  obtain ⟨home, ty⟩ := r
  cases ty with
  | struct fs => exact fieldRefs_type homes home fs
  | _ => rfl

/-- A type literal has the parts that are written in it. -/
theorem partRefs_of_not_named {r : TypeRef} (h : r.type.isNamed = false) :
    t.partRefs r = literalRefs (t.partHomes r) r := by
  obtain ⟨home, ty⟩ := r
  cases ty <;> first | rfl | cases h

/-- The parts of a type, without their universes. -/
theorem type_mem_parts {r p : TypeRef} (h : p ∈ t.partRefs r) : p.type ∈ t.parts r.type := by
  by_cases hnamed : r.type.isNamed = true
  · obtain ⟨home, ty⟩ := r
    cases ty with
    | named id name package => exact mem_parts_named.2 ⟨p, Option.mem_toList.1 h, rfl⟩
    | _ => cases hnamed
  · have hliteral := Bool.eq_false_iff.2 hnamed
    rw [partRefs_of_not_named hliteral] at h
    rw [parts_of_not_named hliteral, ← literalRefs_type (t.partHomes r)]
    exact List.mem_map_of_mem h

/-- The types inside a complete type are complete. -/
theorem Complete.part {r p : TypeRef} (h : t.Complete r.type) (hp : p ∈ t.partRefs r) :
    t.Complete p.type :=
  fun c hc => h c (.head (type_mem_parts hp) hc)

/-- A list of types that holds the parts of its members holds their components. -/
theorem ComponentRef.mem {rs : List TypeRef} {a c : TypeRef}
    (hclosed : ∀ x ∈ rs, ∀ y ∈ t.partRefs x, y ∈ rs) (ha : a ∈ rs) (h : t.ComponentRef a c) :
    c ∈ rs := by
  induction h with
  | refl => exact ha
  | tail _ hpart ih => exact hclosed _ ih _ hpart

/-- The components of a complete type are complete. -/
theorem Complete.component {r c : TypeRef} (h : t.Complete r.type) (hc : t.ComponentRef r c) :
    t.Complete c.type := by
  induction hc with
  | refl => exact h
  | tail _ hp ih => exact ih.part hp

/-- A complete named type stands for something. -/
theorem Complete.definition? {id : Nat} {name : Name} {package : Option String}
    (h : t.Complete (.named id name package)) : ∃ u, t.definition? id = some u := by
  have hself := h _ .refl
  rw [Defined, underlying] at hself
  cases hu : t.definition? id with
  | none =>
      rw [hu] at hself
      cases hself
  | some u => exact ⟨u, rfl⟩

/-- A type stands for itself, or it is named and stands for its only part. -/
theorem resolve_cases (t : TypeTable) (r : TypeRef) :
    t.resolve r = r ∨ ∃ home id name package, r = ⟨home, .named id name package⟩ ∧
      t.definition? id = some (t.resolve r) := by
  obtain ⟨home, ty⟩ := r
  cases ty with
  | named id name package =>
      cases hu : t.definition? id with
      | none => exact .inl (by simp [resolve, hu])
      | some u => exact .inr ⟨home, id, name, package, rfl, by simp [resolve, hu]⟩
  | _ => exact .inl rfl

/-- What a type stands for is one of its components. -/
theorem componentRef_resolve (t : TypeTable) (r : TypeRef) : t.ComponentRef r (t.resolve r) := by
  rcases t.resolve_cases r with hself | ⟨home, id, name, package, rfl, hu⟩
  · rw [hself]
    exact .refl
  · exact .single (Option.mem_toList.2 hu)

/-- What is held keeps the universes of its parts while the table grows. -/
theorem Grows.partHomes (h : t.Grows t') {r : TypeRef} (hr : t.Held r) :
    t'.partHomes r = t.partHomes r := by
  rw [Held, rtype?, Option.isSome_map] at hr
  obtain ⟨i, hi⟩ := Option.isSome_iff_exists.1 hr
  rw [TypeTable.partHomes, TypeTable.partHomes, hi, h.kept r i hi]

/-- A type literal that is held keeps its parts while the table grows. -/
theorem Grows.partRefs (h : t.Grows t') {r : TypeRef} (hr : t.Held r)
    (hliteral : r.type.isNamed = false) : t'.partRefs r = t.partRefs r := by
  rw [partRefs_of_not_named hliteral, partRefs_of_not_named hliteral, h.partHomes hr]

/-- Parts of what is held stay parts while the table grows. -/
theorem Grows.mem_partRefs (h : t.Grows t') {r p : TypeRef} (hr : t.Held r)
    (hp : p ∈ t.partRefs r) : p ∈ t'.partRefs r := by
  by_cases hnamed : r.type.isNamed = true
  · obtain ⟨home, ty⟩ := r
    cases ty with
    | named id name package =>
        exact Option.mem_toList.2 (h.defined id p (Option.mem_toList.1 hp))
    | _ => cases hnamed
  · rwa [h.partRefs hr (Bool.eq_false_iff.2 hnamed)]

/-! ### What a type measures -/

mutual

/-- The size and the alignment of a type. -/
inductive Measures (t : TypeTable) : TypeRef → Extent → Prop
  | leaf {home : Nat} {ty : Ty} (hnamed : ty.isNamed = false) (hagg : ty.isAggregate = false) :
      Measures t ⟨home, ty⟩ (ty.shape.layout?.getD (0, 1))
  | named {home id : Nat} {name : Name} {package : Option String} {u : TypeRef} {e : Extent}
      (hu : t.definition? id = some u) (h : Measures t u e) :
      Measures t ⟨home, .named id name package⟩ e
  | array {home n : Nat} {ty : Ty} {e : Extent} (hheld : t.Held ⟨home, .array n ty⟩)
      (h : Measures t ⟨(t.partHomes ⟨home, .array n ty⟩).headD home, ty⟩ e) :
      Measures t ⟨home, .array n ty⟩ (Layout.saturatingMul e.1 n, e.2)
  | struct {home : Nat} {fs : List Field} {es : List Extent} (hheld : t.Held ⟨home, .struct fs⟩)
      (h : MeasuresAll t (t.partRefs ⟨home, .struct fs⟩) es) :
      Measures t ⟨home, .struct fs⟩ ((Layout.ofFields es).size, (Layout.ofFields es).align)

/-- The sizes and alignments of some types. -/
inductive MeasuresAll (t : TypeTable) : List TypeRef → List Extent → Prop
  | nil : MeasuresAll t [] []
  | cons {r : TypeRef} {e : Extent} {rs : List TypeRef} {es : List Extent} (h : Measures t r e)
      (hs : MeasuresAll t rs es) : MeasuresAll t (r :: rs) (e :: es)

end

mutual

/-- A type measures one thing only. -/
theorem Measures.unique {r : TypeRef} {e e' : Extent} :
    t.Measures r e → t.Measures r e' → e = e'
  | .leaf hnamed hagg, h' => by
      cases h' with
      | leaf => rfl
      | named => cases hnamed
      | array => cases hagg
      | struct => cases hagg
  | .named hu h, h' => by
      cases h' with
      | leaf hnamed => cases hnamed
      | named hu' h' =>
          cases hu.symm.trans hu'
          exact h.unique h'
  | .array _ h, h' => by
      cases h' with
      | leaf _ hagg => cases hagg
      | array _ h' => rw [h.unique h']
  | .struct _ h, h' => by
      cases h' with
      | leaf _ hagg => cases hagg
      | struct _ h' => rw [h.unique h']

/-- Types measure one thing each. -/
theorem MeasuresAll.unique {rs : List TypeRef} {es es' : List Extent} :
    t.MeasuresAll rs es → t.MeasuresAll rs es' → es = es'
  | .nil, h' => by
      cases h'
      rfl
  | .cons h hs, h' => by
      cases h' with
      | cons h' hs' => rw [h.unique h', hs.unique hs']

end

mutual

/-- What a type measures it measures in every table that grows out of this one. -/
theorem Measures.grows (hg : t.Grows t') {r : TypeRef} {e : Extent} :
    t.Measures r e → t'.Measures r e
  | .leaf hnamed hagg => .leaf hnamed hagg
  | .named hu h => .named (hg.defined _ _ hu) (h.grows hg)
  | .array hheld h => by
      refine .array (hg.held hheld) ?_
      rw [hg.partHomes hheld]
      exact h.grows hg
  | .struct hheld h => by
      refine .struct (hg.held hheld) ?_
      rw [hg.partRefs hheld rfl]
      exact h.grows hg

/-- The same for some types. -/
theorem MeasuresAll.grows (hg : t.Grows t') {rs : List TypeRef} {es : List Extent} :
    t.MeasuresAll rs es → t'.MeasuresAll rs es
  | .nil => .nil
  | .cons h hs => .cons (h.grows hg) (hs.grows hg)

end

/-- A type measures what the type measures that it stands for. -/
theorem Measures.of_resolve {r : TypeRef} {e : Extent} (h : t.Measures (t.resolve r) e) :
    t.Measures r e := by
  rcases t.resolve_cases r with hself | ⟨home, id, name, package, rfl, hu⟩
  · rwa [hself] at h
  · exact .named hu h

/-- Every alignment is at least one. -/
theorem Measures.align_pos {r : TypeRef} {e : Extent} : t.Measures r e → 0 < e.2.toNat
  | @Measures.leaf _ _ ty _ _ => by
      have hall : ∀ k : Kind, 0 < (k.layout?.getD (0, 1)).2.toNat := by
        intro k
        cases k <;> decide
      exact hall ty.shape
  | .named _ h => h.align_pos
  | .array _ h => h.align_pos
  | @Measures.struct _ _ _ es _ _ => by
      have halign := Layout.one_le_alignOf es
      rwa [← Layout.ofFields_align] at halign

/-- Every alignment of some types is at least one. -/
theorem MeasuresAll.align_pos {rs : List TypeRef} {es : List Extent} (h : t.MeasuresAll rs es) :
    ∀ e ∈ es, 0 < e.2.toNat := by
  intro e he
  match h with
  | .nil => cases he
  | .cons h hs =>
      rcases List.mem_cons.1 he with rfl | he
      · exact h.align_pos
      · exact hs.align_pos e he

/-- What one finds for each of some types is what they measure. -/
theorem MeasuresAll.map_eq {rs : List TypeRef} {es : List Extent} {find : TypeRef → Extent}
    (h : t.MeasuresAll rs es) (hfind : ∀ r ∈ rs, t.Measures r (find r)) : rs.map find = es := by
  match h with
  | .nil => rfl
  | .cons h hs =>
      rw [List.map_cons, h.unique (hfind _ List.mem_cons_self),
        hs.map_eq fun r hr => hfind r (List.mem_cons_of_mem _ hr)]

/-! ### Tables that operations make -/

/-- What operations on types that are held make: in step, without cycles, and with the types written
in every type that is held. -/
structure Regular (t : TypeTable) : Prop where
  inStep : t.InStep
  acyclic : t.Acyclic
  marked : t.Marked
  parts : ∀ i ∈ t.instances, ∀ p ∈ literalRefs i.partHomes i.ref, t.Held p

namespace Regular

/-- The parts of what is held are held. -/
theorem partsHeld (h : t.Regular) {r p : TypeRef} (hr : t.Held r) (hp : p ∈ t.partRefs r) :
    t.Held p := by
  by_cases hnamed : r.type.isNamed = true
  · obtain ⟨home, ty⟩ := r
    cases ty with
    | named id name package => exact (h.marked.held id p (Option.mem_toList.1 hp)).1
    | _ => cases hnamed
  · rw [Held, rtype?, Option.isSome_map] at hr
    obtain ⟨i, hi⟩ := Option.isSome_iff_exists.1 hr
    obtain ⟨hmem, rfl⟩ := instance?_mem hi
    rw [partRefs_of_not_named (Bool.eq_false_iff.2 hnamed), partHomes, hi] at hp
    exact h.parts i hmem p hp

/-- So are the components of what is held. -/
theorem componentHeld (h : t.Regular) {r c : TypeRef} (hr : t.Held r) (hc : t.ComponentRef r c) :
    t.Held c := by
  induction hc with
  | refl => exact hr
  | tail _ hp ih => exact h.partsHeld ih hp

/-- The empty table. -/
theorem empty : TypeTable.empty.Regular :=
  ⟨empty_inStep, TypeOp.empty_acyclic, .empty, List.forall_mem_nil _⟩

/-- Only the types and their definitions matter. -/
theorem congr (h : t.Regular) (hinstances : t'.instances = t.instances)
    (hnamed : t'.named = t.named) : t'.Regular := by
  obtain ⟨instances, named, layouts⟩ := t
  obtain ⟨instances', named', layouts'⟩ := t'
  obtain rfl : instances' = instances := hinstances
  obtain rfl : named' = named := hnamed
  exact ⟨⟨h.inStep.built, h.inStep.defined⟩, h.acyclic.congr (parts_congr fun _ => rfl),
    ⟨h.marked.held, h.marked.marked⟩, h.parts⟩

end Regular

/-- A type literal that an operation builds is written with types that the operation was given. -/
theorem literalRefs_product? {op : TypeOp} {i : Instance} (hi : op.product? t = some i) :
    ∀ p ∈ literalRefs i.partHomes i.ref, p ∈ op.arguments := by
  intro p hp
  cases op with
  | array home len elem =>
      cases hi
      exact hp
  | struct home fields =>
      cases hi
      have hrefs : p ∈ fieldRefs (fields.map fun f => f.type.home) home
          (fields.map fun f => ⟨f.name, f.type.type, f.embedded⟩) := hp
      rwa [fieldRefs_of_refs] at hrefs
  | _ => first | cases hi; done | (cases hi; cases hp)

/-- The entries of a table after an operation are written with types that are held. -/
theorem Regular.parts_step (h : t.Regular) {op : TypeOp} (hfits : op.Fits t)
    (hstep : TypeOp.Step t op t') :
    ∀ i ∈ t'.instances, ∀ p ∈ literalRefs i.partHomes i.ref, t'.Held p := by
  have hgrows := Grows.step hstep
  have hold : ∀ i ∈ t.instances, ∀ p ∈ literalRefs i.partHomes i.ref, t'.Held p :=
    fun i hi p hp => hgrows.held (h.parts i hi p hp)
  cases hstep with
  | refused => exact hold
  | built hentry =>
      intro i hi p hp
      rcases mem_intern hi with hi | ⟨-, rfl⟩
      · exact hold i hi p hp
      · exact hgrows.held (hfits p (literalRefs_product? hentry p hp))
  | declared =>
      intro i hi p hp
      rcases mem_intern hi with hi | ⟨-, rfl⟩
      · exact hold i hi p hp
      · cases hp
  | defined => exact hold
  | extended => exact hold

/-- Operations on types that are held make regular tables from regular tables. -/
theorem Regular.outcome (h : t.Regular) {op : TypeOp} (hfits : op.Fits t) :
    (op.outcome t).2.Regular := by
  have hstep := TypeOp.outcome_step t op
  exact ⟨(TypeOp.outcome_inStep h.inStep op).1, TypeOp.outcome_acyclic h.inStep h.acyclic op,
    h.marked.step hfits hstep, h.parts_step hfits hstep⟩

/-- Operations leave the layouts alone that are kept. -/
theorem layouts_step {op : TypeOp} (hstep : TypeOp.Step t op t') : t'.layouts = t.layouts := by
  have hintern : ∀ (t : TypeTable) (i : Instance), (t.intern i).layouts = t.layouts := by
    intro t i
    rw [intern]
    split <;> rfl
  cases hstep with
  | refused => rfl
  | built => exact hintern _ _
  | declared => exact hintern _ _
  | defined => rfl
  | extended => rfl

end TypeTable

end ScriptCore
