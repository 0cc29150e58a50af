import ScriptCore.Proofs.Types.Extent

/-!
# Layouts that are kept

A struct is laid out when this is first asked for and keeps its layout.  What is asked may come
between the operations that build and define types, and a named type that stands for nothing takes
no room when it is asked for then.

1. One question (`sizeAlignWith_answers`, by induction along the ways inside the type): if the kept
   layouts of certain types are what their fields measure, so are those that the question adds, and
   a complete type is answered with what it measures.
2. Operations and questions in any order (`LayoutEvent.FitsAll.kept`): this goes on as long as each
   question that touches one of these types finds it complete.
3. A struct whose layout and whose components' layouts were asked for in time
   (`LayoutEvent.Timely`) has a sound layout, if there is room for its fields
   (`LayoutEvent.structLayout?_sound`).
4. A layout that was asked for too early is kept and is wrong for good
   (`LayoutEvent.early_layout`).
-/

namespace ScriptCore

open Layout (Extent)

namespace TypeTable

/-- The layout is what the fields of the type need. -/
def Lays (t : TypeTable) (r : TypeRef) (layout : Layout) : Prop :=
  r.type.isNamed = false ∧ t.Held r ∧
    ∃ es, t.MeasuresAll (t.partRefs r) es ∧ layout = Layout.ofFields es

/-- The sizes and alignments of the fields of a struct type, as one finds them at this moment. -/
def fieldExtents (t : TypeTable) (r : TypeRef) : List Extent :=
  (t.partRefs (t.resolve r)).map fun f => ((sizeAlign f).run t).1

/-- A table that differs from `t` in the layouts that are kept, those of the types in `C` being what
their fields need. -/
structure Kept (C : TypeRef → Prop) (t s : TypeTable) : Prop where
  instances : s.instances = t.instances
  named : s.named = t.named
  right : ∀ r layout, (r, layout) ∈ s.layouts → C r → t.Lays r layout

/-- The computation keeps layouts right, and answers with what the type measures if the type is one
of those in `C` and complete. -/
def Answers (C : TypeRef → Prop) (t : TypeTable) (r : TypeRef) (x : LayoutM Extent) : Prop :=
  ∀ s, Kept C t s →
    Kept C t (x.run s).2 ∧ (C r → t.Complete r.type → t.Measures r (x.run s).1)

variable {C : TypeRef → Prop} {t t' s : TypeTable}

/-- What the fields of a type need they need in every table that grows out of this one. -/
theorem Lays.grows (hg : t.Grows t') {r : TypeRef} {layout : Layout} (h : t.Lays r layout) :
    t'.Lays r layout := by
  obtain ⟨hliteral, hheld, es, hes, hlayout⟩ := h
  refine ⟨hliteral, hg.held hheld, es, ?_, hlayout⟩
  rw [hg.partRefs hheld hliteral]
  exact hes.grows hg

/-- A struct type measures what its layout says. -/
theorem Lays.measures {home : Nat} {fs : List Field} {layout : Layout}
    (h : t.Lays ⟨home, .struct fs⟩ layout) :
    t.Measures ⟨home, .struct fs⟩ (layout.size, layout.align) := by
  obtain ⟨-, hheld, es, hes, rfl⟩ := h
  exact .struct hheld hes

/-- A layout that is found is kept. -/
theorem mem_of_layout? {r : TypeRef} {layout : Layout} (h : t.layout? r = some layout) :
    (r, layout) ∈ t.layouts := by
  obtain ⟨⟨r', layout'⟩, hfind, rfl⟩ := Option.map_eq_some_iff.1 h
  have href : r' = r := by simpa using List.find?_some hfind
  rw [← href]
  exact List.mem_of_find?_eq_some hfind

namespace Kept

/-- The universes of parts are those of the table. -/
theorem partHomes (h : Kept C t s) (r : TypeRef) : s.partHomes r = t.partHomes r := by
  rw [TypeTable.partHomes, instance?, h.instances, TypeTable.partHomes, instance?]

/-- The parts are those of the table. -/
theorem partRefs (h : Kept C t s) (r : TypeRef) : s.partRefs r = t.partRefs r := by
  rw [TypeTable.partRefs, TypeTable.partRefs, h.partHomes]
  obtain ⟨home, ty⟩ := r
  cases ty with
  | named id name package => exact congrArg Option.toList (definition?_congr h.named id)
  | _ => rfl

/-- Types stand for what they stand for in the table. -/
theorem resolve (h : Kept C t s) (r : TypeRef) : s.resolve r = t.resolve r := by
  rw [TypeTable.resolve, TypeTable.resolve]
  obtain ⟨home, ty⟩ := r
  cases ty with
  | named id name package =>
      exact congrArg (fun u => Option.getD u _) (definition?_congr h.named id)
  | _ => rfl

/-- One more layout is kept. -/
theorem add (h : Kept C t s) {r : TypeRef} {layout : Layout} (hlays : C r → t.Lays r layout) :
    Kept C t { s with layouts := s.layouts ++ [(r, layout)] } := by
  refine ⟨h.instances, h.named, fun q l hmem hq => ?_⟩
  rcases List.mem_append.1 hmem with hold | hnew
  · exact h.right q l hold hq
  · cases List.mem_singleton.1 hnew
    exact hlays hq

end Kept

/-! ### One question -/

/-- Placing fields whose types are answered. -/
theorem placeWith_answers {answer : Nat → LayoutM Extent} {home : Nat} {fs : List Field}
    {homes : List Nat}
    (h : ∀ f ∈ fieldRefs homes home fs, Answers C t f (sizeAlignWith answer f.home f.type))
    (p : Layout.Placement) (hs : Kept C t s) :
    Kept C t ((placeWith answer homes home p fs).run s).2 ∧
      ((∀ f ∈ fieldRefs homes home fs, C f ∧ t.Complete f.type) →
        ∃ es, t.MeasuresAll (fieldRefs homes home fs) es ∧
          ((placeWith answer homes home p fs).run s).1 = es.foldl Layout.Placement.place p) := by
  induction fs generalizing homes p s with
  | nil =>
      rw [placeWith]
      exact ⟨hs, fun _ => ⟨[], .nil, rfl⟩⟩
  | cons f fs ih =>
      rw [placeWith, StateT.run_bind]
      obtain ⟨hkept, hmeasures⟩ := h ⟨homes.headD home, f.type⟩ List.mem_cons_self s hs
      generalize (sizeAlignWith answer (homes.headD home) f.type).run s = found at hkept hmeasures
      obtain ⟨e, s'⟩ := found
      obtain ⟨hrest, hplaced⟩ :=
        ih (fun g hg => h g (List.mem_cons_of_mem _ hg)) (p.place e) hkept
      refine ⟨hrest, fun hall => ?_⟩
      obtain ⟨hf, hcomplete⟩ := hall _ List.mem_cons_self
      obtain ⟨es, hes, hfold⟩ := hplaced fun g hg => hall g (List.mem_cons_of_mem _ hg)
      exact ⟨e :: es, .cons (hmeasures hf hcomplete) hes, hfold⟩

/-- The layout of a struct is the one that is kept, or it is made of its fields and kept. -/
theorem structLayoutWith_run (answer : Nat → LayoutM Extent) (home : Nat) (ty : Ty)
    (fs : List Field) (s : TypeTable) :
    (structLayoutWith answer home ty fs).run s =
      match s.layout? ⟨home, ty⟩ with
      | some layout => (layout, s)
      | none =>
        let placed := (placeWith answer (s.partHomes ⟨home, ty⟩) home .start fs).run s
        (placed.1.finish, { placed.2 with
          layouts := placed.2.layouts ++ [(⟨home, ty⟩, placed.1.finish)] }) := by
  rw [structLayoutWith, keepLayout, StateT.run_bind]
  change StateT.run (match s.layout? ⟨home, ty⟩ with
    | some layout => _
    | none => _) s = _
  cases s.layout? ⟨home, ty⟩ with
  | some layout => rfl
  | none => rfl

/-- The layout of a struct type whose fields are answered. -/
theorem structLayoutWith_answers {answer : Nat → LayoutM Extent} {home : Nat} {fs : List Field}
    (hheld : t.Held ⟨home, .struct fs⟩)
    (hparts : C ⟨home, .struct fs⟩ →
      ∀ f ∈ t.partRefs ⟨home, .struct fs⟩, C f ∧ t.Complete f.type)
    (h : ∀ f ∈ t.partRefs ⟨home, .struct fs⟩,
      Answers C t f (sizeAlignWith answer f.home f.type))
    (hs : Kept C t s) :
    Kept C t ((structLayoutWith answer home (.struct fs) fs).run s).2 ∧
      (C ⟨home, .struct fs⟩ → t.Lays ⟨home, .struct fs⟩
        ((structLayoutWith answer home (.struct fs) fs).run s).1) := by
  rw [structLayoutWith_run]
  cases hfound : s.layout? ⟨home, .struct fs⟩ with
  | some layout => exact ⟨hs, hs.right _ _ (mem_of_layout? hfound)⟩
  | none =>
      rw [hs.partHomes]
      obtain ⟨hkept, hplaced⟩ := placeWith_answers h .start hs
      have hlays : C ⟨home, .struct fs⟩ → t.Lays ⟨home, .struct fs⟩
          ((placeWith answer (t.partHomes ⟨home, .struct fs⟩) home .start fs).run s).1.finish := by
        intro hr
        obtain ⟨es, hes, hfold⟩ := hplaced (hparts hr)
        exact ⟨rfl, hheld, es, hes, congrArg Layout.Placement.finish hfold⟩
      exact ⟨hkept.add hlays, hlays⟩

section Question

variable (ht : t.Regular) (hclosed : ∀ r, t.Held r → C r → ∀ p ∈ t.partRefs r, C p)

include ht hclosed

/-- **One question.**  Layouts stay right if every struct of `C` inside the type is complete. -/
theorem sizeAlignWith_answers (ty : Ty) {home n : Nat} (hn : t.depth ty ≤ n)
    (hheld : t.Held ⟨home, ty⟩)
    (htimely : ∀ x, t.ComponentRef ⟨home, ty⟩ x → (∃ fs, x.type = .struct fs) → C x →
      t.Complete x.type) :
    Answers C t ⟨home, ty⟩ (sizeAlignWith (namedSizeAlign n) home ty) := by
  induction ty using ht.acyclic.wellFounded.induction generalizing n home with
  | _ ty ih =>
      -- The induction hypothesis, for a part with its universe.
      have hpart : ∀ p ∈ t.partRefs ⟨home, ty⟩, ∀ {m}, t.depth p.type ≤ m →
          Answers C t p (sizeAlignWith (namedSizeAlign m) p.home p.type) := by
        intro p hp m hm
        exact ih p.type (type_mem_parts hp) hm (ht.partsHeld hheld hp)
          fun x hx => htimely x (.head hp hx)
      cases ty with
      | named id name package =>
          rw [sizeAlignWith]
          intro s hs
          cases hu : t.definition? id with
          | none =>
              rw [namedSizeAlign_none ((definition?_congr hs.named id).trans hu)]
              refine ⟨hs, fun _ hcomplete => ?_⟩
              obtain ⟨u, hu'⟩ := hcomplete.definition?
              rw [hu] at hu'
              cases hu'
          | some u =>
              have hmem : u ∈ t.partRefs ⟨home, .named id name package⟩ := Option.mem_toList.2 hu
              have hlt := depth_definition ht.acyclic hu name package
              obtain ⟨m, rfl⟩ := Nat.exists_eq_add_of_lt (Nat.lt_of_lt_of_le hlt hn)
              rw [namedSizeAlign_run, definition?_congr hs.named, hu]
              obtain ⟨hkept, hmeasures⟩ := hpart u hmem (Nat.le_add_right _ _) s hs
              refine ⟨hkept, fun hr hcomplete => .named hu (hmeasures ?_ ?_)⟩
              · exact hclosed _ hheld hr u hmem
              · exact hcomplete.part hmem
      | array len e =>
          rw [sizeAlignWith]
          intro s hs
          have hmem : ⟨(t.partHomes ⟨home, .array len e⟩).headD home, e⟩ ∈
              t.partRefs ⟨home, .array len e⟩ := List.mem_singleton.2 rfl
          have hle := Nat.le_trans (depth_part (type_mem_parts hmem)) hn
          obtain ⟨hkept, hmeasures⟩ := hpart _ hmem hle s hs
          rw [← hs.partHomes] at hmem hkept hmeasures
          refine ⟨hkept, fun hr hcomplete => .array hheld ?_⟩
          rw [← hs.partHomes]
          exact hmeasures (hclosed _ hheld hr _ hmem) (hcomplete.part hmem)
      | struct fs =>
          rw [sizeAlignWith]
          intro s hs
          have hfields : ∀ f ∈ t.partRefs ⟨home, .struct fs⟩,
              Answers C t f (sizeAlignWith (namedSizeAlign n) f.home f.type) := fun f hf =>
            hpart f hf (Nat.le_trans (depth_part (type_mem_parts hf)) hn)
          obtain ⟨hkept, hlays⟩ := structLayoutWith_answers hheld (fun hr f hf =>
            ⟨hclosed _ hheld hr f hf, (htimely _ .refl ⟨fs, rfl⟩ hr).part hf⟩) hfields hs
          exact ⟨hkept, fun hr _ => (hlays hr).measures⟩
      | _ =>
          simp only [sizeAlignWith]
          exact fun s hs => ⟨hs, fun _ _ => .leaf rfl rfl⟩

/-- A question about the size and the alignment of a type. -/
theorem sizeAlign_answers {r : TypeRef} (hheld : t.Held r)
    (htimely : ∀ x, t.ComponentRef r x → (∃ fs, x.type = .struct fs) → C x → t.Complete x.type) :
    Answers C t r (sizeAlign r) := by
  intro s hs
  change Kept C t ((sizeAlignWith (namedSizeAlign s.named.length) r.home r.type).run s).2 ∧ _
  exact sizeAlignWith_answers ht hclosed r.type (hs.named ▸ t.depth_le r.type) hheld htimely s hs

/-- A question about the offsets in a struct. -/
theorem structLayout?_answers {r : TypeRef} (hheld : t.Held r)
    (htimely : ∀ x, t.ComponentRef r x → (∃ fs, x.type = .struct fs) → C x → t.Complete x.type)
    (hs : Kept C t s) :
    Kept C t ((structLayout? r).run s).2 ∧ ∀ fs, (t.resolve r).type = .struct fs →
      ∃ layout, ((structLayout? r).run s).1 = some layout ∧
        (C (t.resolve r) → t.Lays (t.resolve r) layout) := by
  have hcomponent := t.componentRef_resolve r
  have hheld' := ht.componentHeld hheld hcomponent
  rw [structLayout?_run, hs.resolve, hs.named]
  generalize hu : t.resolve r = u at hcomponent hheld' ⊢
  obtain ⟨home, ty⟩ := u
  cases ty with
  | struct fs =>
      have hfields : ∀ f ∈ t.partRefs ⟨home, .struct fs⟩,
          Answers C t f (sizeAlignWith (namedSizeAlign t.named.length) f.home f.type) :=
        fun f hf => sizeAlignWith_answers ht hclosed f.type (t.depth_le _)
          (ht.partsHeld hheld' hf) fun x hx => htimely x ((hcomponent.tail hf).trans hx)
      obtain ⟨hkept, hlays⟩ := structLayoutWith_answers hheld' (fun hr f hf =>
        ⟨hclosed _ hheld' hr f hf, (htimely _ hcomponent ⟨fs, rfl⟩ hr).part hf⟩) hfields hs
      exact ⟨hkept, fun _ _ => ⟨_, rfl, hlays⟩⟩
  | _ => exact ⟨hs, fun fs h => nomatch h⟩

end Question

/-- **One struct.**  If the layouts that are kept of the components of a complete struct type are
right, its layout is sound, if there is room for its fields. -/
theorem Kept.structLayout?_measured {r : TypeRef} {fs : List Field} (ht : t.Regular)
    (hkept : Kept (t.ComponentRef r) t t) (hr : t.Held r)
    (hstruct : t.underlying r.type = .struct fs) (hcomplete : t.Complete r.type)
    (hroom : Layout.room (t.fieldExtents r) < UInt64.size) :
    ∃ layout t', (structLayout? r).run t = (some layout, t') ∧
      t'.fieldExtents r = t.fieldExtents r ∧ layout.Sound (t'.fieldExtents r) ∧
      ((sizeAlign r).run t').1 = (layout.size, layout.align) := by
  have hclosed : ∀ x, t.Held x → t.ComponentRef r x → ∀ p ∈ t.partRefs x, t.ComponentRef r p :=
    fun x _ hx p hp => hx.tail hp
  have htimely : ∀ c, t.ComponentRef r c → ∀ x, t.ComponentRef c x → (∃ fs, x.type = .struct fs) →
      t.ComponentRef r x → t.Complete x.type := fun _ _ x _ _ hx => hcomplete.component hx
  -- Components are answered with what they measure, now and after the layout was asked for.
  have hanswer : ∀ s, Kept (t.ComponentRef r) t s → ∀ c, t.ComponentRef r c →
      t.Measures c ((sizeAlign c).run s).1 := fun s hs c hc =>
    (sizeAlign_answers ht hclosed (ht.componentHeld hr hc) (htimely c hc) s hs).2 hc
      (hcomplete.component hc)
  have hcomponent := t.componentRef_resolve r
  obtain ⟨hkept', hlayout⟩ :=
    structLayout?_answers ht hclosed hr (htimely r .refl) hkept
  obtain ⟨layout, hrun, hlays⟩ := hlayout fs (by rw [resolve_type, hstruct])
  obtain ⟨-, hheld, es, hes, rfl⟩ := hlays hcomponent
  have hextents : ∀ s, Kept (t.ComponentRef r) t s → s.fieldExtents r = es := by
    intro s hs
    rw [fieldExtents, hs.resolve, hs.partRefs]
    exact hes.map_eq fun f hf => hanswer s hs f (hcomponent.tail hf)
  rw [hextents t hkept] at hroom
  refine ⟨_, ((structLayout? r).run t).2, Prod.ext hrun rfl, ?_, ?_, ?_⟩
  · rw [hextents _ hkept', hextents t hkept]
  · rw [hextents _ hkept']
    exact Layout.ofFields_sound hes.align_pos hroom
  · have hmeasures : t.Measures r ((Layout.ofFields es).size, (Layout.ofFields es).align) := by
      refine .of_resolve ?_
      have htype := (resolve_type (t := t) r).trans hstruct
      generalize t.resolve r = u at hes hheld htype
      obtain ⟨home, ty⟩ := u
      obtain rfl : ty = .struct fs := htype
      exact .struct hheld hes
    exact (hanswer _ hkept' r .refl).unique hmeasures

end TypeTable

/-! ### Operations and questions in any order -/

/-- An operation on types, a question about the size or the alignment of a type, or one about the
offsets in a struct type. -/
inductive LayoutEvent where
  | op (op : TypeOp)
  | extent (r : TypeRef)
  | offsets (r : TypeRef)

namespace LayoutEvent

/-- The type about which something is asked. -/
def asks? : LayoutEvent → Option TypeRef
  | op _ => none
  | extent r | offsets r => some r

/-- The table after an operation or a question. -/
def after (t : TypeTable) : LayoutEvent → TypeTable
  | op o => (o.outcome t).2
  | extent r => ((TypeTable.sizeAlign r).run t).2
  | offsets r => ((TypeTable.structLayout? r).run t).2

/-- The types that an operation is given and the type about which one asks are held. -/
def Fits (t : TypeTable) : LayoutEvent → Prop
  | op o => o.Fits t
  | extent r | offsets r => t.Held r

instance (t : TypeTable) (e : LayoutEvent) : Decidable (e.Fits t) :=
  match e with
  | op o => inferInstanceAs (Decidable (o.Fits t))
  | extent r | offsets r => inferInstanceAs (Decidable (t.Held r))

/-- The same for operations and questions one after the other. -/
def FitsAll : List LayoutEvent → TypeTable → Prop
  | [], _ => True
  | e :: es, t => e.Fits t ∧ FitsAll es (e.after t)

instance FitsAll.decidable : (es : List LayoutEvent) → (t : TypeTable) → Decidable (FitsAll es t)
  | [], _ => inferInstanceAs (Decidable True)
  | e :: es, t =>
    have := FitsAll.decidable es (e.after t)
    inferInstanceAs (Decidable (_ ∧ _))

/-- The table after operations and questions. -/
def afterAll (es : List LayoutEvent) (t : TypeTable) : TypeTable :=
  es.foldl after t

/-- The table after operations and questions that start without types. -/
abbrev tableAfter (es : List LayoutEvent) : TypeTable :=
  afterAll es .empty

/-- Whatever is asked about a type, the structs of `C` inside that type are complete by then. -/
def TimelyFor (C : TypeRef → Prop) : List LayoutEvent → TypeTable → Prop
  | [], _ => True
  | e :: es, t =>
    (∀ q, e.asks? = some q → ∀ x, t.ComponentRef q x → (∃ fs, x.type = .struct fs) → C x →
      t.Complete x.type) ∧ TimelyFor C es (e.after t)

/-- Nothing was asked about a type while a struct inside it, which is a component of `r` in the end,
was not complete. -/
def Timely (es : List LayoutEvent) (r : TypeRef) : Prop :=
  TimelyFor ((tableAfter es).ComponentRef r) es .empty

variable {C : TypeRef → Prop} {t : TypeTable}

/-- What a question leaves behind. -/
theorem kept_of_asks {e : LayoutEvent} {q : TypeRef} (ht : t.Regular) (hq : e.asks? = some q)
    (hfits : e.Fits t) (hclosed : ∀ r, t.Held r → C r → ∀ p ∈ t.partRefs r, C p)
    (htimely : ∀ x, t.ComponentRef q x → (∃ fs, x.type = .struct fs) → C x → t.Complete x.type)
    (hright : ∀ r layout, (r, layout) ∈ t.layouts → C r → t.Lays r layout) :
    TypeTable.Kept C t (e.after t) := by
  have hkept : TypeTable.Kept C t t := ⟨rfl, rfl, hright⟩
  cases e with
  | op o => cases hq
  | extent r =>
      cases hq
      exact (TypeTable.sizeAlign_answers ht hclosed hfits htimely t hkept).1
  | offsets r =>
      cases hq
      exact (TypeTable.structLayout?_answers ht hclosed hfits htimely hkept).1

/-- After an operation or a question the table is regular and has grown. -/
theorem after_regular {e : LayoutEvent} (ht : t.Regular) (hfits : e.Fits t) :
    (e.after t).Regular ∧ t.Grows (e.after t) := by
  cases hq : e.asks? with
  | none =>
      cases e with
      | op o => exact ⟨ht.outcome hfits, .step (TypeOp.outcome_step t o)⟩
      | extent r => cases hq
      | offsets r => cases hq
  | some q =>
      -- A question changes nothing but the layouts, whatever is kept.
      obtain ⟨hinstances, hnamed, -⟩ := kept_of_asks (C := fun _ => False) ht hq hfits
        (fun _ _ h => h.elim) (fun _ _ _ h => h.elim) (fun _ _ _ h => h.elim)
      refine ⟨ht.congr hinstances hnamed, fun r i hi => ?_, fun id u hu => ?_⟩
      · rwa [TypeTable.instance?, hinstances]
      · rwa [TypeTable.definition?_congr hnamed]

/-- The layouts kept of the types in `C` stay right. -/
theorem after_right {e : LayoutEvent} (ht : t.Regular) (hfits : e.Fits t)
    (hclosed : ∀ r, t.Held r → C r → ∀ p ∈ t.partRefs r, C p)
    (htimely : ∀ q, e.asks? = some q → ∀ x, t.ComponentRef q x → (∃ fs, x.type = .struct fs) →
      C x → t.Complete x.type)
    (hright : ∀ r layout, (r, layout) ∈ t.layouts → C r → t.Lays r layout) :
    ∀ r layout, (r, layout) ∈ (e.after t).layouts → C r → (e.after t).Lays r layout := by
  obtain ⟨-, hgrows⟩ := after_regular ht hfits
  intro r layout hmem hr
  refine TypeTable.Lays.grows hgrows ?_
  cases hq : e.asks? with
  | none =>
      cases e with
      | op o =>
          rw [after, TypeTable.layouts_step (TypeOp.outcome_step t o)] at hmem
          exact hright r layout hmem hr
      | extent r => cases hq
      | offsets r => cases hq
  | some q => exact (kept_of_asks ht hq hfits hclosed (htimely q hq) hright).right r layout hmem hr

/-- Tables stay regular and grow. -/
theorem FitsAll.regular {es : List LayoutEvent} (hfits : FitsAll es t) (ht : t.Regular) :
    (afterAll es t).Regular ∧ t.Grows (afterAll es t) := by
  induction es generalizing t with
  | nil => exact ⟨ht, .refl t⟩
  | cons e es ih =>
      obtain ⟨hregular, hgrows⟩ := after_regular ht hfits.1
      obtain ⟨hend, hrest⟩ := ih hfits.2 hregular
      exact ⟨hend, hgrows.trans hrest⟩

/-- **Operations and questions in any order** keep the layouts of the types in `C` right, if what is
asked is asked in time. -/
theorem FitsAll.kept {es : List LayoutEvent} (hfits : FitsAll es t) (ht : t.Regular)
    (hclosed : ∀ r, C r → ∀ p ∈ (afterAll es t).partRefs r, C p) (htimely : TimelyFor C es t)
    (hright : ∀ r layout, (r, layout) ∈ t.layouts → C r → t.Lays r layout) :
    TypeTable.Kept C (afterAll es t) (afterAll es t) := by
  induction es generalizing t with
  | nil => exact ⟨rfl, rfl, hright⟩
  | cons e es ih =>
      obtain ⟨hgood, -⟩ := after_regular ht hfits.1
      obtain ⟨-, hgrows⟩ := FitsAll.regular hfits ht
      have hclosed' : ∀ r, t.Held r → C r → ∀ p ∈ t.partRefs r, C p := fun r hr hC p hp =>
        hclosed r hC p (hgrows.mem_partRefs hr hp)
      exact ih hfits.2 hgood hclosed htimely.2 (after_right ht hfits.1 hclosed' htimely.1 hright)

/-- **Layouts are sound.**  After operations and questions in any order, a struct type whose named
components all stand for something is laid out as the sizes and alignments require that its fields
have now, if nothing was asked about its component structs before they were complete and there is
room for its fields. -/
theorem structLayout?_sound (es : List LayoutEvent) (hfits : FitsAll es .empty) {r : TypeRef}
    {fs : List Field} (hr : (tableAfter es).Held r)
    (hstruct : (tableAfter es).underlying r.type = .struct fs)
    (hcomplete : (tableAfter es).Complete r.type) (htimely : Timely es r)
    (hroom : Layout.room ((tableAfter es).fieldExtents r) < UInt64.size) :
    ∃ layout t', (TypeTable.structLayout? r).run (tableAfter es) = (some layout, t') ∧
      t'.fieldExtents r = (tableAfter es).fieldExtents r ∧ layout.Sound (t'.fieldExtents r) ∧
      ((TypeTable.sizeAlign r).run t').1 = (layout.size, layout.align) := by
  obtain ⟨hregular, -⟩ := FitsAll.regular hfits .empty
  have hclosed : ∀ x, (tableAfter es).ComponentRef r x → ∀ p ∈ (tableAfter es).partRefs x,
      (tableAfter es).ComponentRef r p := fun x hx p hp => hx.tail hp
  have hkept := hfits.kept .empty hclosed htimely fun _ _ h => nomatch h
  exact hkept.structLayout?_measured hregular hr hstruct hcomplete hroom

/-- A named type for numbers. -/
def number : TypeRef := ⟨0, .named 0 "Number" none⟩

/-- Numbers with a sign next to them. -/
def entry : TypeRef := ⟨0, .struct [⟨"number", number.type, false⟩, ⟨"sign", .basic .int8, false⟩]⟩

/-- The declaration of numbers and the entry around them. -/
def declared : List LayoutEvent :=
  [.op (.named 0 "Number" none), .op (.basic 0 .int8),
    .op (.struct 0 [⟨"number", number, false⟩, ⟨"sign", ⟨0, .basic .int8⟩, false⟩])]

/-- The definition of numbers. -/
def defined : List LayoutEvent :=
  [.op (.basic 0 .int), .op (.setUnderlying number ⟨0, .basic .int⟩)]

/-- Numbers are asked for before they are defined, the entry after. -/
def prompt : List LayoutEvent :=
  declared ++ [.extent number] ++ defined ++ [.offsets entry]

/-- The components of the entry. -/
def contents : List TypeRef :=
  [entry, number, ⟨0, .basic .int8⟩, ⟨0, .basic .int⟩]

/-- Asked for in time, the entry has a sound layout. -/
theorem prompt_layout :
    FitsAll prompt .empty ∧ ∃ layout t',
      (TypeTable.structLayout? entry).run (tableAfter prompt) = (some layout, t') ∧
      t'.fieldExtents entry = (tableAfter prompt).fieldExtents entry ∧
      layout.Sound (t'.fieldExtents entry) ∧
      ((TypeTable.sizeAlign entry).run t').1 = (layout.size, layout.align) := by
  have hfits : FitsAll prompt .empty := by decide +kernel
  have hcomplete : ∀ t : TypeTable,
      (∀ x ∈ contents.map TypeRef.type, ∀ y ∈ t.parts x, y ∈ contents.map TypeRef.type) →
      (∀ x ∈ contents.map TypeRef.type, t.Defined x) → t.Complete entry.type :=
    fun t hclosed hdefined c hc => hdefined c (hc.mem hclosed List.mem_cons_self)
  have hop : ∀ (C : TypeRef → Prop) (t : TypeTable) (o : TypeOp) (q : TypeRef),
      (op o).asks? = some q → ∀ x, t.ComponentRef q x → (∃ fs, x.type = .struct fs) → C x →
        t.Complete x.type := fun _ _ _ _ h => nomatch h
  have htimely : Timely prompt entry := by
    refine ⟨hop _ _ _, hop _ _ _, hop _ _ _, ?_, hop _ _ _, hop _ _ _, ?_, trivial⟩
    · -- There is no struct in numbers.
      rintro _ ⟨⟩ x hx ⟨fs, hfs⟩ -
      have hmem : x ∈ [number] := hx.mem (by decide +kernel) List.mem_cons_self
      rw [List.mem_singleton.1 hmem] at hfs
      cases hfs
    · rintro _ ⟨⟩ x hx ⟨fs, hfs⟩ -
      have hmem : x ∈ contents := hx.mem (by decide +kernel) List.mem_cons_self
      have hstruct : ∀ x ∈ contents, x.type.shape = .struct → x = entry := by decide +kernel
      rw [hstruct x hmem (by rw [hfs]; rfl)]
      exact hcomplete _ (by decide +kernel) (by decide +kernel)
  exact ⟨hfits, structLayout?_sound prompt hfits (by decide +kernel) rfl
    (hcomplete _ (by decide +kernel) (by decide +kernel)) htimely (by decide +kernel)⟩

/-- A layout that was asked for before the numbers were defined is kept: the sign lies inside the
number. -/
theorem early_layout :
    let early := declared ++ [.offsets entry] ++ defined
    FitsAll early .empty ∧ (tableAfter early).Held entry ∧
      (tableAfter early).Complete entry.type ∧
      Layout.room ((tableAfter early).fieldExtents entry) < UInt64.size ∧
      ((TypeTable.structLayout? entry).run (tableAfter early)).1 = some ⟨[0, 0], 1, 1⟩ ∧
      (tableAfter early).fieldExtents entry = [(8, 8), (1, 1)] ∧
      ¬Layout.Sound ⟨[0, 0], 1, 1⟩ [(8, 8), (1, 1)] := by
  intro early
  have hdefined : ∀ c ∈ contents.map TypeRef.type, (tableAfter early).Defined c := by
    decide +kernel
  refine ⟨by decide +kernel, by decide +kernel, fun c hc => ?_, by decide +kernel,
    by decide +kernel, by decide +kernel, fun hsound => ?_⟩
  · exact hdefined c (hc.mem (by decide +kernel) List.mem_cons_self)
  · obtain ⟨stop, hpacked, -⟩ := hsound.packed
    cases hpacked with
    | cons _ _ hrest =>
        cases hrest with
        | cons _ hafter _ => exact absurd hafter (by decide)

end LayoutEvent

end ScriptCore
