import ScriptCore.Proofs.Declaration.InitCycle

/-!
# The order before blocks are put back

The slots of a scope come component by component.  Between components no dependency points forward;
inside a cyclic component the forward declarations come first and the parts of the second search
follow, so what still points forward there enters a type that is intertwined with its user
(`Clear`).

Main statements: `slotsOf_emits` and `slotsOf_forwards`, which say what is emitted, and
`slotsOf_clear`.
-/

namespace ScriptCore

namespace Slot

/-- The type that a slot declares ahead. -/
def ahead? : Slot → Option Nat
  | forward t => some t
  | _ => none

/-- From slot `a` to a slot `b` after it no dependency is left open, except on a type that is
intertwined with its user; and its forward declaration is not what follows. -/
structure Clear (s : Scope) (a b : Slot) : Prop where
  target : ∀ i ∈ a.emits, ∀ j ∈ b.emits, s.DependsOn i j →
    s.isTypeAt j = true ∧ s.Intertwined i j
  ahead : ∀ i ∈ a.emits, ∀ t, b.ahead? = some t → s.DependsOn i t → ¬ s.Intertwined i t

/-- A slot that emits nothing is followed by anything. -/
theorem Clear.of_emits_eq_nil {s : Scope} {a b : Slot} (h : a.emits = []) : Clear s a b :=
  ⟨by simp [h], by simp [h]⟩

/-- Slots without a dependency between them may follow each other. -/
theorem Clear.of_not_dependsOn {s : Scope} {a b : Slot}
    (htarget : ∀ i ∈ a.emits, ∀ j ∈ b.emits, ¬ s.DependsOn i j)
    (hahead : ∀ i ∈ a.emits, ∀ t, b.ahead? = some t → ¬ s.DependsOn i t) : Clear s a b :=
  ⟨fun i hi j hj hij => absurd hij (htarget i hi j hj),
    fun i hi t ht hit => absurd hit (hahead i hi t ht)⟩

end Slot

namespace Order

open ScriptCore.Graph

variable {s : Scope} {component part : List Nat}

/-- Types that an order declares ahead. -/
def forwards (order : Order) : List Nat :=
  order.filterMap Slot.ahead?

/-- Declarations that an order emits, batch by batch. -/
def emitted (order : Order) : List Nat :=
  order.flatMap Slot.emits

/-- An order of two pieces emits what they emit. -/
@[simp] theorem emitted_append (a b : Order) : emitted (a ++ b) = emitted a ++ emitted b := by
  simp [emitted]

/-- An order of two pieces declares ahead what they do. -/
@[simp] theorem forwards_append (a b : Order) : forwards (a ++ b) = forwards a ++ forwards b := by
  simp [forwards]

/-- Forward declarations complete nothing. -/
@[simp] theorem emitted_map_forward (types : List Nat) :
    emitted (types.map Slot.forward) = [] := by
  simp [emitted, Slot.emits]

/-- Forward declarations declare their types ahead. -/
@[simp] theorem forwards_map_forward (types : List Nat) :
    forwards (types.map Slot.forward) = types := by
  induction types with
  | nil => rfl
  | cons t types ih =>
      rw [forwards] at ih
      simp [forwards, Slot.ahead?, ih]

/-- Single declarations complete themselves. -/
@[simp] theorem emitted_map_single (decls : List Nat) :
    emitted (decls.map Slot.single) = decls := by
  induction decls with
  | nil => rfl
  | cons d decls ih =>
      rw [emitted] at ih
      simp [emitted, Slot.emits, ih]

/-- Single declarations declare nothing ahead. -/
@[simp] theorem forwards_map_single (decls : List Nat) :
    forwards (decls.map Slot.single) = [] := by
  simp [forwards, Slot.ahead?]

/-! ### One component -/

/-- The slot of a part emits its members. -/
@[simp] theorem emits_slotOf (members : List Nat) :
    (partSlot.slotOf members).emits = members := by
  unfold partSlot.slotOf
  split <;> rfl

/-- The slot of a part declares nothing ahead. -/
@[simp] theorem ahead?_slotOf (members : List Nat) :
    (partSlot.slotOf members).ahead? = none := by
  unfold partSlot.slotOf
  split <;> rfl

/-- A part that is not refused becomes the slot of its members. -/
theorem partSlot_ok {sub : Graph} {slot : Slot} (h : partSlot s sub component part = .ok slot) :
    slot = partSlot.slotOf (membersAt component part) := by
  unfold partSlot at h
  dsimp only at h
  split at h
  · split at h
    · cases h
    · exact (Except.ok.inj h).symm
  · exact (Except.ok.inj h).symm

/-- Parts that are not refused become the slots of their members, in order. -/
theorem mapM_partSlot_ok {sub : Graph} {parts : List (List Nat)} {slots : Order}
    (h : parts.mapM (partSlot s sub component) = .ok slots) :
    slots = parts.map fun part => partSlot.slotOf (membersAt component part) := by
  have hmap := mapM_ok h
  clear h
  induction parts generalizing slots with
  | nil => simpa using hmap
  | cons part parts ih =>
      cases slots with
      | nil => simp at hmap
      | cons slot slots =>
          simp only [List.map_cons, List.cons.injEq] at hmap
          rw [List.map_cons, ← ih hmap.2, partSlot_ok hmap.1]

/-- What the slots of a component are: single declarations if it is not cyclic; otherwise its types
declared ahead, and then all of it, or the parts one by one if it has a constant or variable. -/
theorem componentSlots_ok {g : Graph} {slots : Order}
    (h : componentSlots s g component = .ok slots) :
    (g.isCyclic component = false ∧ slots = component.map Slot.single) ∨
      g.isCyclic component = true ∧
        (slots = (component.filter s.isTypeAt).map Slot.forward ++ [.cycle component] ∨
          slots = (component.filter s.isTypeAt).map Slot.forward ++
            (Components.ofGraph (valueGraph s g component)).map fun part =>
              partSlot.slotOf (membersAt component part)) := by
  unfold componentSlots at h
  dsimp only at h
  by_cases hcyclic : g.isCyclic component = true
  · rw [if_pos hcyclic] at h
    refine .inr ⟨hcyclic, ?_⟩
    by_cases hvalue : component.any s.isValueAt = true
    · rw [if_pos hvalue] at h
      cases hparts : (Components.ofGraph (valueGraph s g component)).mapM
          (partSlot s (valueGraph s g component) component) with
      | error e => simp [hparts, bind, Except.bind] at h
      | ok rest =>
          simp only [hparts, bind, Except.bind, pure, Except.pure, Except.ok.injEq] at h
          exact .inr (by rw [← h, mapM_partSlot_ok hparts])
    · rw [if_neg hvalue] at h
      exact .inl (Except.ok.inj h).symm
  · rw [if_neg hcyclic] at h
    exact .inl ⟨by simpa using hcyclic, (Except.ok.inj h).symm⟩

/-- The slots of a component emit its members. -/
theorem componentSlots_emitted (hnodup : component.Nodup) {slots : Order}
    (h : componentSlots s s.graph component = .ok slots) : (emitted slots).Perm component := by
  rcases componentSlots_ok h with ⟨-, rfl⟩ | ⟨-, rfl | rfl⟩
  · rw [emitted_map_single]
  · rw [emitted_append, emitted_map_forward]
    simp [emitted, Slot.emits]
  · rw [emitted_append, emitted_map_forward, List.nil_append]
    have hparts := membersAt_parts s hnodup
    simpa [emitted, List.flatMap_map] using hparts

/-- The slots of a component declare its types ahead if it is cyclic. -/
theorem componentSlots_forwards {g : Graph} {slots : Order}
    (h : componentSlots s g component = .ok slots) :
    forwards slots = if g.isCyclic component then component.filter s.isTypeAt else [] := by
  rcases componentSlots_ok h with ⟨hcyclic, rfl⟩ | ⟨hcyclic, rfl | rfl⟩
  · simp [hcyclic]
  · rw [forwards_append, forwards_map_forward, if_pos hcyclic]
    simp [forwards, Slot.ahead?]
  · rw [forwards_append, forwards_map_forward, if_pos hcyclic]
    simp [forwards, List.filterMap_map]

/-- What a slot of a component emits or declares ahead are members. -/
theorem componentSlots_mem (hnodup : component.Nodup) {slots : Order}
    (h : componentSlots s s.graph component = .ok slots) {slot : Slot} (hslot : slot ∈ slots) :
    (∀ i ∈ slot.emits, i ∈ component) ∧ ∀ t, slot.ahead? = some t → t ∈ component := by
  constructor
  · intro i hi
    exact (componentSlots_emitted hnodup h).subset (List.mem_flatMap.2 ⟨slot, hslot, hi⟩)
  · intro t ht
    have hmem : t ∈ forwards slots := List.mem_filterMap.2 ⟨slot, hslot, ht⟩
    rw [componentSlots_forwards h] at hmem
    split at hmem
    · exact List.mem_of_mem_filter hmem
    · cases hmem

/-- Forward declarations may stand before anything that is in order. -/
theorem pairwise_clear_forward_append {types : List Nat} {rest : Order}
    (hrest : rest.Pairwise (Slot.Clear s)) :
    (types.map Slot.forward ++ rest).Pairwise (Slot.Clear s) := by
  have hforward : ∀ a ∈ types.map Slot.forward, ∀ b, Slot.Clear s a b := by
    intro a ha b
    obtain ⟨t, -, rfl⟩ := List.mem_map.1 ha
    exact .of_emits_eq_nil rfl
  refine List.pairwise_append.2 ⟨?_, hrest, fun a ha b _ => hforward a ha b⟩
  exact List.pairwise_of_forall_mem_list fun a ha b _ => hforward a ha b

variable {groups : List (List Nat)}

/-- Between the parts of a component the only dependencies that point forward enter types of the
component. -/
theorem parts_clear (hgroups : s.graph.Decomposition groups) (hcomponent : component ∈ groups) :
    ((Components.ofGraph (valueGraph s s.graph component)).map fun part =>
      partSlot.slotOf (membersAt component part)).Pairwise (Slot.Clear s) := by
  have hnodup := hgroups.group_nodup hcomponent
  refine List.pairwise_map.2 ((parts_decomposition s hnodup).pairwise_not_edge.imp ?_)
  intro a b hab
  refine ⟨?_, by simp⟩
  intro i hi j hj hij
  rw [emits_slotOf, mem_membersAt] at hi hj
  obtain ⟨p, hp, hip⟩ := hi
  obtain ⟨q, hq, hjq⟩ := hj
  refine ⟨?_, Scope.intertwined_of_edge hgroups hcomponent (List.mem_of_getElem? hip)
    (List.mem_of_getElem? hjq) hij⟩
  by_contra htype
  refine hab p hp q hq ((valueGraph_edge_iff hnodup).2 ⟨i, j, hip, hjq, hij, ?_⟩)
  simpa using htype

/-- The slots of a component are in order. -/
theorem componentSlots_clear (hgroups : s.graph.Decomposition groups)
    (hcomponent : component ∈ groups) {slots : Order}
    (h : componentSlots s s.graph component = .ok slots) : slots.Pairwise (Slot.Clear s) := by
  rcases componentSlots_ok h with ⟨hcyclic, rfl⟩ | ⟨-, rfl | rfl⟩
  · refine List.pairwise_map.2 (List.pairwise_of_forall_mem_list fun i hi j hj => ?_)
    have hij : ¬ s.DependsOn i j := by
      intro hij
      have htwined := Scope.intertwined_of_edge hgroups hcomponent hi hj hij
      have hself : s.Intertwined i i :=
        ⟨htwined.1.trans htwined.2, htwined.1.trans htwined.2⟩
      rw [← Scope.isCyclic_iff_intertwined hgroups hcomponent hi, hcyclic] at hself
      cases hself
    exact .of_not_dependsOn (by simpa [Slot.emits] using hij) (by simp [Slot.ahead?])
  · exact pairwise_clear_forward_append (List.pairwise_singleton _ _)
  · exact pairwise_clear_forward_append (parts_clear hgroups hcomponent)

/-! ### All components -/

/-- The slots of several components are those of the first, then those of the rest. -/
theorem slotsOf_cons_ok {g : Graph} {rest : List (List Nat)} {order : Order}
    (h : slotsOf s g (component :: rest) = .ok order) :
    ∃ first others, componentSlots s g component = .ok first ∧ slotsOf s g rest = .ok others ∧
      order = first ++ others := by
  rw [slotsOf] at h
  cases hfirst : componentSlots s g component with
  | error e => simp [hfirst, bind, Except.bind] at h
  | ok first =>
      cases hrest : slotsOf s g rest with
      | error e => simp [hfirst, hrest, bind, Except.bind] at h
      | ok others =>
          simp only [hfirst, hrest, bind, Except.bind, pure, Except.pure, Except.ok.injEq] at h
          exact ⟨first, others, rfl, rfl, h.symm⟩

/-- The slots of components emit their members. -/
theorem slotsOf_emitted {components : List (List Nat)} (hnodup : ∀ c ∈ components, c.Nodup)
    {order : Order} (h : slotsOf s s.graph components = .ok order) :
    (emitted order).Perm components.flatten := by
  induction components generalizing order with
  | nil =>
      cases h
      exact .refl _
  | cons component rest ih =>
      obtain ⟨first, others, hfirst, hothers, rfl⟩ := slotsOf_cons_ok h
      rw [emitted_append, List.flatten_cons]
      exact (componentSlots_emitted (hnodup component (by simp)) hfirst).append
        (ih (fun c hc => hnodup c (List.mem_cons_of_mem component hc)) hothers)

/-- The slots of components declare ahead the types of the cyclic ones. -/
theorem slotsOf_forwards {g : Graph} {components : List (List Nat)} {order : Order}
    (h : slotsOf s g components = .ok order) :
    forwards order =
      components.flatMap fun c => if g.isCyclic c then c.filter s.isTypeAt else [] := by
  induction components generalizing order with
  | nil =>
      cases h
      rfl
  | cons component rest ih =>
      obtain ⟨first, others, hfirst, hothers, rfl⟩ := slotsOf_cons_ok h
      rw [forwards_append, List.flatMap_cons, componentSlots_forwards hfirst, ih hothers]

/-- What a slot of components emits or declares ahead is a member of one of them. -/
theorem slotsOf_mem {components : List (List Nat)} (hnodup : ∀ c ∈ components, c.Nodup)
    {order : Order} (h : slotsOf s s.graph components = .ok order) {slot : Slot}
    (hslot : slot ∈ order) :
    ∃ c ∈ components, (∀ i ∈ slot.emits, i ∈ c) ∧ ∀ t, slot.ahead? = some t → t ∈ c := by
  induction components generalizing order with
  | nil =>
      cases h
      cases hslot
  | cons component rest ih =>
      obtain ⟨first, others, hfirst, hothers, rfl⟩ := slotsOf_cons_ok h
      rcases List.mem_append.1 hslot with hslot | hslot
      · exact ⟨component, by simp,
          componentSlots_mem (hnodup component (by simp)) hfirst hslot⟩
      · obtain ⟨c, hc, hmem⟩ :=
          ih (fun c hc => hnodup c (List.mem_cons_of_mem component hc)) hothers hslot
        exact ⟨c, List.mem_cons_of_mem component hc, hmem⟩

/-- **Before blocks are put back, only dependencies on intertwined types point forward**, and the
forward declarations of those types come before their users. -/
theorem slotsOf_clear (hgroups : s.graph.Decomposition groups) {order : Order}
    (h : slotsOf s s.graph groups = .ok order) : order.Pairwise (Slot.Clear s) := by
  have hrest : ∀ components, (∀ c ∈ components, c ∈ groups) →
      components.Pairwise (fun a b => ∀ v ∈ a, ∀ w ∈ b, ¬ s.graph.Edge v w) →
      ∀ order, slotsOf s s.graph components = .ok order → order.Pairwise (Slot.Clear s) := by
    intro components hsub hedges
    induction components with
    | nil =>
        intro order h
        cases h
        exact .nil
    | cons component rest ih =>
        intro order h
        have hsubRest : ∀ c ∈ rest, c ∈ groups :=
          fun c hc => hsub c (List.mem_cons_of_mem component hc)
        obtain ⟨first, others, hfirst, hothers, rfl⟩ := slotsOf_cons_ok h
        obtain ⟨hcross, hedges⟩ := List.pairwise_cons.1 hedges
        have hmember := hsub component (by simp)
        refine List.pairwise_append.2
          ⟨componentSlots_clear hgroups hmember hfirst, ih hsubRest hedges others hothers, ?_⟩
        intro a ha b hb
        have hacomponent := componentSlots_mem (hgroups.group_nodup hmember) hfirst ha
        obtain ⟨c, hc, hbc⟩ :=
          slotsOf_mem (fun c hc => hgroups.group_nodup (hsubRest c hc)) hothers hb
        have hnone : ∀ i ∈ component, ∀ j ∈ c, ¬ s.DependsOn i j := fun i hi j hj hij =>
          hcross c hc i hi j hj (Scope.graph_edge_iff.2 hij)
        exact .of_not_dependsOn
          (fun i hi j hj => hnone i (hacomponent.1 i hi) j (hbc.1 j hj))
          (fun i hi t ht => hnone i (hacomponent.1 i hi) t (hbc.2 t ht))
  exact hrest groups (fun c hc => hc) hgroups.pairwise_not_edge order h

end Order

end ScriptCore
