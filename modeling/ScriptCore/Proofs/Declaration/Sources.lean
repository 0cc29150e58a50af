import ScriptCore.Proofs.Declaration.Batches
import ScriptCore.Proofs.Graph.Sources

/-!
# Declarations on which nothing depends

If nothing depends on a declaration and it belongs to no block, then it is emitted alone, and such
declarations are emitted in the order in which they were loaded, whatever comes between them.

Main statements: `Rearranged.filter_eq` (putting blocks back moves none of them) and
`Order.ofScope_unused`.
-/

namespace ScriptCore

/-- Nothing depends on the `i`-th declaration, and it belongs to no block. -/
structure Scope.Unused (s : Scope) (i : Nat) : Prop where
  source : ∀ j, ¬ s.DependsOn j i
  free : ∀ block, ¬ s.InBlock block i

/-- What is not used is a source of the dependency graph. -/
theorem Scope.Unused.isSource {s : Scope} {i : Nat} (h : s.Unused i) : s.graph.IsSource i :=
  fun j hj => h.source j (graph_edge_iff.1 hj)

namespace Order

variable {s : Scope} {order order' : Order} {component : List Nat} {groups : List (List Nat)}

/-- The component of an unused declaration is one slot. -/
theorem componentSlots_unused (hgroups : s.graph.Decomposition groups)
    (hcomponent : component ∈ groups) {slots : Order}
    (h : componentSlots s s.graph component = .ok slots) {i : Nat} (hi : i ∈ component)
    (hunused : s.Unused i) : component = [i] ∧ slots = [.single i] := by
  have hone : component = [i] := hgroups.group_of_source hcomponent hi hunused.isSource
  have hacyclic : s.graph.isCyclic component = false := by
    rw [hone, Graph.isCyclic]
    simpa [Graph.Edge] using hunused.isSource i
  refine ⟨hone, ?_⟩
  rcases componentSlots_ok h with ⟨-, rfl⟩ | ⟨hcyclic, -⟩
  · rw [hone, List.map_singleton]
  · rw [hacyclic] at hcyclic
    cases hcyclic

/-- The order is the slots of the components with the blocks put back. -/
theorem ofScope_rearranged (h : ofScope s = .ok order) :
    ∃ initial, slotsOf s s.graph (Components.ofGraph s.graph) = .ok initial ∧
      (emitted initial).Perm (List.range s.decls.size) ∧ Rearranged s initial order := by
  unfold ofScope at h
  cases hslots : slotsOf s s.graph (Components.ofGraph s.graph) with
  | error e => simp [hslots, bind, Except.bind] at h
  | ok initial =>
      simp only [hslots, bind, Except.bind, pure, Except.pure, Except.ok.injEq] at h
      have hgroups := Components.ofGraph_decomposition s.graph_closed
      have honce : (emitted initial).Perm (List.range s.decls.size) := by
        rw [← Scope.graph_size]
        exact (slotsOf_emitted (fun c hc => hgroups.group_nodup hc) hslots).trans hgroups.complete
      exact ⟨initial, rfl, honce,
        h ▸ restoreBlocks_rearranged (s := s) (honce.nodup_iff.2 List.nodup_range)⟩

section
variable {p : Nat → Bool} (hp : ∀ i, p i = true → s.Unused i)
include hp

/-- The slots of components emit unused declarations in the order of the components, each alone. -/
theorem slotsOf_unused (hgroups : s.graph.Decomposition groups) {components : List (List Nat)}
    (hsub : ∀ c ∈ components, c ∈ groups) (h : slotsOf s s.graph components = .ok order) :
    (emitted order).filter p = components.flatten.filter p ∧
      ∀ slot ∈ order, ∀ i ∈ slot.emits, p i = true → slot = .single i := by
  induction components generalizing order with
  | nil =>
      cases h
      exact ⟨rfl, fun slot hslot => absurd hslot List.not_mem_nil⟩
  | cons component rest ih =>
      obtain ⟨first, others, hfirst, hothers, rfl⟩ := slotsOf_cons_ok h
      obtain ⟨hrest, hsingle⟩ := ih (fun c hc => hsub c (List.mem_cons_of_mem component hc)) hothers
      have hmember := hsub component List.mem_cons_self
      have hnodup := hgroups.group_nodup hmember
      rw [emitted_append, List.filter_append, List.flatten_cons, List.filter_append, hrest]
      refine ⟨congrArg (· ++ _) ?_, fun slot hslot i hi hpi => ?_⟩
      · by_cases hunused : ∃ i ∈ component, p i = true
        · obtain ⟨i, hi, hpi⟩ := hunused
          obtain ⟨rfl, rfl⟩ := componentSlots_unused hgroups hmember hfirst hi (hp i hpi)
          rfl
        · have hnone : ∀ i ∈ component, ¬ p i = true := fun i hi hpi => hunused ⟨i, hi, hpi⟩
          rw [List.filter_eq_nil_iff.2 hnone, List.filter_eq_nil_iff]
          exact fun i hi => hnone i ((componentSlots_emitted hnodup hfirst).subset hi)
      · rcases List.mem_append.1 hslot with hslot | hslot
        · have hmem := (componentSlots_mem hnodup hfirst hslot).1 i hi
          obtain ⟨-, rfl⟩ := componentSlots_unused hgroups hmember hfirst hmem (hp i hpi)
          exact List.mem_singleton.1 hslot
        · exact hsingle slot hslot i hi hpi

/-- A slot that emits an unused declaration is fixed when blocks are put back. -/
theorem Rearranged.unused_iff (h : Rearranged s order order') {k i : Nat} {slot : Slot}
    (hi : i ∈ slot.emits) (hpi : p i = true) : order'[k]? = some slot ↔ order[k]? = some slot := by
  refine h.fixed k slot ?_
  rintro d block rfl hblock
  rw [Slot.emits, List.mem_singleton] at hi
  exact (hp i hpi).free block (hi ▸ hblock)

/-- Slots in the same place emit the same unused declarations. -/
theorem Rearranged.slot_filter_eq (h : Rearranged s order order') {k : Nat} {slot slot' : Slot}
    (hslot : order[k]? = some slot) (hslot' : order'[k]? = some slot') :
    slot'.emits.filter p = slot.emits.filter p := by
  by_cases hsome : ∃ i ∈ slot.emits, p i = true
  · obtain ⟨i, hi, hpi⟩ := hsome
    have hstays := (h.unused_iff hp hi hpi).2 hslot
    rw [Option.some.inj (hslot'.symm.trans hstays)]
  · by_cases hsome' : ∃ i ∈ slot'.emits, p i = true
    · obtain ⟨i, hi, hpi⟩ := hsome'
      have hstood := (h.unused_iff hp hi hpi).1 hslot'
      rw [Option.some.inj (hslot.symm.trans hstood)]
    · rw [List.filter_eq_nil_iff.2 fun i hi hpi => hsome ⟨i, hi, hpi⟩,
        List.filter_eq_nil_iff.2 fun i hi hpi => hsome' ⟨i, hi, hpi⟩]

/-- Putting blocks back keeps the order of unused declarations. -/
theorem Rearranged.filter_eq (h : Rearranged s order order') :
    (emitted order').filter p = (emitted order).filter p := by
  have hjoin : ∀ o : Order, (emitted o).filter p =
      (o.map fun slot => slot.emits.filter p).flatten := fun o => by
    rw [emitted, List.filter_flatMap, List.flatMap_def]
  rw [hjoin, hjoin]
  refine congrArg _ (List.ext_getElem (by simp [h.length]) fun k hk' hk => ?_)
  rw [List.length_map] at hk hk'
  rw [List.getElem_map, List.getElem_map]
  exact h.slot_filter_eq hp (List.getElem?_eq_getElem hk) (List.getElem?_eq_getElem hk')

/-- **Unused declarations are emitted in loading order**, each in a slot of its own. -/
theorem ofScope_unused (h : ofScope s = .ok order) :
    (emitted order).filter p = (List.range s.decls.size).filter p ∧
      ∀ slot ∈ order, ∀ i ∈ slot.emits, p i = true → slot = .single i := by
  obtain ⟨initial, hslots, -, hmoved⟩ := ofScope_rearranged h
  have hgroups := Components.ofGraph_decomposition s.graph_closed
  obtain ⟨hsources, hsingle⟩ := slotsOf_unused hp hgroups (fun c hc => hc) hslots
  refine ⟨?_, fun slot hslot i hi hpi => ?_⟩
  · rw [hmoved.filter_eq hp, hsources, ← Scope.graph_size s]
    exact Components.ofGraph_sources s.graph_closed fun v hv => (hp v hv).isSource
  · obtain ⟨k, hk⟩ := List.mem_iff_getElem?.1 hslot
    have hold := (hmoved.unused_iff hp hi hpi).1 hk
    exact hsingle slot (List.mem_of_getElem? hold) i hi hpi

end

end Order

end ScriptCore
