import ScriptCore.Proofs.Declaration.Restore

/-!
# Batches with values

Declarations that depend on each other form one batch, but a constant or variable is never among
them: a cycle through one is either cut at the types in it or an error.  Putting blocks back moves
single declarations only.

Main statement: `Order.value_alone`, a constant or variable is alone in its batch.
-/

namespace ScriptCore

namespace Order

variable {s : Scope} {component part : List Nat}

/-- No constant or variable is in a cycle of the slot. -/
def ValueFree (s : Scope) : Slot → Prop
  | .cycle members => ∀ d ∈ members, s.isValueAt d = false
  | _ => True

/-- A part that has an edge between two of its members is cyclic. -/
theorem length_le_one {g : Graph} (h : g.isCyclic part = false) : part.length ≤ 1 := by
  match part with
  | [] => exact Nat.zero_le 1
  | [_] => exact Nat.le_refl 1
  | a :: b :: rest => simp [Graph.isCyclic] at h

/-- At most one member is no cycle. -/
theorem slotOf_valueFree {members : List Nat} (h : members.length ≤ 1) :
    ValueFree s (partSlot.slotOf members) := by
  match members with
  | [] => exact fun d hd => absurd hd List.not_mem_nil
  | [_] => exact trivial
  | a :: b :: rest => simp at h

/-- A part of a component becomes a cycle only if it has no constant or variable. -/
theorem partSlot_valueFree {sub : Graph} {slot : Slot}
    (h : partSlot s sub component part = .ok slot) : ValueFree s slot := by
  rw [partSlot_ok h]
  by_cases hvalue : ∃ a ∈ part, (component[a]?).any s.isValueAt = true
  · have hacyclic : sub.isCyclic part = false := by
      by_contra hcyclic
      obtain ⟨e, he⟩ := (partSlot_error_iff sub).2 ⟨by simpa using hcyclic, hvalue⟩
      rw [h] at he
      cases he
    refine slotOf_valueFree (Nat.le_trans ?_ (length_le_one hacyclic))
    exact List.length_filterMap_le _ _
  · unfold partSlot.slotOf
    split
    · exact trivial
    · intro d hd
      obtain ⟨a, ha, hda⟩ := mem_membersAt.1 hd
      by_contra hd
      exact hvalue ⟨a, ha, by simpa [hda] using hd⟩

/-- A component becomes slots without values in cycles. -/
theorem componentSlots_valueFree {g : Graph} {slots : Order}
    (h : componentSlots s g component = .ok slots) : ∀ slot ∈ slots, ValueFree s slot := by
  unfold componentSlots at h
  dsimp only at h
  split at h
  · split at h
    · cases hparts : (Components.ofGraph (valueGraph s g component)).mapM
          (partSlot s (valueGraph s g component) component) with
      | error e => simp [hparts, bind, Except.bind] at h
      | ok rest =>
          simp only [hparts, bind, Except.bind, pure, Except.pure, Except.ok.injEq] at h
          rintro slot hslot
          rcases List.mem_append.1 (h ▸ hslot) with hslot | hslot
          · obtain ⟨t, -, rfl⟩ := List.mem_map.1 hslot
            exact trivial
          · have hmap := mapM_ok hparts
            have hmem : (.ok slot : Except SortError Slot) ∈ rest.map .ok :=
              List.mem_map_of_mem hslot
            rw [← hmap] at hmem
            obtain ⟨part, -, hpart⟩ := List.mem_map.1 hmem
            exact partSlot_valueFree hpart
    · next hvalues =>
        rintro slot hslot
        rcases List.mem_append.1 (Except.ok.inj h ▸ hslot) with hslot | hslot
        · obtain ⟨t, -, rfl⟩ := List.mem_map.1 hslot
          exact trivial
        · rw [List.mem_singleton.1 hslot]
          intro d hd
          by_contra hvalue
          exact hvalues (List.any_eq_true.2 ⟨d, hd, by simpa using hvalue⟩)
  · rintro slot hslot
    obtain ⟨d, -, rfl⟩ := List.mem_map.1 (Except.ok.inj h ▸ hslot)
    exact trivial

/-- Components become slots without values in cycles. -/
theorem slotsOf_valueFree {g : Graph} {components : List (List Nat)} {order : Order}
    (h : slotsOf s g components = .ok order) : ∀ slot ∈ order, ValueFree s slot := by
  induction components generalizing order with
  | nil =>
      cases h
      exact fun slot hslot => absurd hslot List.not_mem_nil
  | cons component rest ih =>
      obtain ⟨first, others, hfirst, hothers, rfl⟩ := slotsOf_cons_ok h
      intro slot hslot
      rcases List.mem_append.1 hslot with hslot | hslot
      · exact componentSlots_valueFree hfirst slot hslot
      · exact ih hothers slot hslot

/-- What is put at places are single declarations. -/
theorem putAll_valueFree {order : Order} {pairs : List (Nat × Nat)}
    (h : ∀ slot ∈ order, ValueFree s slot) : ∀ slot ∈ putAll order pairs, ValueFree s slot := by
  induction pairs generalizing order with
  | nil => exact h
  | cons p rest ih =>
      refine ih fun slot hslot => ?_
      rcases List.mem_or_eq_of_mem_set hslot with hslot | rfl
      · exact h slot hslot
      · exact trivial

/-- Putting blocks back moves single declarations only. -/
theorem restoreBlocks_valueFree {g : Graph} {order : Order}
    (h : ∀ slot ∈ order, ValueFree s slot) :
    ∀ slot ∈ restoreBlocks s g order, ValueFree s slot := by
  unfold restoreBlocks
  generalize List.range s.blocks = blocks
  induction blocks generalizing order with
  | nil => exact h
  | cons block rest ih =>
      refine ih ?_
      have hsorted : ∀ slot ∈ sortedBlock s order block, ValueFree s slot := putAll_valueFree h
      unfold restoreBlock
      dsimp only
      split
      · exact h
      · split
        · exact hsorted
        · exact h

/-- **A constant or variable is alone in its batch.** -/
theorem value_alone {order : Order} (h : ofScope s = .ok order) {decls : List Decl}
    (hdecls : decls ∈ batches s order) {d : Decl} (hd : d ∈ decls)
    (hvalue : d.kind.isValue = true) :
    decls = [d] := by
  unfold ofScope at h
  cases hslots : slotsOf s s.graph (Components.ofGraph s.graph) with
  | error e => simp [hslots, bind, Except.bind] at h
  | ok initial =>
      simp only [hslots, bind, Except.bind, pure, Except.pure, Except.ok.injEq] at h
      obtain ⟨slot, hslot, rfl⟩ := List.mem_map.1 hdecls
      have hfree := restoreBlocks_valueFree (slotsOf_valueFree hslots) slot (h ▸ hslot)
      cases slot with
      | single i =>
          have hi : s.decls[i]? = some d := Option.mem_toList.1 hd
          rw [Slot.batch, hi, Option.toList_some]
      | forward t =>
          obtain ⟨x, -, rfl⟩ := Option.map_eq_some_iff.1 (Option.mem_toList.1 hd)
          cases hvalue
      | cycle members =>
          obtain ⟨i, hi, hdecl⟩ := List.mem_filterMap.1 hd
          have hnone := hfree i hi
          simp [Scope.isValueAt, Scope.kindAt, hdecl, hvalue] at hnone

end Order

end ScriptCore
