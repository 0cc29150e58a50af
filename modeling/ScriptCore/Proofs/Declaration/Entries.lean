import ScriptCore.Proofs.Declaration.Loading
import ScriptCore.Proofs.Declaration.Sources

/-!
# The order of `init` functions

An `init` function is bound under a generated name, which no identifier is.  So nothing depends on
it, and `init` functions are emitted in source order, each in a batch of its own, whatever else the
items declare.

Main statements: `Scope.entry_unused`, `Order.batches_entries` and `Order.batches_initializers`
(every initializer is emitted once, too).
-/

namespace ScriptCore

/-- Names that occur free in the items are identifiers, which have no `#` in them. -/
def Item.Plain (item : Item) : Prop :=
  ∀ n, item.Free n → '#' ∉ n.toList

/-- What a function of declarations gives for the `i`-th one. -/
def Scope.givenAt {α : Type} (s : Scope) (f : Decl → List α) (i : Nat) : List α :=
  (s.decls[i]?).toList.flatMap f

/-- Whether the `i`-th declaration is an `init` function. -/
def Scope.isEntry (s : Scope) (i : Nat) : Bool :=
  !(s.givenAt Decl.entries i).isEmpty

variable {items : List Item} {s : Scope} {order : Order}

namespace Scope

theorem isEntry_iff {i : Nat} {d : Decl} (hd : s.decls[i]? = some d) :
    s.isEntry i = true ↔ d.entries ≠ [] := by
  simp [isEntry, givenAt, hd]

/-- Only an `init` function gives one. -/
theorem entries_of_not_isEntry {i : Nat} (h : ¬s.isEntry i = true) :
    s.givenAt Decl.entries i = [] := by
  simpa [isEntry] using h

/-- The `init` functions among some declarations. -/
theorem filter_isEntry_flatMap (is : List Nat) :
    (is.filter s.isEntry).flatMap (s.givenAt Decl.entries) =
      is.flatMap (s.givenAt Decl.entries) := by
  induction is with
  | nil => rfl
  | cons i is ih =>
      by_cases hi : s.isEntry i = true
      · rw [List.filter_cons_of_pos hi, List.flatMap_cons, List.flatMap_cons, ih]
      · rw [List.filter_cons_of_neg hi, List.flatMap_cons, ih, entries_of_not_isEntry hi,
          List.nil_append]

/-- A generated name is no identifier. -/
theorem mem_generatedName (base : String) (counter : Nat) :
    '#' ∈ (generatedName base counter).toList := by
  simp [generatedName]

/-- What is loaded from items comes from one of them. -/
theorem ofItems_mem (h : ofItems items = .ok s) {d : Decl} (hd : d ∈ s.decls) :
    ∃ item ∈ items, ∃ added, item.Loads added ∧ d ∈ added := by
  obtain ⟨parts, hparts, hdecls⟩ := ofItems_loads h
  rw [← Array.mem_toList_iff, hdecls, List.mem_flatten] at hd
  obtain ⟨added, hadded, hd⟩ := hd
  obtain ⟨k, hk, rfl⟩ := List.getElem_of_mem hadded
  have hlt : k < items.length := hparts.length_eq ▸ hk
  exact ⟨items[k], List.getElem_mem hlt, _, hparts.get hlt hk, hd⟩

/-- A function of declarations that agrees with one of items. -/
theorem ofItems_flatMap (h : ofItems items = .ok s) {α : Type} {f : Decl → List α}
    {g : Item → List α} (hfg : ∀ item added, item.Loads added → added.flatMap f = g item) :
    s.decls.toList.flatMap f = items.flatMap g := by
  obtain ⟨parts, hparts, hdecls⟩ := ofItems_loads h
  rw [hdecls]
  clear hdecls h
  induction hparts with
  | nil => rfl
  | cons hloads _ ih =>
      rw [List.flatten_cons, List.flatMap_append, hfg _ _ hloads, ih, List.flatMap_cons]

/-- **Nothing depends on an `init` function.** -/
theorem entry_unused (h : ofItems items = .ok s) (hplain : ∀ item ∈ items, item.Plain) {i : Nat}
    {d : Decl} (hd : s.decls[i]? = some d) (hentry : d.entries ≠ []) : s.Unused i := by
  obtain ⟨item, hitem, added, hloads, hmem⟩ := ofItems_mem h (Array.mem_of_getElem? hd)
  obtain ⟨hgroup, counter, hbound⟩ := hloads.generated d hmem hentry
  refine ⟨fun j hj => ?_, fun block hblock => ?_⟩
  · obtain ⟨e, he, hdep⟩ := hj
    rcases hdep with ⟨name, hname, hindex⟩ | ⟨method, -, d', hd', hkind, -⟩
    · -- the name would be a generated one
      obtain ⟨hlt, hcontains, -⟩ := Array.findIdx?_eq_some_iff_getElem.1 hindex
      rw [(Array.getElem?_eq_some_iff.1 hd).2, hbound, List.contains_iff_mem,
        List.mem_singleton] at hcontains
      obtain ⟨item', hitem', added', hloads', hmem'⟩ := ofItems_mem h (Array.mem_of_getElem? he)
      refine hplain item' hitem' name (hloads'.free e hmem' name (e.free_of_mem_deps hname)) ?_
      rw [hcontains]
      exact mem_generatedName "init" counter
    · rw [hd] at hd'
      obtain rfl := Option.some.inj hd'
      simp [Decl.entries, hkind] at hentry
  · rw [InBlock, hd, Option.bind_some, hgroup] at hblock
    cases hblock

end Scope

namespace Order

section
variable {α : Type} {f : Decl → List α} (hf : ∀ d : Decl, f d.forward = [])
include hf

/-- A function that gives nothing for forward declarations gives what it gives for the emitted
ones. -/
theorem batches_flatMap (order : Order) :
    (batches s order).flatten.flatMap f = (emitted order).flatMap (s.givenAt f) := by
  have hbatch : ∀ slot : Slot, (slot.batch s).flatMap f = slot.emits.flatMap (s.givenAt f) := by
    intro slot
    cases slot with
    | single d => simp [Slot.batch, Slot.emits, Scope.givenAt]
    | forward t => cases ht : s.decls[t]? <;> simp [Slot.batch, Slot.emits, ht, hf]
    | cycle members =>
        rw [Slot.batch, List.filterMap_eq_flatMap_toList, List.flatMap_assoc]
        rfl
  calc (batches s order).flatten.flatMap f
      = (order.flatMap (Slot.batch s)).flatMap f := by rw [batches, ← List.flatMap_def]
    _ = order.flatMap fun slot => slot.emits.flatMap (s.givenAt f) := by
        rw [List.flatMap_assoc]
        simp only [hbatch]
    _ = (emitted order).flatMap (s.givenAt f) := List.flatMap_assoc.symm

end

/-- What a function gives for all declarations. -/
theorem range_flatMap {α : Type} (f : Decl → List α) (s : Scope) :
    (List.range s.decls.size).flatMap (s.givenAt f) = s.decls.toList.flatMap f := by
  have hdecls := filterMap_range s.decls.toList
  rw [Array.length_toList] at hdecls
  conv_rhs => rw [← hdecls, List.filterMap_eq_flatMap_toList, List.flatMap_assoc]
  simp only [Array.getElem?_toList]
  rfl

/-- **`init` functions are emitted in source order**, each in a batch of its own. -/
theorem batches_entries (h : Scope.ofItems items = .ok s) (hplain : ∀ item ∈ items, item.Plain)
    (horder : ofScope s = .ok order) :
    (batches s order).flatten.flatMap Decl.entries = items.flatMap Item.entries ∧
      ∀ decls ∈ batches s order, ∀ d ∈ decls, d.entries ≠ [] → decls = [d] := by
  have hforward : ∀ d : Decl, d.forward.entries = [] := fun _ => rfl
  have hunused : ∀ i, s.isEntry i = true → s.Unused i := by
    intro i hi
    cases hd : s.decls[i]? with
    | none => simp [Scope.isEntry, Scope.givenAt, hd] at hi
    | some d => exact Scope.entry_unused h hplain hd ((Scope.isEntry_iff hd).1 hi)
  obtain ⟨hsame, hsingle⟩ := ofScope_unused hunused horder
  constructor
  · calc (batches s order).flatten.flatMap Decl.entries
        = (emitted order).flatMap (s.givenAt Decl.entries) := batches_flatMap hforward order
      _ = (List.range s.decls.size).flatMap (s.givenAt Decl.entries) := by
          rw [← Scope.filter_isEntry_flatMap, hsame, Scope.filter_isEntry_flatMap]
      _ = s.decls.toList.flatMap Decl.entries := range_flatMap Decl.entries s
      _ = items.flatMap Item.entries := Scope.ofItems_flatMap h fun _ _ h => h.entries
  · intro decls hdecls d hd hentry
    obtain ⟨slot, hslot, rfl⟩ := List.mem_map.1 hdecls
    have hat : ∀ i ∈ slot.emits, s.decls[i]? = some d → slot.batch s = [d] := fun i hi hdecl => by
      rw [hsingle slot hslot i hi ((Scope.isEntry_iff hdecl).2 hentry), Slot.batch, hdecl]
      rfl
    cases slot with
    | single i => exact hat i List.mem_cons_self (Option.mem_toList.1 hd)
    | forward t =>
        obtain ⟨x, -, rfl⟩ := Option.map_eq_some_iff.1 (Option.mem_toList.1 hd)
        exact absurd (hforward x) hentry
    | cycle members =>
        obtain ⟨i, hi, hdecl⟩ := List.mem_filterMap.1 hd
        exact hat i hi hdecl

/-- **Every initializer is emitted once.** -/
theorem batches_initializers (h : Scope.ofItems items = .ok s) (horder : ofScope s = .ok order) :
    ((batches s order).flatten.flatMap Decl.initializers).Perm
      (items.flatMap Item.initializers) := by
  obtain ⟨initial, -, honce, hmoved⟩ := ofScope_rearranged horder
  rw [batches_flatMap (fun _ => rfl), ← Scope.ofItems_flatMap h fun _ _ h => h.initializers,
    ← range_flatMap]
  exact (hmoved.perm.trans honce).flatMap_right _

end Order

end ScriptCore
