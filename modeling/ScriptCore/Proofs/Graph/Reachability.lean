import Mathlib.Data.List.Nodup
import Mathlib.Data.List.Perm.Subperm
import Mathlib.Logic.Relation
import ScriptCore.Graph.Components

/-!
# Reachability and decompositions

A graph is read as a relation between nodes.  A *decomposition* lists every node once, in groups:
inside a group every node reaches every other, and an edge leads into the group it starts from or
into a group listed before.  These three facts determine the groups, and this file draws the
conclusion: two nodes share a group exactly when they reach each other (`mem_iff_mutual`), and a
group has an edge inside exactly when each of its nodes lies on a cycle (`isCyclic_iff`).
-/

namespace ScriptCore

namespace Graph

/-- There is an edge from `v` to `w`. -/
def Edge (g : Graph) (v w : Nat) : Prop :=
  w ∈ g.targets v

/-- There is a path from `v` to `w`, which may be empty. -/
abbrev Reaches (g : Graph) : Nat → Nat → Prop :=
  Relation.ReflTransGen g.Edge

/-- `v` lies on a cycle; an edge to itself is one. -/
def OnCycle (g : Graph) (v : Nat) : Prop :=
  Relation.TransGen g.Edge v v

/-- Every edge leads to a node. -/
def Closed (g : Graph) : Prop :=
  ∀ v, ∀ w ∈ g.targets v, w < g.size

/-- A number that is no node has no edges. -/
theorem targets_of_size_le {g : Graph} {v : Nat} (h : g.size ≤ v) : g.targets v = [] := by
  simp [targets, Array.getElem?_eq_none h]

/-- Groups of nodes, each strongly connected, every edge leading into its own group or an earlier
one. -/
structure Decomposition (g : Graph) (groups : List (List Nat)) : Prop where
  complete : groups.flatten.Perm (List.range g.size)
  ordered : ∀ before group after, groups = before ++ group :: after →
    ∀ v ∈ group, ∀ w ∈ g.targets v, w ∈ group ∨ w ∈ before.flatten
  connected : ∀ group ∈ groups, ∀ v ∈ group, ∀ w ∈ group, g.Reaches v w

namespace Decomposition

variable {g : Graph} {groups : List (List Nat)}

/-- No node is listed twice. -/
theorem nodup (h : g.Decomposition groups) : groups.flatten.Nodup :=
  h.complete.nodup_iff.2 List.nodup_range

/-- Every node is listed. -/
theorem mem_flatten (h : g.Decomposition groups) {v : Nat} : v ∈ groups.flatten ↔ v < g.size := by
  rw [h.complete.mem_iff, List.mem_range]

/-- What a node of a group reaches lies in the group or before it. -/
theorem mem_of_reaches (h : g.Decomposition groups) {before after : List (List Nat)}
    {group : List Nat} (hsplit : groups = before ++ group :: after) {v w : Nat}
    (hv : v ∈ group ∨ v ∈ before.flatten) (hvw : g.Reaches v w) :
    w ∈ group ∨ w ∈ before.flatten := by
  induction hvw with
  | refl => exact hv
  | @tail x y _ hxy ih =>
      rcases ih with hx | hx
      · exact h.ordered before group after hsplit x hx y hxy
      · right
        obtain ⟨earlier, hearlier, hxe⟩ := List.mem_flatten.1 hx
        obtain ⟨first, last, rfl⟩ := List.append_of_mem hearlier
        have hsplit' : groups = first ++ earlier :: (last ++ group :: after) := by simp [hsplit]
        have hy := h.ordered first earlier _ hsplit' x hxe y hxy
        simp only [List.flatten_append, List.flatten_cons, List.mem_append]
        tauto

/-- A group consists of the nodes that each of its members reaches and is reached from. -/
theorem mem_iff_mutual (h : g.Decomposition groups) {group : List Nat} (hgroup : group ∈ groups)
    {v w : Nat} (hv : v ∈ group) :
    w ∈ group ↔ g.Reaches v w ∧ g.Reaches w v := by
  constructor
  · intro hw
    exact ⟨h.connected group hgroup v hv w hw, h.connected group hgroup w hw v hv⟩
  · rintro ⟨hvw, hwv⟩
    obtain ⟨before, after, hsplit⟩ := List.append_of_mem hgroup
    rcases h.mem_of_reaches hsplit (.inl hv) hvw with hw | hw
    · exact hw
    · -- an earlier group would lead back to `v`, which is listed only once
      obtain ⟨earlier, hearlier, hwe⟩ := List.mem_flatten.1 hw
      obtain ⟨first, last, rfl⟩ := List.append_of_mem hearlier
      have hsplit' : groups = first ++ earlier :: (last ++ group :: after) := by simp [hsplit]
      have hback := h.mem_of_reaches hsplit' (.inl hwe) hwv
      have hv' : v ∈ (first ++ earlier :: last).flatten := by
        simp only [List.flatten_append, List.flatten_cons, List.mem_append]
        tauto
      have hnodup := h.nodup
      rw [hsplit, List.flatten_append, List.flatten_cons] at hnodup
      have hdisjoint := (List.nodup_append.1 hnodup).2.2 v hv' v
      simp [hv] at hdisjoint

/-- Every node has its group. -/
theorem exists_group (h : g.Decomposition groups) {v : Nat} (hv : v < g.size) :
    ∃ group ∈ groups, v ∈ group :=
  List.mem_flatten.1 (h.mem_flatten.2 hv)

/-- A node has only one group. -/
theorem group_unique (h : g.Decomposition groups) {v : Nat} {a b : List Nat} (ha : a ∈ groups)
    (hb : b ∈ groups) (hva : v ∈ a) (hvb : v ∈ b) : ∀ w, w ∈ a ↔ w ∈ b := by
  intro w
  rw [h.mem_iff_mutual ha hva, h.mem_iff_mutual hb hvb]

/-- A group has no repetitions. -/
theorem group_nodup (h : g.Decomposition groups) {group : List Nat} (hgroup : group ∈ groups) :
    group.Nodup :=
  (List.nodup_flatten.1 h.nodup).1 group hgroup

/-- No edge leads from a group to a later one. -/
theorem pairwise_not_edge (h : g.Decomposition groups) :
    groups.Pairwise fun a b => ∀ v ∈ a, ∀ w ∈ b, ¬ g.Edge v w := by
  have hrest : ∀ before rest, groups = before ++ rest →
      rest.Pairwise fun a b => ∀ v ∈ a, ∀ w ∈ b, ¬ g.Edge v w := by
    intro before rest hsplit
    induction rest generalizing before with
    | nil => exact .nil
    | cons group rest ih =>
        refine List.pairwise_cons.2 ⟨?_, ih (before ++ [group]) (by simp [hsplit])⟩
        intro later hlater v hv w hw hvw
        have hnodup := h.nodup
        rw [hsplit, List.flatten_append, List.flatten_cons] at hnodup
        obtain ⟨-, hgroup, hbefore⟩ := List.nodup_append.1 hnodup
        have hwrest : w ∈ rest.flatten := List.mem_flatten.2 ⟨later, hlater, hw⟩
        rcases h.ordered before group rest hsplit v hv w hvw with hmem | hmem
        · exact (List.nodup_append.1 hgroup).2.2 w hmem w hwrest rfl
        · exact hbefore w hmem w (List.mem_append_right group hwrest) rfl
  exact hrest [] groups rfl

/-- A group has an edge inside exactly when its members lie on cycles. -/
theorem isCyclic_iff (h : g.Decomposition groups) {group : List Nat} (hgroup : group ∈ groups)
    {v : Nat} (hv : v ∈ group) : g.isCyclic group = true ↔ g.OnCycle v := by
  constructor
  · intro hcyclic
    obtain ⟨w, hw, hne⟩ | rfl : (∃ w ∈ group, w ≠ v) ∨ group = [v] := by
      by_cases hother : ∃ w ∈ group, w ≠ v
      · exact .inl hother
      · right
        have hall : ∀ w ∈ group, w = v := fun w hw => by
          by_contra hne
          exact hother ⟨w, hw, hne⟩
        match group, hv, h.group_nodup hgroup with
        | [w], _, _ => rw [hall w (by simp)]
        | a :: b :: rest, _, hnodup =>
            have hab : a = b := (hall a (by simp)).trans (hall b (by simp)).symm
            simp [hab] at hnodup
    · have hvw := h.connected group hgroup v hv w hw
      have hwv := h.connected group hgroup w hw v hv
      rcases Relation.ReflTransGen.cases_head hvw with rfl | ⟨x, hvx, hxw⟩
      · exact absurd rfl hne
      · exact Relation.TransGen.head' hvx (hxw.trans hwv)
    · exact Relation.TransGen.single (by simpa [isCyclic, Edge] using hcyclic)
  · intro hcycle
    obtain ⟨x, hvx, hxv⟩ := Relation.TransGen.head'_iff.1 hcycle
    have hx : x ∈ group := (h.mem_iff_mutual hgroup hv).2 ⟨.single hvx, hxv⟩
    match group, hv, hx with
    | [u], hv, hx =>
        rw [List.mem_singleton] at hv hx
        subst hv hx
        simpa [isCyclic, Edge] using hvx
    | a :: b :: rest, _, _ => simp [isCyclic]

end Decomposition

end Graph

end ScriptCore
