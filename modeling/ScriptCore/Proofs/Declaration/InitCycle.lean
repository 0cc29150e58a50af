import ScriptCore.Proofs.Declaration.Dependency
import ScriptCore.Proofs.Graph.Components
import ScriptCore.Proofs.Graph.Cycle

/-!
# Initialization cycles

Ordering a scope fails exactly when a constant or variable depends on itself without the help of a
type.  The failure is found part by part: a part of a cyclic component that has both a constant or
variable and an edge inside is refused (`partSlot_error_iff`), and the cycle that is reported runs
through the first constant or variable of that part.

Inside a component with a constant or variable the search runs a second time, on the members of the
component and without the edges into types.  Its nodes are positions in the component, and edges are
translated between positions and declarations (`valueGraph_edge_iff`).  A cycle through a constant
or variable that enters no type lies in one component and survives there (`onCycle_valueGraph`).

Main statement: `error_iff_initCycle`.
-/

namespace ScriptCore

/-! ### Components without the edges into types -/

namespace Scope

/-- A dependency on something that is not a type. -/
def ValueStep (s : Scope) (i j : Nat) : Prop :=
  s.DependsOn i j ∧ s.isTypeAt j = false

/-- Constants and variables are declarations. -/
theorem lt_of_isValueAt {s : Scope} {i : Nat} (h : s.isValueAt i = true) : i < s.decls.size := by
  unfold isValueAt kindAt at h
  cases hd : s.decls[i]? with
  | none => simp [hd] at h
  | some d => exact (Array.getElem?_eq_some_iff.1 hd).1

/-- A constant or variable has a declaration of such a kind. -/
theorem exists_of_isValueAt {s : Scope} {i : Nat} (h : s.isValueAt i = true) :
    ∃ d, s.decls[i]? = some d ∧ d.kind.isValue = true := by
  unfold isValueAt kindAt at h
  cases hd : s.decls[i]? with
  | none => simp [hd] at h
  | some d => exact ⟨d, rfl, by simpa [hd] using h⟩

end Scope

namespace Order

variable {s : Scope} {component : List Nat}

/-- One node for each member. -/
@[simp] theorem valueGraph_size (s : Scope) (g : Graph) (component : List Nat) :
    Array.size (valueGraph s g component) = component.length := by
  simp [valueGraph]

/-- In a list without repetitions an element is found at its own position only. -/
theorem idxOf?_eq_some_iff (hnodup : component.Nodup) {w b : Nat} :
    component.idxOf? w = some b ↔ component[b]? = some w := by
  rw [List.idxOf?, List.findIdx?_eq_some_iff_getElem]
  constructor
  · rintro ⟨hb, hw, -⟩
    rw [List.getElem?_eq_getElem hb]
    simpa using hw
  · intro h
    obtain ⟨hb, hw⟩ := List.getElem?_eq_some_iff.1 h
    refine ⟨hb, by simpa using hw, fun k hk => ?_⟩
    have hklt : k < component.length := hk.trans hb
    have hne : component[k] ≠ component[b] := fun he => by
      have := (hnodup.getElem_inj_iff).1 he
      omega
    rw [hw] at hne
    simpa using hne

/-- Edges between positions are the dependencies between members that enter no type. -/
theorem valueGraph_edge_iff (hnodup : component.Nodup) {a b : Nat} :
    (valueGraph s s.graph component).Edge a b ↔
      ∃ v w, component[a]? = some v ∧ component[b]? = some w ∧ s.ValueStep v w := by
  unfold Graph.Edge valueGraph Graph.targets
  simp only [List.getElem?_toArray, List.getElem?_map]
  cases ha : component[a]? with
  | none => simp
  | some v =>
      simp only [Option.map_some, Option.getD_some, List.mem_filterMap, Option.some.injEq,
        Scope.ValueStep, ← Scope.graph_edge_iff]
      constructor
      · rintro ⟨w, hw, hb⟩
        by_cases htype : s.isTypeAt w = true
        · simp [htype] at hb
        · rw [if_neg htype] at hb
          exact ⟨v, w, rfl, (idxOf?_eq_some_iff hnodup).1 hb, hw, by simpa using htype⟩
      · rintro ⟨x, w, rfl, hb, hw, htype⟩
        exact ⟨w, hw, by simpa [htype] using (idxOf?_eq_some_iff hnodup).2 hb⟩

/-- Edges between positions lead to positions. -/
theorem valueGraph_closed (s : Scope) (hnodup : component.Nodup) :
    (valueGraph s s.graph component).Closed := by
  intro a b hab
  obtain ⟨v, w, -, hb, -⟩ := (valueGraph_edge_iff hnodup).1 hab
  rw [valueGraph_size]
  exact (List.getElem?_eq_some_iff.1 hb).1

/-- The second search decomposes a component into its parts. -/
theorem parts_decomposition (s : Scope) (hnodup : component.Nodup) :
    (valueGraph s s.graph component).Decomposition
      (Components.ofGraph (valueGraph s s.graph component)) :=
  Components.ofGraph_decomposition (valueGraph_closed s hnodup)

/-- A member is at a position that the part names. -/
theorem mem_membersAt {positions : List Nat} {v : Nat} :
    v ∈ membersAt component positions ↔ ∃ a ∈ positions, component[a]? = some v := by
  simp [membersAt]

/-- The elements at all positions of a list are the list. -/
theorem filterMap_range {α : Type} (xs : List α) :
    (List.range xs.length).filterMap (xs[·]?) = xs := by
  induction xs with
  | nil => rfl
  | cons x rest ih =>
      rw [List.length_cons, List.range_succ_eq_map]
      simpa [List.filterMap_map, Function.comp_def] using ih

/-- The members of the parts together are those of the component. -/
theorem membersAt_parts (s : Scope) (hnodup : component.Nodup) :
    ((Components.ofGraph (valueGraph s s.graph component)).flatMap (membersAt component)).Perm
      component := by
  have hparts := (parts_decomposition s hnodup).complete
  rw [valueGraph_size] at hparts
  have hmembers := hparts.filterMap (component[·]?)
  rw [filterMap_range, List.filterMap_flatten] at hmembers
  exact hmembers

/-- A member that lies on a cycle without steps into types does so in the second search. -/
theorem onCycle_valueGraph {groups : List (List Nat)} (h : s.graph.Decomposition groups)
    (hcomponent : component ∈ groups) {a v : Nat} (ha : component[a]? = some v)
    (hcycle : Relation.TransGen s.ValueStep v v) :
    (valueGraph s s.graph component).OnCycle a := by
  have hnodup := h.group_nodup hcomponent
  have hv : v ∈ component := List.mem_of_getElem? ha
  have hdepends : ∀ {x y}, Relation.TransGen s.ValueStep x y → s.graph.Reaches x y := by
    intro x y hxy
    rw [Graph.Reaches, Scope.graph_edge_eq]
    exact (hxy.lift id fun _ _ hstep => hstep.1).to_reflTransGen
  have hlift : ∀ w, Relation.TransGen s.ValueStep v w → s.graph.Reaches w v →
      ∃ b, component[b]? = some w ∧
        Relation.TransGen (valueGraph s s.graph component).Edge a b := by
    intro w hvw
    induction hvw with
    | @single w hvw =>
        intro hwv
        have hw := (h.mem_iff_mutual hcomponent hv).2 ⟨hdepends (.single hvw), hwv⟩
        obtain ⟨b, hb⟩ := List.mem_iff_getElem?.1 hw
        exact ⟨b, hb, .single ((valueGraph_edge_iff hnodup).2 ⟨v, w, ha, hb, hvw⟩)⟩
    | @tail x w hvx hxw ih =>
        intro hwv
        have hxw' : s.graph.Reaches x w := hdepends (.single hxw)
        obtain ⟨c, hc, hac⟩ := ih (hxw'.trans hwv)
        have hw := (h.mem_iff_mutual hcomponent hv).2 ⟨hdepends (hvx.tail hxw), hwv⟩
        obtain ⟨b, hb⟩ := List.mem_iff_getElem?.1 hw
        exact ⟨b, hb, hac.tail ((valueGraph_edge_iff hnodup).2 ⟨x, w, hc, hb, hxw⟩)⟩
  obtain ⟨b, hb, hab⟩ := hlift v hcycle .refl
  have hsame : b = a := by
    obtain ⟨hblt, hbv⟩ := List.getElem?_eq_some_iff.1 hb
    obtain ⟨halt, hav⟩ := List.getElem?_eq_some_iff.1 ha
    exact (hnodup.getElem_inj_iff).1 (hbv.trans hav.symm)
  rw [Graph.OnCycle]
  rwa [hsame] at hab

end Order

/-! ### Cycles of declarations -/

namespace Scope

/-- A cycle from `v` through `inner` back to `v`: `v` is a constant or variable, each declaration
depends on the next one, none of the dependencies enters a type, and nothing is met twice. -/
structure InitCycle (s : Scope) (v : Nat) (inner : List Nat) : Prop where
  value : s.isValueAt v = true
  steps : (v :: inner ++ [v]).IsChain s.ValueStep
  nodup : (v :: inner).Nodup

/-- A chain leads from its first member to its last. -/
theorem transGen_of_isChain {r : Nat → Nat → Prop} {v w : Nat} {inner : List Nat}
    (h : (v :: inner ++ [w]).IsChain r) : Relation.TransGen r v w := by
  induction inner generalizing v with
  | nil => exact .single (by simpa using h)
  | cons x inner ih =>
      rw [List.cons_append, List.cons_append, List.isChain_cons_cons] at h
      exact .head h.1 (ih h.2)

/-- The declaration at the start of an initialization cycle reaches itself. -/
theorem InitCycle.transGen {s : Scope} {v : Nat} {inner : List Nat} (h : s.InitCycle v inner) :
    Relation.TransGen s.ValueStep v v :=
  transGen_of_isChain h.steps

end Scope

namespace Order

open ScriptCore.Graph

variable {s : Scope} {component part : List Nat}

/-- In a list of steps that may fail, a failure comes from one of them. -/
theorem exists_of_mapM_error {α β ε : Type} {f : α → Except ε β} {xs : List α} {e : ε}
    (h : xs.mapM f = .error e) : ∃ x ∈ xs, f x = .error e := by
  induction xs with
  | nil => cases h
  | cons x xs ih =>
      rw [List.mapM_cons] at h
      cases hx : f x with
      | error e' =>
          rw [hx] at h
          cases h
          exact ⟨x, by simp, hx⟩
      | ok b =>
          rw [hx] at h
          cases hxs : xs.mapM f with
          | error e' =>
              have he : e' = e := by
                simpa [hxs, bind, Except.bind] using h
              obtain ⟨y, hy, hfy⟩ := ih (he ▸ hxs)
              exact ⟨y, List.mem_cons_of_mem x hy, hfy⟩
          | ok bs => simp [hxs, bind, Except.bind, pure, Except.pure] at h

/-- If all steps of a list succeed, each result is that of its step. -/
theorem mapM_ok {α β ε : Type} {f : α → Except ε β} {xs : List α} {bs : List β}
    (h : xs.mapM f = .ok bs) : xs.map f = bs.map .ok := by
  induction xs generalizing bs with
  | nil =>
      cases h
      rfl
  | cons x xs ih =>
      rw [List.mapM_cons] at h
      cases hx : f x with
      | error e => simp [hx, bind, Except.bind] at h
      | ok b =>
          cases hxs : xs.mapM f with
          | error e => simp [hx, hxs, bind, Except.bind] at h
          | ok rest =>
              simp only [hx, hxs, bind, Except.bind, pure, Except.pure, Except.ok.injEq] at h
              subst h
              simp [hx, ih hxs]

/-- A part is refused exactly if it has an edge inside and a constant or variable. -/
theorem partSlot_error_iff (sub : Graph) :
    (∃ e, partSlot s sub component part = .error e) ↔
      sub.isCyclic part = true ∧ ∃ a ∈ part, (component[a]?).any s.isValueAt = true := by
  unfold partSlot
  dsimp only
  cases hfind : part.find? fun l => (component[l]?).any s.isValueAt with
  | none =>
      simp only [reduceCtorEq, exists_false, false_iff, not_and, not_exists]
      rintro - a ha hvalue
      exact List.find?_eq_none.1 hfind a ha hvalue
  | some start =>
      have hstart := List.find?_some hfind
      have hmem := List.mem_of_find?_eq_some hfind
      by_cases hcyclic : sub.isCyclic part = true
      · simp only [hcyclic, if_true, true_and]
        exact ⟨fun _ => ⟨start, hmem, by simpa using hstart⟩, fun _ => ⟨_, rfl⟩⟩
      · simp [hcyclic]

/-- Positions in a component name its members one by one. -/
theorem membersAt_eq_map {positions : List Nat} (h : ∀ a ∈ positions, a < component.length) :
    membersAt component positions = positions.map (component.getD · 0) := by
  induction positions with
  | nil => rfl
  | cons a rest ih =>
      have ha : a < component.length := h a (by simp)
      have hrest := ih fun b hb => h b (List.mem_cons_of_mem a hb)
      rw [membersAt] at hrest
      rw [membersAt, List.filterMap_cons, hrest]
      simp [ha]

/-- A cycle among positions is a cycle among the members there. -/
theorem initCycle_of_closes (hnodup : component.Nodup) {a : Nat} {path : List Nat}
    (hvalue : (component[a]?).any s.isValueAt = true)
    (hcloses : Cycle.Closes (valueGraph s s.graph component) part a path)
    (hpart : ∀ b ∈ a :: path, b < component.length) :
    s.InitCycle (component.getD a 0) (path.map (component.getD · 0)) := by
  have hat : ∀ {b}, b < component.length → component[b]? = some (component.getD b 0) := by
    intro b hb
    simp [hb]
  refine ⟨?_, ?_, ?_⟩
  · rw [hat (hpart a (by simp))] at hvalue
    simpa using hvalue
  · have hsteps : ((a :: path ++ [a]).map (component.getD · 0)).IsChain s.ValueStep := by
      rw [List.isChain_map]
      refine hcloses.steps.imp fun b c hbc => ?_
      obtain ⟨v, w, hv, hw, hvw⟩ := (valueGraph_edge_iff hnodup).1 hbc
      rwa [List.getD_eq_getElem?_getD, List.getD_eq_getElem?_getD, hv, hw]
    simpa using hsteps
  · change ((a :: path).map (component.getD · 0)).Nodup
    refine List.Nodup.map_on (fun b hb c hc heq => ?_) hcloses.nodup
    have hbc : component[b]? = component[c]? := by rw [hat (hpart b hb), hat (hpart c hc), heq]
    exact (List.getElem?_inj (hpart b hb) hnodup).1 hbc

/-- What a refused part reports is an initialization cycle. -/
theorem partSlot_error (hnodup : component.Nodup)
    (hpart : part ∈ Components.ofGraph (valueGraph s s.graph component)) {e : SortError}
    (h : partSlot s (valueGraph s s.graph component) component part = .error e) :
    ∃ v inner d, s.InitCycle v inner ∧ s.decls[v]? = some d ∧
      e = .cycle ((v :: inner ++ [v]).map s.nameAt) d.span := by
  have hparts := parts_decomposition s hnodup
  unfold partSlot at h
  dsimp only at h
  cases hfind : part.find? fun l => (component[l]?).any s.isValueAt with
  | none => simp [hfind] at h
  | some a =>
      rw [hfind] at h
      by_cases hcyclic : (valueGraph s s.graph component).isCyclic part = true
      · simp only [hcyclic, if_true, Except.error.injEq] at h
        have ha := List.mem_of_find?_eq_some hfind
        have hvalue := List.find?_some hfind
        have hcycle := hparts.cycle_inside hpart ha ((hparts.isCyclic_iff hpart ha).1 hcyclic)
        obtain ⟨path, hpath, hcloses⟩ := cycleThrough_spec ha hcycle
        have hlt : ∀ b ∈ part, b < component.length := fun b hb => by
          rw [← valueGraph_size s s.graph component]
          exact hparts.mem_flatten.1 (List.mem_flatten.2 ⟨part, hpart, hb⟩)
        have hinside : ∀ b ∈ a :: path, b < component.length := by
          intro b hb
          rcases List.mem_cons.1 hb with rfl | hb
          · exact hlt b ha
          · exact hlt b (hcloses.inside b hb)
        have hinit := initCycle_of_closes hnodup hvalue hcloses hinside
        obtain ⟨d, hd, -⟩ := Scope.exists_of_isValueAt hinit.value
        refine ⟨_, _, d, hinit, hd, ?_⟩
        have hnames : membersAt component (a :: path ++ [a]) =
            (a :: path ++ [a]).map (component.getD · 0) := by
          refine membersAt_eq_map fun b hb => ?_
          rcases List.mem_append.1 hb with hb | hb
          · exact hinside b hb
          · rw [List.mem_singleton.1 hb]
            exact hlt a ha
        rw [← h, hpath, hnames]
        have hget : component[a]? = some (component.getD a 0) := by simp [hlt a ha]
        rw [hget, Option.bind_some, hd, Option.elim_some]
        simp
      · simp [hcyclic] at h

/-- A component is refused exactly when it is cyclic and one of its parts is refused. -/
theorem componentSlots_error_iff {g : Graph} {e : SortError} :
    componentSlots s g component = .error e ↔
      g.isCyclic component = true ∧ component.any s.isValueAt = true ∧
        (Components.ofGraph (valueGraph s g component)).mapM
          (partSlot s (valueGraph s g component) component) = .error e := by
  unfold componentSlots
  dsimp only
  by_cases hcyclic : g.isCyclic component = true
  · by_cases hvalue : component.any s.isValueAt = true
    · rw [if_pos hcyclic, if_pos hvalue]
      cases hparts : (Components.ofGraph (valueGraph s g component)).mapM
          (partSlot s (valueGraph s g component) component) with
      | error e' => simp [hcyclic, hvalue, bind, Except.bind]
      | ok slots => simp [bind, Except.bind, pure, Except.pure]
    · simp [hcyclic, hvalue]
  · simp [hcyclic]

/-- An error of the order comes from a component. -/
theorem exists_of_slotsOf_error {g : Graph} {components : List (List Nat)} {e : SortError}
    (h : slotsOf s g components = .error e) :
    ∃ component ∈ components, componentSlots s g component = .error e := by
  induction components with
  | nil => cases h
  | cons component rest ih =>
      cases hfirst : componentSlots s g component with
      | error e' =>
          rw [slotsOf, hfirst] at h
          cases h
          exact ⟨component, by simp, hfirst⟩
      | ok first =>
          cases hrest : slotsOf s g rest with
          | error e' =>
              rw [slotsOf, hfirst, hrest] at h
              cases h
              obtain ⟨other, hother, herror⟩ := ih hrest
              exact ⟨other, List.mem_cons_of_mem component hother, herror⟩
          | ok slots =>
              rw [slotsOf, hfirst, hrest] at h
              cases h

/-- If a component is refused, there is no order. -/
theorem slotsOf_error {g : Graph} {components : List (List Nat)} {e : SortError}
    (hmem : component ∈ components) (h : componentSlots s g component = .error e) :
    ∃ e', slotsOf s g components = .error e' := by
  induction components with
  | nil => simp at hmem
  | cons first rest ih =>
      cases hfirst : componentSlots s g first with
      | error e' => exact ⟨e', by rw [slotsOf, hfirst]; rfl⟩
      | ok slots =>
          rcases List.mem_cons.1 hmem with rfl | hrest
          · rw [h] at hfirst
            cases hfirst
          · obtain ⟨e', he'⟩ := ih hrest
            exact ⟨e', by rw [slotsOf, hfirst, he']; rfl⟩

/-- Putting blocks back does not fail. -/
theorem ofScope_error_iff {e : SortError} :
    ofScope s = .error e ↔ slotsOf s s.graph (Components.ofGraph s.graph) = .error e := by
  unfold ofScope
  cases hslots : slotsOf s s.graph (Components.ofGraph s.graph) with
  | error e' => simp [hslots, bind, Except.bind]
  | ok order => simp [hslots, bind, Except.bind, pure, Except.pure]

/-- What is reported when there is no order is an initialization cycle. -/
theorem initCycle_of_error {e : SortError} (h : ofScope s = .error e) :
    ∃ v inner d, s.InitCycle v inner ∧ s.decls[v]? = some d ∧
      e = .cycle ((v :: inner ++ [v]).map s.nameAt) d.span := by
  have hgroups := Components.ofGraph_decomposition (Scope.graph_closed s)
  obtain ⟨component, hcomponent, herror⟩ := exists_of_slotsOf_error (ofScope_error_iff.1 h)
  obtain ⟨-, -, hparts⟩ := componentSlots_error_iff.1 herror
  obtain ⟨part, hpart, hrefused⟩ := exists_of_mapM_error hparts
  exact partSlot_error (hgroups.group_nodup hcomponent) hpart hrefused

/-- If a constant or variable depends on itself without steps into types, there is no order. -/
theorem error_of_transGen {v : Nat} (hvalue : s.isValueAt v = true)
    (hcycle : Relation.TransGen s.ValueStep v v) : ∃ e, ofScope s = .error e := by
  have hgroups := Components.ofGraph_decomposition (Scope.graph_closed s)
  have hlt : v < s.graph.size := by
    rw [Scope.graph_size]
    exact Scope.lt_of_isValueAt hvalue
  obtain ⟨component, hcomponent, hv⟩ := hgroups.exists_group hlt
  have hnodup := hgroups.group_nodup hcomponent
  have hdepends : Relation.TransGen s.DependsOn v v :=
    hcycle.lift id fun _ _ hstep => hstep.1
  have hcyclic : s.graph.isCyclic component = true :=
    (Scope.isCyclic_iff_intertwined hgroups hcomponent hv).2 ⟨hdepends, hdepends⟩
  -- The cycle survives among the positions, so the part of `v` is refused.
  have hparts := parts_decomposition s hnodup
  obtain ⟨a, ha⟩ := List.mem_iff_getElem?.1 hv
  have hposition : a < Array.size (valueGraph s s.graph component) := by
    rw [valueGraph_size]
    exact (List.getElem?_eq_some_iff.1 ha).1
  obtain ⟨part, hpart, hapart⟩ := hparts.exists_group hposition
  have hpartCyclic := (hparts.isCyclic_iff hpart hapart).2
    (onCycle_valueGraph hgroups hcomponent ha hcycle)
  have hvalueAt : (component[a]?).any s.isValueAt = true := by
    rw [ha]
    exact hvalue
  obtain ⟨e, he⟩ := (partSlot_error_iff (valueGraph s s.graph component)).2
    ⟨hpartCyclic, a, hapart, hvalueAt⟩
  have hmapM : ∃ e', (Components.ofGraph (valueGraph s s.graph component)).mapM
      (partSlot s (valueGraph s s.graph component) component) = .error e' := by
    cases hall : (Components.ofGraph (valueGraph s s.graph component)).mapM
        (partSlot s (valueGraph s s.graph component) component) with
    | error e' => exact ⟨e', rfl⟩
    | ok slots =>
        have hmap := mapM_ok hall
        have hmem := List.mem_map_of_mem
          (f := partSlot s (valueGraph s s.graph component) component) hpart
        rw [hmap, he] at hmem
        obtain ⟨slot, -, hslot⟩ := List.mem_map.1 hmem
        cases hslot
  obtain ⟨e', he'⟩ := hmapM
  have hany : component.any s.isValueAt = true := List.any_eq_true.2 ⟨v, hv, hvalue⟩
  obtain ⟨e'', he''⟩ := slotsOf_error hcomponent
    (componentSlots_error_iff.2 ⟨hcyclic, hany, he'⟩)
  exact ⟨e'', ofScope_error_iff.2 he''⟩

/-- **A scope has no order exactly when a constant or variable depends on itself** through whatever
other declarations but without a step into a type.  Then the names that are reported run along such
a cycle, from a constant or variable back to it, and the span is that of its declaration. -/
theorem error_iff_initCycle (s : Scope) :
    ((∃ names span, ofScope s = .error (.cycle names span)) ↔
        ∃ v, s.isValueAt v = true ∧ Relation.TransGen s.ValueStep v v) ∧
      ∀ e, ofScope s = .error e → ∃ v inner d, s.InitCycle v inner ∧ s.decls[v]? = some d ∧
        e = .cycle ((v :: inner ++ [v]).map s.nameAt) d.span := by
  refine ⟨⟨?_, ?_⟩, fun e he => initCycle_of_error he⟩
  · rintro ⟨names, span, herror⟩
    obtain ⟨v, inner, -, hcycle, -⟩ := initCycle_of_error herror
    exact ⟨v, hcycle.value, hcycle.transGen⟩
  · rintro ⟨v, hvalue, hcycle⟩
    obtain ⟨e, he⟩ := error_of_transGen hvalue hcycle
    obtain ⟨w, path, d, -, -, rfl⟩ := initCycle_of_error he
    exact ⟨_, _, he⟩

end Order

end ScriptCore
