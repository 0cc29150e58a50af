import ScriptCore.Declaration.Order
import ScriptCore.Proofs.Graph.Reachability

/-!
# Dependencies between declarations

The graph that the order of a scope is computed from has an edge for every name that a declaration
refers to and every method it may select.  Here the edges are read off the declarations themselves
(`graph_edge_iff`), so that statements about the order need not mention the graph.
-/

namespace ScriptCore.Scope

/-- Declaration `i` depends on declaration `j`: it refers to a name that `j` binds, or it selects a
name and `j` is a method of that name. -/
def DependsOn (s : Scope) (i j : Nat) : Prop :=
  ∃ d, s.decls[i]? = some d ∧
    ((∃ name ∈ d.deps, s.indexOf? name = some j) ∨
      ∃ method ∈ d.methodDeps, ∃ e, s.decls[j]? = some e ∧ e.kind = .method ∧
        e.func.map FuncDecl.name = some method)

/-- Two declarations depend on each other, directly or through others; a declaration does so with
itself if it lies on a cycle.  Such declarations make up a cyclic component. -/
def Intertwined (s : Scope) (i j : Nat) : Prop :=
  Relation.TransGen s.DependsOn i j ∧ Relation.TransGen s.DependsOn j i

variable {s : Scope} {i j : Nat}

/-- The indices of the methods of a name are those of its method declarations. -/
theorem mem_methodIndices {method : Name} :
    j ∈ s.methodIndices method ↔ ∃ e, s.decls[j]? = some e ∧ e.kind = .method ∧
      e.func.map FuncDecl.name = some method := by
  simp only [methodIndices, List.mem_filter, List.mem_range]
  constructor
  · rintro ⟨hj, h⟩
    rw [Array.getElem?_eq_getElem hj] at h ⊢
    exact ⟨_, rfl, by simpa using h⟩
  · rintro ⟨e, he, hkind, hname⟩
    obtain ⟨hj, -⟩ := Array.getElem?_eq_some_iff.1 he
    exact ⟨hj, by simp [he, hkind, hname]⟩

/-- The graph of a scope has the declarations as its nodes. -/
@[simp] theorem graph_size (s : Scope) : Array.size s.graph = s.decls.size := by
  simp [graph]

/-- Edges of the graph are dependencies. -/
theorem graph_edge_iff : s.graph.Edge i j ↔ s.DependsOn i j := by
  unfold Graph.Edge Graph.targets graph DependsOn
  rw [Array.getElem?_map]
  cases hd : s.decls[i]? with
  | none => simp
  | some d =>
      simp only [Option.map_some, Option.getD_some, edgesOf, List.mem_eraseDups, List.mem_append,
        List.mem_filterMap, List.mem_flatMap, mem_methodIndices]
      constructor
      · exact fun h => ⟨d, rfl, h⟩
      · rintro ⟨e, he, h⟩
        cases he
        exact h

/-- As relations, edges and dependencies are the same. -/
theorem graph_edge_eq (s : Scope) : s.graph.Edge = s.DependsOn := by
  funext i j
  exact propext graph_edge_iff

/-- Dependencies are declarations. -/
theorem DependsOn.target_lt (h : s.DependsOn i j) : j < s.decls.size := by
  obtain ⟨d, -, ⟨name, -, hname⟩ | ⟨method, -, e, he, -⟩⟩ := h
  · exact (Array.findIdx?_eq_some_iff_getElem.1 hname).1
  · exact (Array.getElem?_eq_some_iff.1 he).1

/-- Only declarations have dependencies. -/
theorem DependsOn.source_lt (h : s.DependsOn i j) : i < s.decls.size := by
  obtain ⟨d, hd, -⟩ := h
  exact (Array.getElem?_eq_some_iff.1 hd).1

/-- Edges of the graph lead to declarations. -/
theorem graph_closed (s : Scope) : s.graph.Closed := by
  intro i j hij
  rw [graph_size]
  exact (graph_edge_iff.1 hij).target_lt

/-- Members of one group of a decomposition that depend on each other are intertwined. -/
theorem intertwined_of_edge {groups : List (List Nat)} (h : s.graph.Decomposition groups)
    {group : List Nat} (hgroup : group ∈ groups) (hi : i ∈ group) (hj : j ∈ group)
    (hij : s.DependsOn i j) : s.Intertwined i j := by
  have hji := h.connected group hgroup j hj i hi
  rw [Graph.Reaches, graph_edge_eq] at hji
  have hcycle : Relation.TransGen s.DependsOn j j := Relation.TransGen.tail' hji hij
  refine ⟨.single hij, ?_⟩
  rcases Relation.reflTransGen_iff_eq_or_transGen.1 hji with heq | htrans
  · rw [heq]
    exact hcycle
  · exact htrans

/-- Intertwined declarations are in one group of a decomposition. -/
theorem Intertwined.mem_group {groups : List (List Nat)} (h : s.graph.Decomposition groups)
    (hij : s.Intertwined i j) {group : List Nat} (hgroup : group ∈ groups) (hi : i ∈ group) :
    j ∈ group := by
  rw [h.mem_iff_mutual hgroup hi, Graph.Reaches, graph_edge_eq]
  exact ⟨hij.1.to_reflTransGen, hij.2.to_reflTransGen⟩

/-- A group is cyclic exactly when its members are intertwined with themselves. -/
theorem isCyclic_iff_intertwined {groups : List (List Nat)} (h : s.graph.Decomposition groups)
    {group : List Nat} (hgroup : group ∈ groups) (hi : i ∈ group) :
    s.graph.isCyclic group = true ↔ s.Intertwined i i := by
  rw [h.isCyclic_iff hgroup hi, Graph.OnCycle, graph_edge_eq]
  exact ⟨fun hcycle => ⟨hcycle, hcycle⟩, And.left⟩

end ScriptCore.Scope
