import Mathlib.Data.List.Permutation
import ScriptCore.Proofs.Graph.Components

/-!
# What the component search returns

The search is cut off at a depth of one more than the number of nodes.  The cut is never reached: a
visit that goes deeper has opened one node more, and there are only so many nodes (`visit_deeper`).
So the components are those of the search without a limit.

Each component is closed once, sorted, with the node that closes it, so it is not empty and comes in
ascending order (`mem_ofGraph_ascending`).  Together with the decomposition of the graph this says
all there is to say about the list of components: `ofGraph_condenses`.
-/

namespace ScriptCore

namespace Components

variable {g : Graph}

/-! ### The limit on the depth is never reached -/

/-- What more depth than `fuel` does to a visit that has enough of it: nothing. -/
def DeeperSame (g : Graph) (fuel extra : Nat) : Prop :=
  ∀ (s : Search) (v : Nat), s.Valid g → v < g.size → (∀ x ∈ s.stack, g.Reaches x v) →
    g.size < fuel + s.stack.length → visit g (fuel + extra) s v = visit g fuel s v

/-- Targets are followed in the same way with more depth.  The invariant of the exploration says
that each of them is visited with enough of it. -/
theorem explore_deeper {fuel extra v : Nat} {s : Search} (hg : g.Closed)
    (hsame : DeeperSame g fuel extra) (hstack : ∀ x ∈ s.stack, g.Reaches x v)
    (hfuel : g.size < fuel + s.stack.length) (rest : List Nat) (hrest : ∀ w ∈ rest, g.Edge v w)
    (acc : Option Nat × Search) {followed new : List Nat}
    (h : Explored g s v followed acc.1 acc.2 new) :
    rest.foldl (fun acc w => let r := visit g (fuel + extra) acc.2 w; (lower acc.1 r.1, r.2)) acc =
      rest.foldl (fun acc w => let r := visit g fuel acc.2 w; (lower acc.1 r.1, r.2)) acc := by
  induction rest generalizing followed new acc with
  | nil => rfl
  | cons w rest ih =>
      have hvw : g.Edge v w := hrest w (by simp)
      have hreach : ∀ x ∈ acc.2.stack, g.Reaches x w := by
        intro x hx
        rw [h.grows.stack, List.mem_append] at hx
        rcases hx with hx | hx
        · exact (h.reached x hx).2.tail hvw
        · exact (hstack x hx).tail hvw
      have hlong : g.size < fuel + acc.2.stack.length := by
        rw [h.grows.stack, List.length_append]
        omega
      have hvisit := hsame acc.2 w h.valid (hg v w hvw) hreach hlong
      obtain ⟨newer, hw⟩ := visit_spec hg fuel acc.2 w h.valid (hg v w hvw) hreach hlong
      rw [List.foldl_cons, List.foldl_cons, hvisit]
      exact ih (fun x hx => hrest x (List.mem_cons_of_mem w hx)) _ (h.follow hstack hvw hw)

/-- **More depth changes nothing**: a visit opens a node at each level, so it does not go deeper
than there are nodes that are not open. -/
theorem visit_deeper (hg : g.Closed) (fuel extra : Nat) : DeeperSame g fuel extra := by
  induction fuel with
  | zero =>
      intro s v hs _ _ hfuel
      have := hs.stack_length_le
      omega
  | succ fuel ih =>
      intro s v hs hv hreach hfuel
      rw [Nat.succ_add]
      by_cases hopen : v ∈ s.stack
      · rw [visit_on_stack hopen, visit_on_stack hopen]
      cases hclosed : s.isClosed v with
      | true => rw [visit_closed hopen hclosed, visit_closed hopen hclosed]
      | false =>
          have hdone : v ∉ s.done := by
            simpa [Search.isClosed, Search.done] using hclosed
          have hback : ∀ x ∈ (s.discover v).stack, g.Reaches x v := by
            intro x hx
            rcases List.mem_cons.1 hx with rfl | hx
            · exact .refl
            · exact hreach x hx
          have hlong : g.size < fuel + (s.discover v).stack.length := by
            show g.size < fuel + (v :: s.stack).length
            rw [List.length_cons]
            omega
          have hsame := explore_deeper hg ih hback hlong (g.targets v) (fun w hw => hw)
            (none, s.discover v) (.start (hs.discover hv hopen hdone) v)
          unfold visit
          rw [hsame]

/-- All nodes are visited in turn in the same way with more depth. -/
theorem visitAll_deeper (hg : g.Closed) {fuel : Nat} (hfuel : g.size < fuel) (roots : List Nat)
    (hroots : ∀ v ∈ roots, v < g.size) {s : Search} (hs : s.Valid g) (hempty : s.stack = []) :
    roots.foldl (fun s v => (visit g fuel s v).2) s =
      roots.foldl (fun s v => (visit g (g.size + 1) s v).2) s := by
  induction roots generalizing s with
  | nil => rfl
  | cons v roots ih =>
      have hv : v < g.size := hroots v (by simp)
      have hvisit : visit g fuel s v = visit g (g.size + 1) s v := by
        obtain ⟨extra, rfl⟩ := Nat.exists_eq_add_of_le hfuel
        exact visit_deeper hg (g.size + 1) extra s v hs hv (by simp [hempty]) (by omega)
      obtain ⟨hvalid, hstack, -⟩ := visitAll_spec hg [v] (by simpa using hv) hs hempty
      rw [List.foldl_cons, List.foldl_cons, hvisit]
      exact ih (fun x hx => hroots x (List.mem_cons_of_mem v hx)) hvalid hstack

/-! ### The form of a component -/

/-- What holds of every component when it is closed holds of all components after a visit. -/
theorem mem_closed_visit {P : List Nat → Prop}
    (hclose : ∀ v above, P ((v :: above).mergeSort (· ≤ ·))) (fuel : Nat) (s : Search) (v : Nat)
    (hs : ∀ component ∈ s.closed, P component) :
    ∀ component ∈ (visit g fuel s v).2.closed, P component := by
  induction fuel generalizing s v with
  | zero => exact hs
  | succ fuel ih =>
      have hfold (rest : List Nat) (acc : Option Nat × Search)
          (hacc : ∀ component ∈ acc.2.closed, P component) :
          ∀ component ∈ (rest.foldl (fun acc w =>
            let r := visit g fuel acc.2 w; (lower acc.1 r.1, r.2)) acc).2.closed, P component := by
        induction rest generalizing acc with
        | nil => exact hacc
        | cons w rest ihrest => exact ihrest _ (ih acc.2 w hacc)
      have hbelow := hfold (g.targets v) (none, s.discover v) hs
      have hclosing (t : Search) (ht : ∀ component ∈ t.closed, P component) :
          ∀ component ∈ (t.close v).closed, P component := by
        intro component hc
        rcases List.mem_append.1 hc with hc | hc
        · exact ht component hc
        · rw [List.mem_singleton.1 hc]
          exact hclose v _
      unfold visit
      split
      · exact hs
      · split
        · exact hs
        · dsimp only
          split
          · split
            · exact hbelow
            · exact hclosing _ hbelow
          · exact hclosing _ hbelow

/-- **A component is not empty and comes in ascending order.** -/
theorem mem_ofGraph_ascending (hg : g.Closed) {component : List Nat} (hc : component ∈ ofGraph g) :
    component ≠ [] ∧ component.Pairwise (· < ·) := by
  have hform : component ≠ [] ∧ component.Pairwise (· ≤ ·) := by
    have hfold (roots : List Nat) (s : Search)
        (hs : ∀ c ∈ s.closed, c ≠ [] ∧ c.Pairwise (· ≤ ·)) :
        ∀ c ∈ (roots.foldl (fun s v => (visit g (g.size + 1) s v).2) s).closed,
          c ≠ [] ∧ c.Pairwise (· ≤ ·) := by
      induction roots generalizing s with
      | nil => exact hs
      | cons v roots ih =>
          refine ih _ (mem_closed_visit (fun v above => ⟨?_, ?_⟩) _ s v hs)
          · intro hnil
            have hlength := congrArg List.length hnil
            simp at hlength
          · simpa using @List.pairwise_mergeSort Nat (fun a b => decide (a ≤ b))
              (by simp; omega) (by simp; omega) (v :: above)
    exact hfold _ ⟨[], []⟩ (by simp) component hc
  refine ⟨hform.1, ?_⟩
  have hnodup := (ofGraph_decomposition hg).group_nodup hc
  exact (hform.2.and hnodup).imp fun h => Nat.lt_of_le_of_ne h.1 h.2

/-- **The components of a graph.**  The search is not cut off; each component is a list of nodes in
ascending order that is not empty; every node is in exactly one of them; two nodes share one exactly
when each reaches the other; and an edge leads into the component it starts from or into one listed
before it. -/
theorem ofGraph_condenses (hg : g.Closed) :
    (∀ fuel, g.size < fuel →
      ((List.range g.size).foldl (fun s v => (visit g fuel s v).2) ⟨[], []⟩).closed = ofGraph g) ∧
    (∀ component ∈ ofGraph g, component ≠ [] ∧ component.Pairwise (· < ·)) ∧
    (ofGraph g).flatten.Perm (List.range g.size) ∧
    (∀ v w, v < g.size → ((∃ component ∈ ofGraph g, v ∈ component ∧ w ∈ component) ↔
      g.Reaches v w ∧ g.Reaches w v)) ∧
    (∀ v w, g.Edge v w → ∃ before component after,
      ofGraph g = before ++ component :: after ∧ v ∈ component ∧
        (w ∈ component ∨ w ∈ before.flatten)) := by
  have hd := ofGraph_decomposition hg
  refine ⟨fun fuel hfuel => ?_, fun _ => mem_ofGraph_ascending hg, hd.complete, ?_, ?_⟩
  · have hstart : (⟨[], []⟩ : Search).Valid g :=
      ⟨by simp [Search.done], by simp [Search.done], by simp, by simp⟩
    rw [visitAll_deeper hg hfuel _ (fun v hv => List.mem_range.1 hv) hstart rfl]
    rfl
  · intro v w hv
    obtain ⟨component, hc, hvc⟩ := hd.exists_group hv
    rw [← hd.mem_iff_mutual hc hvc]
    constructor
    · rintro ⟨other, ho, hvo, hwo⟩
      exact (hd.group_unique ho hc hvo hvc w).1 hwo
    · intro hwc
      exact ⟨component, hc, hvc, hwc⟩
  · intro v w hvw
    have hv : v < g.size := by
      apply Nat.lt_of_not_le
      intro hle
      rw [Graph.Edge, Graph.targets_of_size_le hle] at hvw
      cases hvw
    obtain ⟨component, hc, hvc⟩ := hd.exists_group hv
    obtain ⟨before, after, hsplit⟩ := List.append_of_mem hc
    exact ⟨before, component, after, hsplit, hvc,
      hd.ordered before component after hsplit v hvc w hvw⟩

/-- Two cycles that share a node, an edge back to a node itself, and an edge given twice. -/
def knots : Graph := #[[1], [2, 2], [0, 3], [4], [3, 3], [5, 1]]

/-- The components of a graph in which nodes are met again while they are open and after they have
been closed. -/
theorem knots_condenses : knots.Closed ∧ ofGraph knots = [[3, 4], [0, 1, 2], [5]] ∧
    ((∃ component ∈ ofGraph knots, 0 ∈ component ∧ 2 ∈ component) ↔
      knots.Reaches 0 2 ∧ knots.Reaches 2 0) := by
  have hclosed : knots.Closed := by
    intro v w hw
    by_cases hv : v < 6
    · revert w
      revert v
      decide
    · rw [Graph.targets_of_size_le (Nat.le_of_not_lt hv)] at hw
      cases hw
  exact ⟨hclosed, by cbv, (ofGraph_condenses hclosed).2.2.2.1 0 2 (by decide)⟩

end Components

end ScriptCore
