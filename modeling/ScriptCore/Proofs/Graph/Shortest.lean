import ScriptCore.Proofs.Graph.Condensation
import ScriptCore.Proofs.Graph.Cycle

/-!
# The cycle found is a shortest one

The search takes the paths of its queue in the order of their lengths (`Levels`).  The queue is
sorted, and its last path has at most one node more than its first; each path in it is a shortest
one to its newest node; and what can be reached in fewer steps than the first path takes has been
expanded before.

An expanded node has no edge back to the start, or the search had ended there.  So a closed path
with fewer steps than the one that closes would end in an edge that was found missing.

Main statement: `cycleThrough_shortest`, for every component with an edge inside and every member.
-/

namespace ScriptCore.Cycle

variable {g : Graph} {members : List Nat} {start : Nat}

/-- A number of steps between members that lead from the start to a node. -/
inductive Arrives (g : Graph) (members : List Nat) (start : Nat) : Nat → Nat → Prop where
  | here : Arrives g members start 0 start
  | step {k v w : Nat} : Arrives g members start k v → StepIn g members v w →
      Arrives g members start (k + 1) w

/-- A walk between members goes on along a path. -/
theorem Arrives.along {k v w : Nat} {path : List Nat} (h : Arrives g members start k v)
    (hsteps : (v :: path ++ [w]).IsChain g.Edge) (hinside : ∀ x ∈ path ++ [w], x ∈ members) :
    Arrives g members start (k + path.length + 1) w := by
  induction path generalizing k v with
  | nil =>
      have hvw : g.Edge v w := by simpa using hsteps
      exact h.step ⟨hvw, hinside w (by simp)⟩
  | cons x path ih =>
      obtain ⟨hvx, hrest⟩ := List.isChain_cons_cons.1 hsteps
      have hx : x ∈ members := hinside x (by simp)
      have hlater := ih (h.step ⟨hvx, hx⟩) hrest fun y hy => hinside y (List.mem_cons_of_mem x hy)
      simpa [Nat.add_right_comm, Nat.add_assoc] using hlater

/-- The order in which the search expands nodes. -/
structure Levels (g : Graph) (members : List Nat) (start : Nat) (done : List Nat)
    (queue : List (List Nat)) : Prop where
  sorted : queue.Pairwise (·.length ≤ ·.length)
  spread : ∀ p ∈ queue, ∀ q ∈ queue, q.length ≤ p.length + 1
  shortest : ∀ p ∈ queue, ∀ k, Arrives g members start k (p.headD start) → p.length ≤ k + 1
  nearer : queue ≠ [] → ∀ k v, Arrives g members start k v → (∀ p ∈ queue, k + 1 < p.length) →
    v ∈ done

theorem Levels.initial : Levels g members start [] [[start]] :=
  ⟨by simp, by simp, by simp, by simp⟩

section Expand

variable {path done seen seen' : List Nat} {queue found : List (List Nat)}

/-- What can be reached in fewer steps than the first path takes has been expanded. -/
theorem Levels.mem_done (h : Levels g members start done (path :: queue)) {k v : Nat}
    (hv : Arrives g members start k v) (hk : k + 1 < path.length) : v ∈ done := by
  refine h.nearer (by simp) k v hv fun p hp => ?_
  rcases List.mem_cons.1 hp with rfl | hp
  · exact hk
  · exact hk.trans_le ((List.pairwise_cons.1 h.sorted).1 p hp)

/-- A node that was not met yet takes as many steps as the first path has nodes. -/
theorem Levels.le_of_not_met (hf : Frontier g members start done (path :: queue) seen)
    (h : Levels g members start done (path :: queue)) {k w : Nat} (hw : w ∉ start :: seen)
    (hk : Arrives g members start k w) : path.length ≤ k := by
  by_contra hlt
  cases hk with
  | here => simp at hw
  | @step k v _ hv hvw =>
      have hdone : v ∈ done := h.mem_done hv (by omega)
      exact hw (List.mem_cons_of_mem start (hf.expanded v hdone w hvw))

/-- A walk back to the start takes as many steps as the first path has nodes. -/
theorem Levels.le_of_return (hf : Frontier g members start done (path :: queue) seen)
    (h : Levels g members start done (path :: queue)) {k : Nat}
    (hk : Arrives g members start (k + 1) start) : path.length ≤ k + 1 := by
  by_contra hlt
  cases hk with
  | @step _ v _ hv hback =>
      have hdone : v ∈ done := h.mem_done hv (by omega)
      exact (List.nodup_cons.1 hf.nodup).1 (hf.expanded v hdone start hback)

/-- Expanding the path at the front of the queue keeps the order. -/
theorem Levels.expand {v : Nat} {rest : List Nat}
    (hf : Frontier g members start done ((v :: rest) :: queue) seen)
    (h : Levels g members start done ((v :: rest) :: queue))
    (hscan : scan members start (v :: rest) (g.targets v) [] seen = .extended found seen') :
    Levels g members start (done ++ [v]) (queue ++ found) := by
  obtain ⟨new, rfl, -, -, hnew, -⟩ := scan_extended hscan
  rw [List.nil_append]
  obtain ⟨hfirst, hsorted⟩ := List.pairwise_cons.1 h.sorted
  have hlast (q : List Nat) (hq : q ∈ queue) : q.length ≤ (v :: rest).length + 1 :=
    h.spread (v :: rest) (by simp) q (by simp [hq])
  have hfound (q : List Nat) (hq : q ∈ new.map (· :: v :: rest)) :
      q.length = (v :: rest).length + 1 := by
    obtain ⟨w, -, rfl⟩ := List.mem_map.1 hq
    simp
  have hspread (q : List Nat) (hq : q ∈ queue ++ new.map (· :: v :: rest)) :
      (v :: rest).length ≤ q.length ∧ q.length ≤ (v :: rest).length + 1 := by
    rcases List.mem_append.1 hq with hq | hq
    · exact ⟨hfirst q hq, hlast q hq⟩
    · have := hfound q hq
      omega
  refine ⟨?_, ?_, ?_, ?_⟩
  · refine List.pairwise_append.2 ⟨hsorted, ?_, fun p hp q hq => ?_⟩
    · refine List.pairwise_of_forall_mem_list fun p hp q hq => ?_
      rw [hfound p hp, hfound q hq]
    · rw [hfound q hq]
      exact hlast p hp
  · intro p hp q hq
    have hp' := (hspread p hp).1
    have hq' := (hspread q hq).2
    omega
  · intro p hp k hk
    rcases List.mem_append.1 hp with hp | hp
    · exact h.shortest p (by simp [hp]) k hk
    · obtain ⟨w, hw, rfl⟩ := List.mem_map.1 hp
      obtain ⟨hseen, hne, -⟩ := hnew w hw
      have hle := h.le_of_not_met hf (by simp [hseen, hne]) hk
      simpa using hle
  · intro hqueue k x hx hk
    by_cases hlt : k + 1 < (v :: rest).length
    · exact List.mem_append_left _ (h.mem_done hx hlt)
    · -- `x` is one step behind what was expanded, so it was met, and on no path that is left
      have hmet : x ∈ start :: seen := by
        by_contra hout
        have hle := h.le_of_not_met hf hout hx
        obtain ⟨p, hp⟩ := List.exists_mem_of_ne_nil _ hqueue
        have hp' := (hspread p hp).2
        have hp'' := hk p hp
        omega
      have hx' := hf.accounted.symm.subset hmet
      simp only [List.map_cons, List.headD_cons, List.mem_append, List.mem_cons, List.mem_map] at hx'
      obtain hx' | rfl | ⟨q, hq, rfl⟩ := hx'
      · exact List.mem_append_left _ hx'
      · simp
      · have hshort := h.shortest q (by simp [hq]) k hx
        have hlong := hk q (by simp [hq])
        omega

end Expand

/-- **The search ends with the fewest steps** that lead back to the start. -/
theorem search_shortest (fuel : Nat) {done seen cycle : List Nat} {queue : List (List Nat)}
    (hf : Frontier g members start done queue seen) (h : Levels g members start done queue)
    (hcycle : search g members start fuel queue seen = some cycle) {k : Nat}
    (hk : Arrives g members start (k + 1) start) : cycle.length ≤ k + 2 := by
  induction fuel generalizing done queue seen with
  | zero => simp [search] at hcycle
  | succ fuel ih =>
      cases queue with
      | nil => simp [search] at hcycle
      | cons path queue =>
          obtain ⟨htrail, -⟩ := hf.trails path (by simp)
          obtain ⟨v, rest, rfl⟩ := htrail.exists_cons
          simp only [search, List.headD_cons] at hcycle
          cases hscan : scan members start (v :: rest) (g.targets v) [] seen with
          | closed closing =>
              rw [hscan] at hcycle
              have hle := h.le_of_return hf hk
              rw [← Option.some.inj hcycle, scan_closed hscan]
              simpa using hle
          | extended found seen' =>
              rw [hscan] at hcycle
              exact ih (hf.expand hscan) (h.expand hf hscan) hcycle

end ScriptCore.Cycle

namespace ScriptCore.Graph

variable {g : Graph} {members : List Nat}

/-- A strongly connected component in ascending order: with each member it has exactly the nodes
that the member reaches and is reached from. -/
structure IsComponent (g : Graph) (members : List Nat) : Prop where
  ascending : members.Pairwise (· < ·)
  mem_iff : ∀ v ∈ members, ∀ w, w ∈ members ↔ g.Reaches v w ∧ g.Reaches w v

/-- A closed path among some nodes: at least one step, each along an edge, and the last to where the
path began. -/
structure IsClosedPath (g : Graph) (members path : List Nat) : Prop where
  steps : path.IsChain g.Edge
  inside : ∀ v ∈ path, v ∈ members
  closed : path.head? = path.getLast?
  long : 2 ≤ path.length

/-- What the search for components returns are components. -/
theorem isComponent_of_mem_ofGraph (hg : g.Closed) (h : members ∈ Components.ofGraph g) :
    g.IsComponent members :=
  ⟨(Components.mem_ofGraph_ascending hg h).2, fun _ hv _ =>
    (Components.ofGraph_decomposition hg).mem_iff_mutual h hv⟩

/-- With an edge inside a component, every member lies on a cycle. -/
theorem IsComponent.onCycle (h : g.IsComponent members) {start v w : Nat} (hstart : start ∈ members)
    (hv : v ∈ members) (hw : w ∈ members) (hvw : g.Edge v w) : g.OnCycle start := by
  have hto : g.Reaches start v := ((h.mem_iff start hstart v).1 hv).1
  have hback : g.Reaches w start := ((h.mem_iff start hstart w).1 hw).2
  exact (Relation.TransGen.tail' hto hvw).trans_left hback

/-- A closed path can be walked from any node on it. -/
theorem IsClosedPath.walk_from {path : List Nat} (h : g.IsClosedPath members path) {start : Nat}
    (hstart : start ∈ path) : ∃ inner, inner.length + 2 = path.length ∧
      (start :: inner ++ [start]).IsChain g.Edge ∧ ∀ v ∈ inner, v ∈ members := by
  obtain ⟨first, middle, rfl⟩ : ∃ first middle, path = first :: middle ++ [first] := by
    match path, h.closed, h.long with
    | first :: rest, hclosed, hlong =>
        have hlast : rest.getLast? = some first := by
          cases rest with
          | nil => simp at hlong
          | cons x rest => simpa [List.getLast?_cons_cons] using hclosed.symm
        exact ⟨first, rest.dropLast,
          congrArg (first :: ·) (List.dropLast_append_getLast? first hlast).symm⟩
  by_cases hfirst : start = first
  · subst hfirst
    exact ⟨middle, by simp, h.steps, fun v hv => h.inside v (by simp [hv])⟩
  · have hmiddle : start ∈ middle := by simpa [hfirst] using hstart
    obtain ⟨front, back, rfl⟩ := List.append_of_mem hmiddle
    have hsteps : ((first :: front) ++ start :: (back ++ [first])).IsChain g.Edge := by
      simpa using h.steps
    obtain ⟨hfront, hback⟩ := List.isChain_split.1 hsteps
    refine ⟨back ++ first :: front, by simp; omega, ?_, fun v hv => h.inside v ?_⟩
    · have hturned : ((start :: back) ++ first :: (front ++ [start])).IsChain g.Edge :=
        List.isChain_split.2 ⟨hback, hfront⟩
      simpa using hturned
    · simp only [List.mem_append, List.mem_cons] at hv
      simp only [List.mem_append, List.mem_cons]
      tauto

/-- The cycle reported has no more steps than any walk that comes back to the start. -/
theorem cycleThrough_length_le {start k : Nat} (hstart : start ∈ members)
    (hcycle : Relation.TransGen (Cycle.StepIn g members) start start)
    (hk : Cycle.Arrives g members start (k + 1) start) :
    (g.cycleThrough members start).length ≤ k + 2 := by
  obtain ⟨cycle, -, hfound, -⟩ :=
    Cycle.search_spec (members.length + 1) hstart hcycle (.initial hstart) (by simp)
  have hle := Cycle.search_shortest _ (.initial hstart) .initial hfound hk
  simpa [cycleThrough, hfound] using hle

/-- **A shortest cycle**: through any member of a component with an edge inside, the path reported
leads from the member back to it along edges between members, meets no other node twice, and is not
longer than any closed path through the member inside the component. -/
theorem cycleThrough_shortest {start : Nat} (h : g.IsComponent members)
    (hedge : ∃ v ∈ members, ∃ w ∈ members, g.Edge v w) (hstart : start ∈ members) :
    ∃ inner, g.cycleThrough members start = start :: inner ++ [start] ∧
      g.IsClosedPath members (start :: inner ++ [start]) ∧ (start :: inner).Nodup ∧
      ∀ path, g.IsClosedPath members path → start ∈ path →
        (g.cycleThrough members start).length ≤ path.length := by
  obtain ⟨v, hv, w, hw, hvw⟩ := hedge
  have hcycle := (h.onCycle hstart hv hw hvw).inside (h.mem_iff start hstart)
  obtain ⟨inner, hfound, hcloses⟩ := cycleThrough_spec hstart hcycle
  refine ⟨inner, hfound, ⟨hcloses.steps, fun x hx => ?_, ?_, by simp⟩, hcloses.nodup,
    fun path hpath hon => ?_⟩
  · simp only [List.cons_append, List.mem_cons, List.mem_append, List.not_mem_nil, or_false] at hx
    obtain rfl | hx | rfl := hx
    · exact hstart
    · exact hcloses.inside x hx
    · exact hstart
  · exact List.getLast?_concat.symm
  · obtain ⟨walk, hlength, hsteps, hinside⟩ := hpath.walk_from hon
    have hback : Cycle.Arrives g members start (0 + walk.length + 1) start :=
      Cycle.Arrives.here.along hsteps fun x hx => by
        rcases List.mem_append.1 hx with hx | hx
        · exact hinside x hx
        · exact List.mem_singleton.1 hx ▸ hstart
    have hle := cycleThrough_length_le hstart hcycle hback
    omega

/-- Two ways round from the first node, of three and of four steps, and an edge from a node to
itself. -/
def rounds : Graph := #[[1, 2], [2], [3], [3, 0]]

/-- The way round from the first node that skips the second. -/
theorem rounds_shortest : rounds.IsComponent [0, 1, 2, 3] ∧
    (∃ v ∈ [0, 1, 2, 3], ∃ w ∈ [0, 1, 2, 3], rounds.Edge v w) ∧ 0 ∈ [0, 1, 2, 3] ∧
    rounds.cycleThrough [0, 1, 2, 3] 0 = [0, 2, 3, 0] ∧
    ∃ inner, rounds.cycleThrough [0, 1, 2, 3] 0 = 0 :: inner ++ [0] ∧
      rounds.IsClosedPath [0, 1, 2, 3] (0 :: inner ++ [0]) ∧ (0 :: inner).Nodup ∧
      ∀ path, rounds.IsClosedPath [0, 1, 2, 3] path → 0 ∈ path →
        (rounds.cycleThrough [0, 1, 2, 3] 0).length ≤ path.length := by
  have hclosed : rounds.Closed := by
    intro v w hw
    by_cases hv : v < 4
    · revert w
      revert v
      decide
    · rw [targets_of_size_le (Nat.le_of_not_lt hv)] at hw
      cases hw
  have hcomponent : rounds.IsComponent [0, 1, 2, 3] := by
    refine isComponent_of_mem_ofGraph hclosed ?_
    have hgroups : Components.ofGraph rounds = [[0, 1, 2, 3]] := by cbv
    simp [hgroups]
  have hedge : ∃ v ∈ [0, 1, 2, 3], ∃ w ∈ [0, 1, 2, 3], rounds.Edge v w :=
    ⟨0, by simp, 1, by simp, by simp [Edge, targets, rounds]⟩
  exact ⟨hcomponent, hedge, by simp, by cbv, cycleThrough_shortest hcomponent hedge (by simp)⟩

end ScriptCore.Graph
