import Mathlib.Data.List.Chain
import ScriptCore.Graph.Cycle
import ScriptCore.Proofs.Graph.Reachability

/-!
# The cycle search is complete

The breadth-first search keeps paths from the start in a queue, each listed from its newest node
back.  Nodes that were expanded have all their targets among the nodes met (`Frontier.expanded`), so
a queue that runs empty would leave a set of nodes that contains the start, is closed under edges
and has no edge back to the start.  There is none when the start lies on a cycle, and the fuel lasts
for one expansion of every member.

Main statement: `cycleThrough_spec`, a start that lies on a cycle of the members is reported with
one, in which no other node is repeated.
-/

namespace ScriptCore.Cycle

variable {g : Graph} {members : List Nat} {start : Nat}

/-- A path from `start` through distinct members, listed from its newest node back. -/
structure Trail (g : Graph) (members : List Nat) (start : Nat) (path : List Nat) : Prop where
  last : path.getLast? = some start
  steps : path.IsChain fun w v => g.Edge v w
  inside : ∀ v ∈ path, v ∈ members
  nodup : path.Nodup

/-- A closed path that meets no node twice but its two ends. -/
structure Closes (g : Graph) (members : List Nat) (start : Nat) (inner : List Nat) : Prop where
  steps : (start :: inner ++ [start]).IsChain g.Edge
  inside : ∀ v ∈ inner, v ∈ members
  nodup : (start :: inner).Nodup

/-- An edge of the graph between members, as far as its target is concerned. -/
def StepIn (g : Graph) (members : List Nat) (v w : Nat) : Prop :=
  g.Edge v w ∧ w ∈ members

/-- A trail has a newest node. -/
theorem Trail.exists_cons {path : List Nat} (h : Trail g members start path) :
    ∃ v rest, path = v :: rest := by
  cases path with
  | nil => simpa using h.last
  | cons v rest => exact ⟨v, rest, rfl⟩

/-- A trail grows by a member that is not on it. -/
theorem Trail.extend {v w : Nat} {rest : List Nat} (h : Trail g members start (v :: rest))
    (hvw : g.Edge v w) (hw : w ∈ members) (hnew : w ∉ v :: rest) :
    Trail g members start (w :: v :: rest) := by
  refine ⟨by simpa [List.getLast?_cons_cons] using h.last, ?_, ?_,
    List.nodup_cons.2 ⟨hnew, h.nodup⟩⟩
  · exact List.isChain_cons_cons.2 ⟨hvw, h.steps⟩
  · intro x hx
    rcases List.mem_cons.1 hx with rfl | hx
    · exact hw
    · exact h.inside x hx

/-- A trail whose newest node leads to the start closes. -/
theorem Trail.closes {v : Nat} {rest : List Nat} (h : Trail g members start (v :: rest))
    (hv : g.Edge v start) :
    ∃ inner, (start :: v :: rest).reverse = start :: inner ++ [start] ∧
      Closes g members start inner := by
  obtain ⟨front, hfront⟩ : ∃ front, v :: rest = front ++ [start] := by
    refine ⟨(v :: rest).dropLast, ?_⟩
    have := List.dropLast_append_getLast? start h.last
    exact this.symm
  refine ⟨front.reverse, by simp [hfront], ?_, ?_, ?_⟩
  · have hback : (start :: v :: rest).IsChain fun w v => g.Edge v w :=
      List.isChain_cons_cons.2 ⟨hv, h.steps⟩
    have hforth := List.isChain_reverse.2 hback
    simpa [hfront] using hforth
  · intro x hx
    exact h.inside x (by rw [hfront]; simp [List.mem_reverse.1 hx])
  · have hnodup := h.nodup
    rw [hfront] at hnodup
    have := List.nodup_reverse.2 hnodup
    simpa using this

/-- A node met by the scan of a target list closes a path only if the start is among the targets. -/
theorem start_mem_of_closed {path targets cycle : List Nat} {found : List (List Nat)}
    {seen : List Nat} (h : scan members start path targets found seen = .closed cycle) :
    start ∈ targets := by
  induction targets generalizing found seen with
  | nil => simp [scan] at h
  | cons w rest ih =>
      simp only [scan] at h
      by_cases hin : !members.contains w
      · rw [if_pos hin] at h
        exact List.mem_cons_of_mem w (ih h)
      · rw [if_neg hin] at h
        by_cases hw : w = start
        · simp [hw]
        · rw [if_neg hw] at h
          split at h
          · exact List.mem_cons_of_mem w (ih h)
          · exact List.mem_cons_of_mem w (ih h)

/-- A scan that does not close a path extends it by each target in turn that is new. -/
theorem scan_extended {path targets : List Nat} {found found' : List (List Nat)}
    {seen seen' : List Nat}
    (h : scan members start path targets found seen = .extended found' seen') :
    ∃ new, found' = found ++ new.map (· :: path) ∧ seen' = seen ++ new ∧ new.Nodup ∧
      (∀ w ∈ new, w ∉ seen ∧ w ≠ start ∧ w ∈ members ∧ w ∈ targets) ∧
      ∀ w ∈ targets, w ∈ members → w ∈ seen' := by
  induction targets generalizing found seen with
  | nil =>
      simp only [scan, Scan.extended.injEq] at h
      exact ⟨[], by simp [h.1], by simp [h.2], by simp, by simp, by simp⟩
  | cons w rest ih =>
      simp only [scan] at h
      by_cases hin : w ∈ members
      · rw [if_neg (by simp [hin])] at h
        by_cases hw : w = start
        · rw [if_pos hw] at h
          cases h
        · rw [if_neg hw] at h
          by_cases hseen : w ∈ seen
          · rw [if_pos (by simpa using hseen)] at h
            obtain ⟨new, hfound, hmet, hnodup, hnew, hall⟩ := ih h
            refine ⟨new, hfound, hmet, hnodup, fun x hx => ?_, fun x hx hmem => ?_⟩
            · obtain ⟨h1, h2, h3, h4⟩ := hnew x hx
              exact ⟨h1, h2, h3, List.mem_cons_of_mem w h4⟩
            · rcases List.mem_cons.1 hx with rfl | hx
              · simp [hmet, hseen]
              · exact hall x hx hmem
          · rw [if_neg (by simpa using hseen)] at h
            obtain ⟨new, hfound, hmet, hnodup, hnew, hall⟩ := ih h
            refine ⟨w :: new, by simp [hfound], by simp [hmet], ?_, fun x hx => ?_, ?_⟩
            · refine List.nodup_cons.2 ⟨fun hmem => ?_, hnodup⟩
              exact (hnew w hmem).1 (by simp)
            · rcases List.mem_cons.1 hx with rfl | hx
              · exact ⟨hseen, hw, hin, by simp⟩
              · obtain ⟨h1, h2, h3, h4⟩ := hnew x hx
                exact ⟨fun hmem => h1 (by simp [hmem]), h2, h3, List.mem_cons_of_mem w h4⟩
            · intro x hx hmem
              rcases List.mem_cons.1 hx with rfl | hx
              · simp [hmet]
              · exact hall x hx hmem
      · rw [if_pos (by simpa using hin)] at h
        obtain ⟨new, hfound, hmet, hnodup, hnew, hall⟩ := ih h
        refine ⟨new, hfound, hmet, hnodup, fun x hx => ?_, fun x hx hmem => ?_⟩
        · obtain ⟨h1, h2, h3, h4⟩ := hnew x hx
          exact ⟨h1, h2, h3, List.mem_cons_of_mem w h4⟩
        · rcases List.mem_cons.1 hx with rfl | hx
          · exact absurd hmem hin
          · exact hall x hx hmem

/-- The state of the search: every node met is either expanded or the newest of one path in the
queue, and an expanded node has all its targets among the nodes met. -/
structure Frontier (g : Graph) (members : List Nat) (start : Nat) (done : List Nat)
    (queue : List (List Nat)) (seen : List Nat) : Prop where
  accounted : (done ++ queue.map (·.headD start)).Perm (start :: seen)
  nodup : (start :: seen).Nodup
  inside : ∀ v ∈ seen, v ∈ members
  expanded : ∀ v ∈ done, ∀ w, StepIn g members v w → w ∈ seen
  trails : ∀ path ∈ queue, Trail g members start path ∧ ∀ v ∈ path, v ∈ start :: seen

/-- The search starts with the path that is only the start. -/
theorem Frontier.initial (hstart : start ∈ members) : Frontier g members start [] [[start]] [] := by
  refine ⟨by simp, by simp, by simp, by simp, fun path hpath => ?_⟩
  rw [List.mem_singleton.1 hpath]
  exact ⟨⟨by simp, by simp, by simpa using hstart, by simp⟩, by simp⟩

/-- Expanding the path at the front of the queue. -/
theorem Frontier.expand {v : Nat} {rest done seen seen' : List Nat}
    {queue found : List (List Nat)}
    (h : Frontier g members start done ((v :: rest) :: queue) seen)
    (hscan : scan members start (v :: rest) (g.targets v) [] seen = .extended found seen') :
    Frontier g members start (done ++ [v]) (queue ++ found) seen' := by
  obtain ⟨new, rfl, rfl, hnodup, hnew, hall⟩ := scan_extended hscan
  obtain ⟨htrail, hmet⟩ := h.trails (v :: rest) (by simp)
  refine ⟨?_, ?_, ?_, ?_, ?_⟩
  · have hcount := h.accounted
    rw [List.perm_iff_count] at hcount ⊢
    intro x
    have hx := hcount x
    simp only [List.map_cons, List.headD_cons, List.nil_append, List.map_append, List.map_map,
      List.count_append, List.count_cons, List.count_nil] at hx ⊢
    have hheads : new.map ((·.headD start) ∘ (· :: v :: rest)) = new := by
      simp [Function.comp_def]
    rw [hheads]
    omega
  · rw [← List.cons_append]
    refine List.nodup_append.2 ⟨h.nodup, hnodup, fun x hx y hy hxy => ?_⟩
    subst hxy
    obtain ⟨hseen, hne, -⟩ := hnew x hy
    rcases List.mem_cons.1 hx with rfl | hx
    · exact hne rfl
    · exact hseen hx
  · intro x hx
    rcases List.mem_append.1 hx with hx | hx
    · exact h.inside x hx
    · exact (hnew x hx).2.2.1
  · intro x hx w hw
    rcases List.mem_append.1 hx with hx | hx
    · exact List.mem_append_left _ (h.expanded x hx w hw)
    · rw [List.mem_singleton.1 hx] at hw
      exact hall w hw.1 hw.2
  · intro path hpath
    rcases List.mem_append.1 hpath with hpath | hpath
    · obtain ⟨htrail, hmet⟩ := h.trails path (by simp [hpath])
      refine ⟨htrail, fun x hx => ?_⟩
      rw [← List.cons_append]
      exact List.mem_append_left _ (hmet x hx)
    · obtain ⟨w, hw, rfl⟩ := List.mem_map.1 (by simpa using hpath)
      obtain ⟨hseen, hne, hin, hvw⟩ := hnew w hw
      have hfresh : w ∉ v :: rest := by
        intro hmem
        rcases List.mem_cons.1 (hmet w hmem) with rfl | hmem
        · exact hne rfl
        · exact hseen hmem
      refine ⟨htrail.extend hvw hin hfresh, fun x hx => ?_⟩
      rcases List.mem_cons.1 hx with rfl | hx
      · simp [hw]
      · rw [← List.cons_append]
        exact List.mem_append_left _ (hmet x hx)

/-- With nothing left to expand, the start is not on a cycle of the members. -/
theorem Frontier.no_cycle {done seen : List Nat} (h : Frontier g members start done [] seen) :
    ¬ Relation.TransGen (StepIn g members) start start := by
  have hdone : ∀ v ∈ start :: seen, v ∈ done := fun v hv => by
    simpa using h.accounted.symm.subset hv
  have hreach : ∀ w, Relation.TransGen (StepIn g members) start w → w ∈ seen := by
    intro w hw
    induction hw with
    | single hw => exact h.expanded start (hdone start (by simp)) _ hw
    | @tail x y _ hxy ih => exact h.expanded x (hdone x (by simp [ih])) y hxy
  intro hcycle
  exact (List.nodup_cons.1 h.nodup).1 (hreach start hcycle)

/-- There are no more expanded nodes than members. -/
theorem Frontier.done_length_le {done seen : List Nat} {queue : List (List Nat)}
    (h : Frontier g members start done queue seen) (hstart : start ∈ members) :
    done.length ≤ members.length := by
  have hlength := h.accounted.length_eq
  have hsub : (start :: seen) ⊆ members := by
    intro v hv
    rcases List.mem_cons.1 hv with rfl | hv
    · exact hstart
    · exact h.inside v hv
  have hle := (h.nodup.subperm hsub).length_le
  rw [List.length_append] at hlength
  omega

/-- The search finds a cycle through the start if there is one among the members. -/
theorem search_spec (fuel : Nat) {done seen : List Nat} {queue : List (List Nat)}
    (hstart : start ∈ members) (hcycle : Relation.TransGen (StepIn g members) start start)
    (h : Frontier g members start done queue seen) (hfuel : members.length < fuel + done.length) :
    ∃ cycle inner, search g members start fuel queue seen = some cycle ∧
      cycle.reverse = start :: inner ++ [start] ∧ Closes g members start inner := by
  induction fuel generalizing done queue seen with
  | zero =>
      have := h.done_length_le hstart
      omega
  | succ fuel ih =>
      cases queue with
      | nil => exact absurd hcycle h.no_cycle
      | cons path queue =>
          obtain ⟨htrail, -⟩ := h.trails path (by simp)
          obtain ⟨v, rest, rfl⟩ := htrail.exists_cons
          simp only [search, List.headD_cons]
          cases hscan : scan members start (v :: rest) (g.targets v) [] seen with
          | closed cycle =>
              rw [scan_closed hscan]
              obtain ⟨inner, hinner, hcloses⟩ := htrail.closes (start_mem_of_closed hscan)
              exact ⟨_, inner, rfl, hinner, hcloses⟩
          | extended found seen' =>
              refine ih (h.expand hscan) ?_
              rw [List.length_append, List.length_singleton]
              omega

end ScriptCore.Cycle

namespace ScriptCore.Graph

/-- **A cycle is found**: through a start that lies on a cycle of the members, the reported path
goes back to the start along edges between members and meets no other node twice. -/
theorem cycleThrough_spec {g : Graph} {members : List Nat} {start : Nat} (hstart : start ∈ members)
    (hcycle : Relation.TransGen (Cycle.StepIn g members) start start) :
    ∃ inner, g.cycleThrough members start = start :: inner ++ [start] ∧
      Cycle.Closes g members start inner := by
  obtain ⟨cycle, inner, hfound, hreverse, hcloses⟩ :=
    Cycle.search_spec (members.length + 1) hstart hcycle (.initial hstart) (by simp)
  exact ⟨inner, by simp [cycleThrough, hfound, hreverse], hcloses⟩

/-- A cycle through a node stays among the nodes that it reaches and is reached from. -/
theorem OnCycle.inside {g : Graph} {members : List Nat} {v : Nat} (hcycle : g.OnCycle v)
    (hmem : ∀ w, w ∈ members ↔ g.Reaches v w ∧ g.Reaches w v) :
    Relation.TransGen (Cycle.StepIn g members) v v := by
  have hinside : ∀ x, Relation.TransGen g.Edge v x → g.Reaches x v →
      Relation.TransGen (Cycle.StepIn g members) v x := by
    intro x hvx
    induction hvx with
    | single hvw =>
        intro hwv
        exact .single ⟨hvw, (hmem _).2 ⟨.single hvw, hwv⟩⟩
    | @tail y z hvy hyz ih =>
        intro hzv
        refine (ih (.head hyz hzv)).tail ⟨hyz, ?_⟩
        exact (hmem z).2 ⟨(hvy.tail hyz).to_reflTransGen, hzv⟩
  exact hinside v hcycle .refl

namespace Decomposition

/-- A cycle through a member of a group stays inside the group. -/
theorem cycle_inside {g : Graph} {groups : List (List Nat)} (h : g.Decomposition groups)
    {group : List Nat} (hgroup : group ∈ groups) {v : Nat} (hv : v ∈ group)
    (hcycle : g.OnCycle v) : Relation.TransGen (Cycle.StepIn g group) v v :=
  hcycle.inside fun _ => h.mem_iff_mutual hgroup hv

end Decomposition

end ScriptCore.Graph
