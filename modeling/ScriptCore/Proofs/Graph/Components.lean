import ScriptCore.Proofs.Graph.Reachability

/-!
# The component search is correct

The search keeps the nodes of unfinished components on a stack.  Two facts carry the proof.  First,
every node on the stack reaches the node that is being visited, so whatever the visit adds is
reached by all of them.  Second, the height that a visit returns bounds from below where the edges
of the nodes it left on the stack lead (`Search.Leads`); when that bound is not below the visited
node itself, the part of the stack from it upward has no way out and is a component.

`visit_spec` says what one visit does, by induction on the fuel; the loop over the targets of a node
is `explore_spec`.  The main statement is `ofGraph_decomposition`: the components decompose the
graph.
-/

namespace ScriptCore.Components

/-- Members of closed components. -/
def Search.done (s : Search) : List Nat :=
  s.closed.flatten

/-- What holds of the search at any time: every node is met at most once, closed components are
strongly connected, and their edges stay inside or lead to components closed before. -/
structure Search.Valid (g : Graph) (s : Search) : Prop where
  nodup : (s.stack ++ s.done).Nodup
  node : ∀ v ∈ s.stack ++ s.done, v < g.size
  ordered : ∀ before component after, s.closed = before ++ component :: after →
    ∀ v ∈ component, ∀ w ∈ g.targets v, w ∈ component ∨ w ∈ before.flatten
  connected : ∀ component ∈ s.closed, ∀ v ∈ component, ∀ w ∈ component, g.Reaches v w

/-- A node is finished, or open at a height that the bound `low` allows. -/
def Search.Leads (s : Search) (low : Option Nat) (w : Nat) : Prop :=
  w ∈ s.done ∨ (w ∈ s.stack ∧ ∃ h, low = some h ∧ h ≤ s.height w)

/-- `t` comes from `s` by putting `new` on the stack and closing components. -/
structure Search.Grows (s : Search) (new : List Nat) (t : Search) : Prop where
  stack : t.stack = new ++ s.stack
  closed : ∃ more, t.closed = s.closed ++ more

section Heights

variable {s t : Search} {new : List Nat}

/-- Height of a node in a stack that is taken apart at it. -/
theorem height_of_stack {above below : List Nat} {v : Nat} (h : s.stack = above ++ v :: below)
    (hv : v ∉ above) : s.height v = below.length := by
  have hdrop : s.stack.dropWhile (· != v) = v :: below := by
    rw [h, List.dropWhile_append_of_pos]
    · simp
    · intro x hx
      have : x ≠ v := fun he => hv (he ▸ hx)
      simpa using this
  simp [Search.height, hdrop]

/-- A node on the stack is lower than the stack is high. -/
theorem height_lt (hnodup : s.stack.Nodup) {v : Nat} (hv : v ∈ s.stack) :
    s.height v < s.stack.length := by
  obtain ⟨above, below, hsplit⟩ := List.append_of_mem hv
  have hnot : v ∉ above := by
    rw [hsplit] at hnodup
    intro hmem
    exact (List.nodup_append.1 hnodup).2.2 v hmem v (by simp) rfl
  rw [height_of_stack hsplit hnot, hsplit]
  simp
  omega

/-- Nodes keep their height when others are put on top of them. -/
theorem height_grows (hgrow : s.Grows new t) (hnodup : t.stack.Nodup) {v : Nat}
    (hv : v ∈ s.stack) : t.height v = s.height v := by
  obtain ⟨above, below, hsplit⟩ := List.append_of_mem hv
  have ht : t.stack = (new ++ above) ++ v :: below := by simp [hgrow.stack, hsplit]
  have hnot : v ∉ new ++ above := by
    rw [ht] at hnodup
    intro hmem
    exact (List.nodup_append.1 hnodup).2.2 v hmem v (by simp) rfl
  rw [height_of_stack ht hnot, height_of_stack hsplit (fun hmem => hnot (by simp [hmem]))]

/-- What is put on a stack is as high as that stack at least. -/
theorem le_height_of_mem_new (hgrow : s.Grows new t) (hnodup : t.stack.Nodup) {v : Nat}
    (hv : v ∈ new) : s.stack.length ≤ t.height v := by
  obtain ⟨above, below, rfl⟩ := List.append_of_mem hv
  have ht : t.stack = above ++ v :: (below ++ s.stack) := by simp [hgrow.stack]
  have hnot : v ∉ above := by
    rw [ht] at hnodup
    intro hmem
    exact (List.nodup_append.1 hnodup).2.2 v hmem v (by simp) rfl
  rw [height_of_stack ht hnot]
  simp

/-- A node lower than the stack `s` lies on it. -/
theorem mem_of_height_lt (hgrow : s.Grows new t) (hnodup : t.stack.Nodup) {v : Nat}
    (hv : v ∈ t.stack) (hlow : t.height v < s.stack.length) : v ∈ s.stack := by
  rw [hgrow.stack, List.mem_append] at hv
  rcases hv with hv | hv
  · have := le_height_of_mem_new hgrow hnodup hv
    omega
  · exact hv

end Heights

section Growing

variable {s t u : Search} {new newer : List Nat}

theorem Search.Grows.refl (s : Search) : s.Grows [] s :=
  ⟨by simp, [], by simp⟩

theorem Search.Grows.trans (hst : s.Grows new t) (htu : t.Grows newer u) :
    s.Grows (newer ++ new) u := by
  obtain ⟨first, hfirst⟩ := hst.closed
  obtain ⟨second, hsecond⟩ := htu.closed
  refine ⟨by simp [htu.stack, hst.stack], first ++ second, ?_⟩
  rw [hsecond, hfirst, List.append_assoc]

/-- Finished nodes stay finished. -/
theorem Search.Grows.done_subset (hst : s.Grows new t) {v : Nat} (hv : v ∈ s.done) :
    v ∈ t.done := by
  obtain ⟨more, hmore⟩ := hst.closed
  simp only [Search.done, hmore, List.flatten_append, List.mem_append]
  exact .inl hv

/-- Open nodes stay open. -/
theorem Search.Grows.stack_subset (hst : s.Grows new t) {v : Nat} (hv : v ∈ s.stack) :
    v ∈ t.stack := by
  simp [hst.stack, hv]

/-- The lesser of two heights is a bound wherever the first one is. -/
theorem lower_left {a b : Option Nat} {h : Nat} (ha : a = some h) :
    ∃ k, lower a b = some k ∧ k ≤ h := by
  subst ha
  cases b with
  | none => exact ⟨h, rfl, Nat.le_refl _⟩
  | some k => exact ⟨min h k, rfl, Nat.min_le_left h k⟩

/-- The lesser of two heights is a bound wherever the second one is. -/
theorem lower_right {a b : Option Nat} {h : Nat} (hb : b = some h) :
    ∃ k, lower a b = some k ∧ k ≤ h := by
  subst hb
  cases a with
  | none => exact ⟨h, rfl, Nat.le_refl _⟩
  | some k => exact ⟨min k h, rfl, Nat.min_le_right k h⟩

/-- The lesser of two heights is one of them. -/
theorem lower_eq_some {a b : Option Nat} {h : Nat} (hlow : lower a b = some h) :
    a = some h ∨ b = some h := by
  cases a with
  | none => exact .inr hlow
  | some x =>
      cases b with
      | none => exact .inl hlow
      | some y =>
          have : min x y = h := by simpa [lower] using hlow
          rcases Nat.le_total x y with hxy | hxy
          · exact .inl (by rw [← this, Nat.min_eq_left hxy])
          · exact .inr (by rw [← this, Nat.min_eq_right hxy])

/-- Where a node leads stays so while the search goes on and the bound gets lower. -/
theorem Search.Leads.grows {a b : Option Nat} (hst : s.Grows new t) (hnodup : t.stack.Nodup)
    (hab : ∀ h, a = some h → ∃ k, b = some k ∧ k ≤ h) {w : Nat} (hw : s.Leads a w) :
    t.Leads b w := by
  rcases hw with hw | ⟨hw, h, ha, hle⟩
  · exact .inl (hst.done_subset hw)
  · obtain ⟨k, hk, hkh⟩ := hab h ha
    refine .inr ⟨hst.stack_subset hw, k, hk, ?_⟩
    rw [height_grows hst hnodup hw]
    omega

end Growing

/-- What a visit of `v` from `s` leaves behind: `new` stays open because each of its members has a
way back to a node that was open before, at the height `result`. -/
structure Visited (g : Graph) (s : Search) (v : Nat) (result : Option Nat) (t : Search)
    (new : List Nat) : Prop where
  valid : t.Valid g
  grows : s.Grows new t
  met : t.Leads result v
  edges : ∀ x ∈ new, ∀ w ∈ g.targets x, t.Leads result w
  reached : ∀ x ∈ new, g.Reaches v x
  wayBack : ∀ h, result = some h →
    ∃ y ∈ s.stack, s.height y = h ∧ g.Reaches v y ∧ ∀ x ∈ new, g.Reaches x y
  settled : result = none → new = []

/-- What is known after some of the targets of the newest node `v` of `s` have been visited. -/
structure Explored (g : Graph) (s : Search) (v : Nat) (followed : List Nat) (low : Option Nat)
    (t : Search) (new : List Nat) : Prop where
  valid : t.Valid g
  grows : s.Grows new t
  followed : ∀ w ∈ followed, t.Leads low w
  edges : ∀ x ∈ new, ∀ w ∈ g.targets x, t.Leads low w
  reached : ∀ x ∈ new, g.Reaches v x ∧ g.Reaches x v
  wayBack : ∀ h, low = some h → ∃ y ∈ t.stack, t.height y = h ∧ g.Reaches v y

variable {g : Graph}

theorem Search.Valid.stack_nodup {s : Search} (h : s.Valid g) : s.stack.Nodup :=
  (List.nodup_append.1 h.nodup).1

/-- There are at most as many open nodes as nodes. -/
theorem Search.Valid.stack_length_le {s : Search} (h : s.Valid g) : s.stack.length ≤ g.size := by
  have hsub : s.stack ⊆ List.range g.size := fun v hv =>
    List.mem_range.2 (h.node v (List.mem_append_left _ hv))
  simpa using (h.stack_nodup.subperm hsub).length_le

/-- Putting a node on the stack that was not met before keeps the search valid. -/
theorem Search.Valid.discover {s : Search} (h : s.Valid g) {v : Nat} (hv : v < g.size)
    (hopen : v ∉ s.stack) (hdone : v ∉ s.done) : (s.discover v).Valid g := by
  refine ⟨?_, ?_, h.ordered, h.connected⟩
  · show (v :: (s.stack ++ s.done)).Nodup
    exact List.nodup_cons.2 ⟨by simp [hopen, hdone], h.nodup⟩
  · intro x hx
    rcases List.mem_cons.1 (show x ∈ v :: (s.stack ++ s.done) from hx) with rfl | hx
    · exact hv
    · exact h.node x hx

/-- Exploring starts with no target followed. -/
theorem Explored.start {s : Search} (h : s.Valid g) (v : Nat) : Explored g s v [] none s [] :=
  ⟨h, .refl s, by simp, by simp, by simp, by simp⟩

/-- One more target is followed. -/
theorem Explored.follow {s t u : Search} {v w : Nat} {followed new newer : List Nat}
    {low result : Option Nat} (hstack : ∀ x ∈ s.stack, g.Reaches x v) (hvw : g.Edge v w)
    (h : Explored g s v followed low t new) (hw : Visited g t w result u newer) :
    Explored g s v (followed ++ [w]) (lower low result) u (newer ++ new) := by
  have hnodup := hw.valid.stack_nodup
  have hkeep : ∀ x, t.Leads low x → u.Leads (lower low result) x := fun x hx =>
    hx.grows hw.grows hnodup fun _ => lower_left
  have hnew : ∀ x, u.Leads result x → u.Leads (lower low result) x := fun x hx =>
    hx.grows (.refl u) hnodup fun _ => lower_right
  have hback : ∀ y ∈ t.stack, g.Reaches y v := by
    intro y hy
    rw [h.grows.stack, List.mem_append] at hy
    rcases hy with hy | hy
    · exact (h.reached y hy).2
    · exact hstack y hy
  refine ⟨hw.valid, h.grows.trans hw.grows, ?_, ?_, ?_, ?_⟩
  · intro x hx
    rcases List.mem_append.1 hx with hx | hx
    · exact hkeep x (h.followed x hx)
    · rw [List.mem_singleton.1 hx]
      exact hnew w hw.met
  · intro x hx z hz
    rcases List.mem_append.1 hx with hx | hx
    · exact hnew z (hw.edges x hx z hz)
    · exact hkeep z (h.edges x hx z hz)
  · intro x hx
    rcases List.mem_append.1 hx with hx | hx
    · refine ⟨.head hvw (hw.reached x hx), ?_⟩
      cases hresult : result with
      | none => simp [hw.settled hresult] at hx
      | some k =>
          obtain ⟨y, hy, -, -, hxy⟩ := hw.wayBack k hresult
          exact (hxy x hx).trans (hback y hy)
    · exact h.reached x hx
  · intro k hk
    rcases lower_eq_some hk with hk | hk
    · obtain ⟨y, hy, hyk, hvy⟩ := h.wayBack k hk
      exact ⟨y, hw.grows.stack_subset hy, (height_grows hw.grows hnodup hy).trans hyk, hvy⟩
    · obtain ⟨y, hy, hyk, hwy, -⟩ := hw.wayBack k hk
      exact ⟨y, hw.grows.stack_subset hy, (height_grows hw.grows hnodup hy).trans hyk,
        .head hvw hwy⟩

/-- What a visit with this much fuel is known to do. -/
def VisitSpec (g : Graph) (fuel : Nat) : Prop :=
  ∀ (s : Search) (v : Nat), s.Valid g → v < g.size → (∀ x ∈ s.stack, g.Reaches x v) →
    g.size < fuel + s.stack.length →
    ∃ new, Visited g s v (visit g fuel s v).1 (visit g fuel s v).2 new

/-- Following targets one after the other. -/
theorem explore_spec {fuel v : Nat} {s : Search} (hg : g.Closed) (hvisit : VisitSpec g fuel)
    (hstack : ∀ x ∈ s.stack, g.Reaches x v) (hfuel : g.size < fuel + s.stack.length)
    (rest : List Nat) (hrest : ∀ w ∈ rest, g.Edge v w) {followed new : List Nat}
    (acc : Option Nat × Search) (h : Explored g s v followed acc.1 acc.2 new) :
    let result := rest.foldl
      (fun acc w => let r := visit g fuel acc.2 w; (lower acc.1 r.1, r.2)) acc
    ∃ new', Explored g s v (followed ++ rest) result.1 result.2 new' := by
  induction rest generalizing followed new acc with
  | nil => exact ⟨new, by simpa using h⟩
  | cons w rest ih =>
      have hvw : g.Edge v w := hrest w (by simp)
      have hreach : ∀ x ∈ acc.2.stack, g.Reaches x w := by
        intro x hx
        rw [h.grows.stack, List.mem_append] at hx
        rcases hx with hx | hx
        · exact (h.reached x hx).2.tail hvw
        · exact (hstack x hx).tail hvw
      have hlong : g.size < fuel + acc.2.stack.length := by
        rw [h.grows.stack, List.length_append]
        omega
      obtain ⟨newer, hw⟩ := hvisit acc.2 w h.valid (hg v w hvw) hreach hlong
      have hnext := h.follow hstack hvw hw
      have hlater := ih (fun x hx => hrest x (List.mem_cons_of_mem w hx))
        (lower acc.1 (visit g fuel acc.2 w).1, (visit g fuel acc.2 w).2) hnext
      simpa using hlater

/-- The stack above and including `v`, when nothing in it leads below `v`, is a component. -/
theorem close_spec {s t : Search} {v : Nat} {low : Option Nat} {new : List Nat}
    (h : Explored g (s.discover v) v (g.targets v) low t new)
    (hlow : ∀ k, low = some k → s.stack.length ≤ k) :
    Visited g s v none (t.close v) [] := by
  have hstack : t.stack = new ++ v :: s.stack := h.grows.stack
  have hnodup := h.valid.stack_nodup
  have hv : v ∉ new := by
    rw [hstack] at hnodup
    intro hmem
    exact (List.nodup_append.1 hnodup).2.2 v hmem v (by simp) rfl
  have habove : t.stack.takeWhile (· != v) = new := by
    rw [hstack, List.takeWhile_append_of_pos]
    · simp
    · intro x hx
      have : x ≠ v := fun he => hv (he ▸ hx)
      simpa using this
  obtain ⟨component, hmembers, hclosed, hbelow⟩ : ∃ component : List Nat,
      component.Perm (v :: new) ∧ (t.close v).closed = t.closed ++ [component] ∧
        (t.close v).stack = s.stack := by
    refine ⟨(v :: new).mergeSort (· ≤ ·), List.mergeSort_perm _ _, ?_, ?_⟩
    · simp [Search.close, habove]
    · simp only [Search.close, habove]
      simp [hstack]
  have hdone : (t.close v).done = t.done ++ component := by
    simp [Search.done, hclosed]
  have hnodes : ((t.close v).stack ++ (t.close v).done).Perm (t.stack ++ t.done) := by
    rw [List.perm_iff_count]
    intro x
    simp only [hbelow, hdone, hstack, List.count_append, hmembers.count_eq, List.count_cons]
    omega
  -- nothing leads out of the component but to what is finished
  have hinside : ∀ x ∈ component, ∀ w ∈ g.targets x, w ∈ component ∨ w ∈ t.done := by
    intro x hx w hw
    have hleads : t.Leads low w := by
      rcases List.mem_cons.1 (hmembers.subset hx) with rfl | hx
      · exact h.followed w hw
      · exact h.edges x hx w hw
    rcases hleads with hw | ⟨hw, k, hk, hle⟩
    · exact .inr hw
    · left
      refine hmembers.symm.subset ?_
      have hhigh := hlow k hk
      by_contra hout
      have hold : w ∈ s.stack := by
        rw [hstack] at hw
        simp only [List.mem_append, List.mem_cons] at hw hout
        tauto
      have hgrow : s.Grows (new ++ [v]) t := ⟨by simp [hstack], h.grows.closed⟩
      have hw' := height_grows hgrow hnodup hold
      have hshort : s.stack.Nodup := by
        rw [hgrow.stack] at hnodup
        exact (List.nodup_append.1 hnodup).2.1
      have := height_lt hshort hold
      omega
  have htoV : ∀ x ∈ component, g.Reaches x v ∧ g.Reaches v x := by
    intro x hx
    rcases List.mem_cons.1 (hmembers.subset hx) with rfl | hx
    · exact ⟨.refl, .refl⟩
    · exact (h.reached x hx).symm
  refine ⟨⟨hnodes.nodup_iff.2 h.valid.nodup, fun x hx => h.valid.node x (hnodes.subset hx), ?_, ?_⟩,
    ⟨by simp [hbelow], ?_⟩, .inl ?_, by simp, by simp, by simp, by simp⟩
  · intro before group after hsplit x hx w hw
    rw [hclosed] at hsplit
    rcases List.append_eq_append_iff.1 hsplit with ⟨mid, hbefore, hmid⟩ | ⟨mid, ht, hmid⟩
    · cases mid with
      | nil =>
          simp only [List.nil_append, List.cons.injEq] at hmid
          obtain ⟨rfl, -⟩ := hmid
          simpa [hbefore, Search.done] using hinside x hx w hw
      | cons first mid => simp at hmid
    · cases mid with
      | nil =>
          simp only [List.nil_append, List.cons.injEq] at hmid
          obtain ⟨rfl, -⟩ := hmid
          simpa [ht, Search.done] using hinside x hx w hw
      | cons first mid =>
          simp only [List.cons_append, List.cons.injEq] at hmid
          obtain ⟨rfl, -⟩ := hmid
          exact h.valid.ordered before group mid ht x hx w hw
  · intro group hgroup x hx y hy
    rw [hclosed, List.mem_append, List.mem_singleton] at hgroup
    rcases hgroup with hgroup | rfl
    · exact h.valid.connected group hgroup x hx y hy
    · exact (htoV x hx).1.trans (htoV y hy).2
  · obtain ⟨more, hmore⟩ := h.grows.closed
    exact ⟨more ++ [component], by rw [hclosed, hmore]; simp [Search.discover]⟩
  · rw [hdone]
    exact List.mem_append_right _ (hmembers.symm.subset (by simp))

/-- A node that leads below itself stays open with all that the visit put on top of it. -/
theorem stay_open {s t : Search} {v k : Nat} {new : List Nat}
    (h : Explored g (s.discover v) v (g.targets v) (some k) t new) (hk : k < s.stack.length) :
    Visited g s v (some k) t (new ++ [v]) := by
  have hnodup := h.valid.stack_nodup
  have hgrow : s.Grows (new ++ [v]) t :=
    ⟨by rw [h.grows.stack]; simp [Search.discover], h.grows.closed⟩
  obtain ⟨y, hy, hyk, hvy⟩ := h.wayBack k rfl
  have hold : y ∈ s.stack := mem_of_height_lt hgrow hnodup hy (by omega)
  have hheight : t.height y = s.height y := height_grows hgrow hnodup hold
  have hv : s.stack.length ≤ t.height v := le_height_of_mem_new hgrow hnodup (by simp)
  refine ⟨h.valid, hgrow, .inr ⟨?_, k, rfl, by omega⟩, ?_, ?_, ?_, by simp⟩
  · simp [hgrow.stack]
  · intro x hx w hw
    rcases List.mem_append.1 hx with hx | hx
    · exact h.edges x hx w hw
    · rw [List.mem_singleton.1 hx] at hw
      exact h.followed w hw
  · intro x hx
    rcases List.mem_append.1 hx with hx | hx
    · exact (h.reached x hx).1
    · rw [List.mem_singleton.1 hx]
  · intro j hj
    have hkj : k = j := Option.some.inj hj
    refine ⟨y, hold, by omega, hvy, fun x hx => ?_⟩
    rcases List.mem_append.1 hx with hx | hx
    · exact (h.reached x hx).2.trans hvy
    · rwa [List.mem_singleton.1 hx]

/-- What a visit does, provided its fuel exceeds the number of nodes that are not open. -/
theorem visit_spec (hg : g.Closed) (fuel : Nat) : VisitSpec g fuel := by
  induction fuel with
  | zero =>
      intro s v hs _ _ hfuel
      have := hs.stack_length_le
      omega
  | succ fuel ih =>
      intro s v hs hv hstack hfuel
      by_cases hopen : v ∈ s.stack
      · rw [visit_on_stack hopen]
        refine ⟨[], hs, .refl s, .inr ⟨hopen, _, rfl, Nat.le_refl _⟩, by simp, by simp, ?_, by simp⟩
        intro k hk
        exact ⟨v, hopen, Option.some.inj hk, .refl, by simp⟩
      by_cases hclosed : s.isClosed v = true
      · rw [visit_closed hopen hclosed]
        refine ⟨[], hs, .refl s, .inl ?_, by simp, by simp, by simp, by simp⟩
        simpa [Search.isClosed, Search.done] using hclosed
      have hdone : v ∉ s.done := by
        simpa [Search.isClosed, Search.done] using hclosed
      have hstart := Explored.start (hs.discover hv hopen hdone) v
      have hback : ∀ x ∈ (s.discover v).stack, g.Reaches x v := by
        intro x hx
        rcases List.mem_cons.1 (show x ∈ v :: s.stack from hx) with rfl | hx
        · exact .refl
        · exact hstack x hx
      have hlong : g.size < fuel + (s.discover v).stack.length := by
        show g.size < fuel + (v :: s.stack).length
        rw [List.length_cons]
        omega
      obtain ⟨new, hexplored⟩ :=
        explore_spec hg ih hback hlong (g.targets v) (fun w hw => hw) (none, s.discover v) hstart
      rw [List.nil_append] at hexplored
      unfold visit
      simp only [List.contains_iff_mem, hopen, if_false, hclosed, Bool.false_eq_true]
      generalize (g.targets v).foldl _ _ = below at hexplored ⊢
      obtain ⟨low, t⟩ := below
      cases hlow : low with
      | none => exact ⟨[], close_spec hexplored (by simp [hlow])⟩
      | some k =>
          subst hlow
          by_cases hk : k < s.stack.length
          · simp only [hk, if_true]
            exact ⟨new ++ [v], stay_open hexplored hk⟩
          · simp only [hk, if_false]
            refine ⟨[], close_spec hexplored fun j hj => ?_⟩
            have : k = j := Option.some.inj hj
            omega

/-- Visiting one node after the other with an empty stack in between. -/
theorem visitAll_spec (hg : g.Closed) (roots : List Nat) (hroots : ∀ v ∈ roots, v < g.size)
    {s : Search} (hs : s.Valid g) (hempty : s.stack = []) :
    let t := roots.foldl (fun s v => (visit g (g.size + 1) s v).2) s
    t.Valid g ∧ t.stack = [] ∧ (∀ v, v ∈ roots ∨ v ∈ s.done → v ∈ t.done) := by
  induction roots generalizing s with
  | nil => exact ⟨hs, hempty, by simp⟩
  | cons v roots ih =>
      obtain ⟨new, hv⟩ := visit_spec hg (g.size + 1) s v hs (hroots v (by simp))
        (by simp [hempty]) (by omega)
      have hnone : (visit g (g.size + 1) s v).1 = none := by
        cases hresult : (visit g (g.size + 1) s v).1 with
        | none => rfl
        | some k =>
            obtain ⟨y, hy, -⟩ := hv.wayBack k hresult
            simp [hempty] at hy
      have hstack : (visit g (g.size + 1) s v).2.stack = [] := by
        simp [hv.grows.stack, hv.settled hnone, hempty]
      obtain ⟨hvalid, hlast, hdone⟩ :=
        ih (fun x hx => hroots x (List.mem_cons_of_mem v hx)) hv.valid hstack
      refine ⟨hvalid, hlast, fun x hx => hdone x ?_⟩
      rcases hx with hx | hx
      · rcases List.mem_cons.1 hx with rfl | hx
        · right
          rcases hv.met with hmet | ⟨hmet, -⟩
          · exact hmet
          · simp [hstack] at hmet
        · exact .inl hx
      · exact .inr (hv.grows.done_subset hx)

/-- **The components decompose the graph**: every node is in one of them, inside a component every
node reaches every other, and edges leave a component only for components before it. -/
theorem ofGraph_decomposition (hg : g.Closed) : g.Decomposition (ofGraph g) := by
  have hstart : (⟨[], []⟩ : Search).Valid g := ⟨by simp [Search.done], by simp [Search.done],
    by simp, by simp⟩
  obtain ⟨hvalid, hstack, hdone⟩ := visitAll_spec hg (List.range g.size)
    (fun v hv => List.mem_range.1 hv) hstart rfl
  have hnodup := hvalid.nodup
  have hnode := hvalid.node
  rw [hstack, List.nil_append] at hnodup hnode
  refine ⟨?_, hvalid.ordered, hvalid.connected⟩
  refine (List.perm_ext_iff_of_nodup hnodup List.nodup_range).2 fun v => ?_
  exact ⟨fun hv => List.mem_range.2 (hnode v hv), fun hv => hdone v (.inl hv)⟩

end ScriptCore.Components
