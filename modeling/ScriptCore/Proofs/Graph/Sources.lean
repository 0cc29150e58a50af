import ScriptCore.Proofs.Graph.Components

/-!
# Nodes that no edge leads to

The search meets nothing but what the node from which it starts reaches.  So a node that no edge
leads to is met when its own turn comes and not before, it is a component of its own, and such
nodes come out in ascending order, whatever lies between them.

Main statements: `visit_reaches`, `Decomposition.group_of_source` and `ofGraph_sources`.
-/

namespace ScriptCore

namespace Graph

variable {g : Graph} {v w : Nat}

/-- No edge leads to `v`. -/
def IsSource (g : Graph) (v : Nat) : Prop :=
  ∀ u, ¬ g.Edge u v

/-- A source is reached from nowhere else. -/
theorem IsSource.eq_of_reaches (hw : g.IsSource w) (h : g.Reaches v w) : v = w := by
  rcases Relation.ReflTransGen.cases_tail h with heq | ⟨u, -, hu⟩
  · exact heq.symm
  · exact absurd hu (hw u)

/-- A source is a group of its own. -/
theorem Decomposition.group_of_source {groups : List (List Nat)} (h : g.Decomposition groups)
    {group : List Nat} (hgroup : group ∈ groups) (hv : v ∈ group) (hsource : g.IsSource v) :
    group = [v] := by
  have honly : ∀ w ∈ group, w = v := fun w hw =>
    hsource.eq_of_reaches (h.connected group hgroup w hw v hv)
  match group, h.group_nodup hgroup with
  | [w], _ => rw [honly w List.mem_cons_self]
  | a :: b :: rest, hnodup =>
      have hab : a = b := (honly a (by simp)).trans (honly b (by simp)).symm
      exact absurd hnodup (by simp [hab])

end Graph

namespace Components

variable {g : Graph} {s : Search}

/-- Nodes that the search has met. -/
def Search.met (s : Search) : List Nat :=
  s.stack ++ s.done

/-- Since `s` the search has met nothing but what `v` reaches. -/
def Search.Within (g : Graph) (s : Search) (v : Nat) (t : Search) : Prop :=
  ∀ x ∈ t.met, x ∈ s.met ∨ g.Reaches v x

/-- Discovering a node meets that node. -/
theorem within_discover (v : Nat) : s.Within g v (s.discover v) := by
  intro x hx
  rcases List.mem_cons.1 hx with rfl | hx
  · exact .inr .refl
  · exact .inl hx

/-- Closing a component meets no other node. -/
theorem mem_met_close {v x : Nat} (h : x ∈ (s.close v).met) : x ∈ s.met ∨ x = v := by
  have hstack : ∀ y, y ∈ s.stack → y ∈ s.met := fun y hy => List.mem_append_left _ hy
  rcases List.mem_append.1 h with h | h
  · exact .inl (hstack x (List.mem_of_mem_drop h))
  · simp only [Search.close, Search.done, List.flatten_append, List.flatten_cons,
      List.flatten_nil, List.append_nil, List.mem_append, List.mem_mergeSort, List.mem_cons] at h
    rcases h with h | rfl | h
    · exact .inl (List.mem_append_right _ h)
    · exact .inr rfl
    · exact .inl (hstack x ((List.takeWhile_prefix _).subset h))

/-- Closing the component of `v` meets no more. -/
theorem Search.Within.close {t : Search} (h : s.Within g v t) : s.Within g v (t.close v) := by
  intro x hx
  rcases mem_met_close hx with hx | rfl
  · exact h x hx
  · exact .inr .refl

/-- Following edges of `v`, one after the other. -/
theorem within_follow {fuel : Nat}
    (hvisit : ∀ (s : Search) (v : Nat), s.Within g v (visit g fuel s v).2) (targets : List Nat)
    (htargets : ∀ w ∈ targets, g.Edge v w) (acc : Option Nat × Search) (h : s.Within g v acc.2) :
    s.Within g v (targets.foldl (fun acc w =>
      let r := visit g fuel acc.2 w
      (lower acc.1 r.1, r.2)) acc).2 := by
  induction targets generalizing acc with
  | nil => exact h
  | cons w rest ih =>
      refine ih (fun u hu => htargets u (List.mem_cons_of_mem w hu)) _ fun x hx => ?_
      rcases hvisit acc.2 w x hx with hx | hx
      · exact h x hx
      · exact .inr (.head (htargets w List.mem_cons_self) hx)

/-- **A visit meets only nodes that its start reaches.** -/
theorem visit_reaches (fuel : Nat) :
    ∀ (s : Search) (v : Nat), s.Within g v (visit g fuel s v).2 := by
  induction fuel with
  | zero => exact fun s v x hx => .inl hx
  | succ fuel ih =>
      intro s v
      have hbelow := within_follow ih (g.targets v) (fun _ hw => hw) (none, s.discover v)
        (within_discover v)
      unfold visit
      dsimp only
      split
      · exact fun x hx => .inl hx
      · split
        · exact fun x hx => .inl hx
        · split
          · split
            · exact hbelow
            · exact hbelow.close
          · exact hbelow.close

/-- A list without repetitions in which no element but `v` has a property. -/
theorem filter_eq_of_only {p : Nat → Bool} {xs : List Nat} {v : Nat} (hnodup : xs.Nodup)
    (honly : ∀ x ∈ xs, p x = true → x = v) (hv : p v = true → v ∈ xs) :
    xs.filter p = [v].filter p := by
  by_cases hp : p v = true
  · have hnodup' : (xs.filter p).Nodup := hnodup.filter p
    have hall : ∀ x ∈ xs.filter p, x = v := fun x hx =>
      honly x (List.mem_filter.1 hx).1 (List.mem_filter.1 hx).2
    have hperm : (xs.filter p).Perm [v] := by
      refine (List.perm_ext_iff_of_nodup hnodup' (List.nodup_singleton v)).2 fun x => ?_
      rw [List.mem_singleton]
      refine ⟨hall x, ?_⟩
      rintro rfl
      exact List.mem_filter.2 ⟨hv hp, hp⟩
    rw [List.perm_singleton.1 hperm, List.filter_cons_of_pos hp, List.filter_nil]
  · rw [List.filter_cons_of_neg hp, List.filter_nil, List.filter_eq_nil_iff]
    exact fun x hx hpx => hp (honly x hx hpx ▸ hpx)

/-- A visit closes the node from which it starts and no other source. -/
theorem visit_sources (hg : g.Closed) {p : Nat → Bool} (hp : ∀ v, p v = true → g.IsSource v)
    {v : Nat} (hs : s.Valid g) (hempty : s.stack = []) (hv : v < g.size)
    (hnew : p v = true → v ∉ s.done) :
    let t := (visit g (g.size + 1) s v).2
    t.Valid g ∧ t.stack = [] ∧ t.done.filter p = s.done.filter p ++ [v].filter p := by
  obtain ⟨hvalid, hstack, hdone⟩ := visitAll_spec hg [v] (by simpa using hv) hs hempty
  have hreaches := visit_reaches (g := g) (g.size + 1) s v
  obtain ⟨new, hvisited⟩ := visit_spec hg (g.size + 1) s v hs hv (by simp [hempty]) (by omega)
  obtain ⟨more, hmore⟩ := hvisited.grows.closed
  rw [List.foldl_cons, List.foldl_nil] at hvalid hstack hdone
  refine ⟨hvalid, hstack, ?_⟩
  generalize (visit g (g.size + 1) s v).2 = t at *
  have hsplit : t.done = s.done ++ more.flatten := by
    rw [Search.done, hmore, List.flatten_append]
    rfl
  have hnodup : (s.done ++ more.flatten).Nodup := by
    have := hvalid.nodup
    rwa [hstack, List.nil_append, hsplit] at this
  obtain ⟨-, hnodup', hdisjoint⟩ := List.nodup_append.1 hnodup
  rw [hsplit, List.filter_append]
  congr 1
  refine filter_eq_of_only hnodup' (fun x hx hpx => ?_) fun hpv => ?_
  · have hmet : x ∈ t.met := by
      rw [Search.met, hsplit]
      exact List.mem_append_right _ (List.mem_append_right _ hx)
    rcases hreaches x hmet with hold | hreach
    · rw [Search.met, hempty, List.nil_append] at hold
      exact absurd rfl (hdisjoint x hold x hx)
    · exact ((hp x hpx).eq_of_reaches hreach).symm
  · have hmem : v ∈ t.done := hdone v (.inl List.mem_cons_self)
    rw [hsplit] at hmem
    exact (List.mem_append.1 hmem).resolve_left (hnew hpv)

/-- Visits from several nodes close the sources among them, in that order. -/
theorem visitAll_sources (hg : g.Closed) {p : Nat → Bool} (hp : ∀ v, p v = true → g.IsSource v)
    (before roots : List Nat) (hs : s.Valid g) (hempty : s.stack = [])
    (hroots : ∀ v ∈ roots, v < g.size) (hnodup : (before ++ roots).Nodup)
    (hdone : s.done.filter p = before.filter p) :
    (roots.foldl (fun s v => (visit g (g.size + 1) s v).2) s).done.filter p =
      (before ++ roots).filter p := by
  induction roots generalizing before s with
  | nil => simpa using hdone
  | cons v roots ih =>
      have hfresh : v ∉ before := fun hmem =>
        (List.nodup_append.1 hnodup).2.2 v hmem v List.mem_cons_self rfl
      have hnew : p v = true → v ∉ s.done := fun hpv hmem => hfresh (by
        have hboth : v ∈ s.done.filter p := List.mem_filter.2 ⟨hmem, hpv⟩
        rw [hdone] at hboth
        exact (List.mem_filter.1 hboth).1)
      obtain ⟨hvalid, hstack, hclosed⟩ :=
        visit_sources hg hp hs hempty (hroots v List.mem_cons_self) hnew
      have hrest := ih (before ++ [v]) hvalid hstack
        (fun x hx => hroots x (List.mem_cons_of_mem v hx)) (by simpa using hnodup)
        (by rw [hclosed, hdone, List.filter_append])
      simpa using hrest

/-- **Sources come out in ascending order.** -/
theorem ofGraph_sources (hg : g.Closed) {p : Nat → Bool} (hp : ∀ v, p v = true → g.IsSource v) :
    (ofGraph g).flatten.filter p = (List.range g.size).filter p := by
  have hstart : (⟨[], []⟩ : Search).Valid g :=
    ⟨by simp [Search.done], by simp [Search.done], by simp, by simp⟩
  exact visitAll_sources hg hp [] (List.range g.size) hstart rfl (fun v hv => List.mem_range.1 hv)
    List.nodup_range rfl

end Components

end ScriptCore
