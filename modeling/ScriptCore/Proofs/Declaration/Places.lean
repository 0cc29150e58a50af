import Mathlib.Data.List.Sort
import ScriptCore.Proofs.Declaration.Emission

/-!
# Places in an order

Where a declaration is emitted, where the members of a block stand, and what happens to both when
members are put at other places.  An order is read by the place of each declaration (`Emits`); the
table of places that the check for late dependencies consults agrees with it (`isLate_iff`).

Main statements: `isLate_of_addsNoLate`, `blockPlaces_eq_of_mem`, `putAll_emitted`.
-/

namespace ScriptCore

namespace Scope

/-- A declaration comes from a block of constants or variables. -/
def InBlock (s : Scope) (block d : Nat) : Prop :=
  (s.decls[d]?).bind Decl.group = some block

end Scope

namespace Order

open scoped List

variable {s : Scope} {order : Order} {i j k l d block : Nat}

/-- The `k`-th batch completes declaration `i`. -/
def Emits (order : Order) (k i : Nat) : Prop :=
  ∃ slot, order[k]? = some slot ∧ i ∈ slot.emits

/-- What is emitted is emitted at some place. -/
theorem mem_emitted : i ∈ emitted order ↔ ∃ k, Emits order k i := by
  rw [emitted, List.mem_flatMap]
  constructor
  · rintro ⟨slot, hslot, hi⟩
    obtain ⟨k, hk⟩ := List.mem_iff_getElem?.1 hslot
    exact ⟨k, slot, hk, hi⟩
  · rintro ⟨k, slot, hk, hi⟩
    exact ⟨slot, List.mem_of_getElem? hk, hi⟩

/-- If nothing is emitted twice, there is only one such place. -/
theorem Emits.unique (hnodup : (emitted order).Nodup) (hk : Emits order k i)
    (hl : Emits order l i) : k = l := by
  induction order generalizing k l with
  | nil =>
      obtain ⟨slot, hslot, -⟩ := hk
      cases hslot
  | cons first rest ih =>
      rw [emitted, List.flatMap_cons] at hnodup
      obtain ⟨-, hrest, hdisjoint⟩ := List.nodup_append.1 hnodup
      have hlater : ∀ {m}, Emits (first :: rest) (m + 1) i → Emits rest m i := id
      have hfirst : Emits (first :: rest) 0 i → i ∈ first.emits := by
        rintro ⟨slot, hslot, hi⟩
        cases hslot
        exact hi
      have hapart : ∀ {m}, Emits (first :: rest) 0 i → Emits (first :: rest) (m + 1) i → False :=
        fun hzero hsucc => hdisjoint i (hfirst hzero) i (mem_emitted.2 ⟨_, hlater hsucc⟩) rfl
      cases k with
      | zero =>
          cases l with
          | zero => rfl
          | succ l => exact (hapart hk hl).elim
      | succ k =>
          cases l with
          | zero => exact (hapart hl hk).elim
          | succ l => rw [ih hrest (hlater hk) (hlater hl)]

/-! ### The table of places -/

/-- Entries of one batch are written; the others stay. -/
theorem getElem?_foldl_set (ds : List Nat) (acc : Array Nat) :
    (ds.foldl (fun acc d => acc.set! d k) acc)[i]? =
      if i ∈ ds ∧ i < acc.size then some k else acc[i]? := by
  induction ds generalizing acc with
  | nil => simp
  | cons d ds ih =>
      rw [List.foldl_cons, ih]
      by_cases hds : i ∈ ds
      · by_cases hi : i < acc.size
        · simp [hds, hi]
        · simp [hi]
      · by_cases hd : d = i
        · subst hd
          simp only [hds, false_and, if_false, Array.set!_eq_setIfInBounds,
            Array.getElem?_setIfInBounds, List.mem_cons, true_or, true_and, if_true]
          by_cases hi : d < acc.size
          · simp [hi]
          · simp [hi]
        · have hne : i ≠ d := fun h => hd h.symm
          simp [hds, hd, hne]

/-- If all batches that complete a declaration have one place, it is entered with that place. -/
theorem getElem?_foldl_places {batches : List (Slot × Nat)} {acc : Array Nat} (hi : i < acc.size)
    (hsame : ∀ b ∈ batches, i ∈ b.1.emits → b.2 = k)
    (hsome : (∃ b ∈ batches, i ∈ b.1.emits) ∨ acc[i]? = some k) :
    (batches.foldl (fun acc b => b.1.emits.foldl (fun acc d => acc.set! d b.2) acc) acc)[i]? =
      some k := by
  induction batches generalizing acc with
  | nil => simpa using hsome
  | cons b batches ih =>
      rw [List.foldl_cons]
      have hentry := getElem?_foldl_set (k := b.2) (i := i) b.1.emits acc
      have hstay : i < (b.1.emits.foldl (fun acc d => acc.set! d b.2) acc).size := by
        by_contra hout
        rw [Array.getElem?_eq_none (Nat.le_of_not_lt hout)] at hentry
        split at hentry
        · cases hentry
        · simp [hi] at hentry
      refine ih hstay (fun c hc => hsame c (List.mem_cons_of_mem b hc)) ?_
      by_cases hlater : ∃ c ∈ batches, i ∈ c.1.emits
      · exact .inl hlater
      · refine .inr ?_
        rw [hentry]
        by_cases hb : i ∈ b.1.emits
        · rw [if_pos ⟨hb, hi⟩, hsame b (by simp) hb]
        · rw [if_neg fun h => hb h.1]
          rcases hsome with ⟨c, hc, hic⟩ | hacc
          · rcases List.mem_cons.1 hc with rfl | hc
            · exact absurd hic hb
            · exact absurd ⟨c, hc, hic⟩ hlater
          · exact hacc

/-- The table has the place of a declaration. -/
theorem places_of_emits {n : Nat} (hnodup : (emitted order).Nodup) (h : Emits order k i)
    (hi : i < n) : (places order n)[i]? = some k := by
  obtain ⟨slot, hslot, hmem⟩ := h
  refine getElem?_foldl_places (by simpa using hi) ?_
    (.inl ⟨(slot, k), List.mk_mem_zipIdx_iff_getElem?.2 hslot, hmem⟩)
  rintro ⟨other, l⟩ hother hiother
  have hl : Emits order l i := ⟨other, List.mk_mem_zipIdx_iff_getElem?.1 hother, hiother⟩
  exact hl.unique hnodup ⟨slot, hslot, hmem⟩

/-- A dependency is late if its target is emitted after its source. -/
theorem isLate_iff {n : Nat} (hnodup : (emitted order).Nodup) (hk : Emits order k i)
    (hl : Emits order l j) (hi : i < n) (hj : j < n) :
    isLate (places order n) i j = true ↔ k < l := by
  simp [isLate, places_of_emits hnodup hk hi, places_of_emits hnodup hl hj]

/-- If no late edge is added, what is late afterwards was late before. -/
theorem isLate_of_addsNoLate {g : Graph} {before after : Order}
    (h : addsNoLate g before after = true) {v w : Nat} (hvw : g.Edge v w)
    (hlate : isLate (places after g.size) v w = true) :
    isLate (places before g.size) v w = true := by
  have hv : v < g.size := by
    by_contra hout
    rw [Graph.Edge, Graph.targets_of_size_le (Nat.le_of_not_lt hout)] at hvw
    cases hvw
  simp only [addsNoLate, List.all_eq_true, List.mem_range] at h
  have hedge := h v hv w hvw
  rw [hlate] at hedge
  simpa using hedge

/-! ### The places of a block -/

/-- A block has a place for each of its declarations that is a batch by itself. -/
theorem mem_blockPlaces :
    (k, d) ∈ blockPlaces s block order ↔
      order[k]? = some (.single d) ∧ s.InBlock block d := by
  simp only [blockPlaces, List.mem_filterMap, Scope.InBlock]
  constructor
  · rintro ⟨⟨slot, place⟩, hmem, hslot⟩
    rw [List.mk_mem_zipIdx_iff_getElem?] at hmem
    cases slot with
    | single e =>
        by_cases hgroup : (s.decls[e]?).bind Decl.group = some block
        · simp only [hgroup, if_true, Option.some.injEq, Prod.mk.injEq] at hslot
          obtain ⟨rfl, rfl⟩ := hslot
          exact ⟨hmem, hgroup⟩
        · simp [hgroup] at hslot
    | forward t => cases hslot
    | cycle members => cases hslot
  · rintro ⟨hslot, hgroup⟩
    exact ⟨(.single d, k), List.mk_mem_zipIdx_iff_getElem?.2 hslot, by simp [hgroup]⟩

/-- The places of a block ascend. -/
theorem blockPlaces_pairwise (s : Scope) (block : Nat) (order : Order) :
    (blockPlaces s block order).Pairwise fun p q => p.1 < q.1 := by
  have hzip : order.zipIdx.Pairwise fun p q => p.2 < q.2 := by
    rw [← List.pairwise_map (f := Prod.snd), List.zipIdx_map_snd]
    exact List.pairwise_lt_range'
  refine List.pairwise_filterMap.2 (hzip.imp ?_)
  rintro ⟨a, k⟩ ⟨b, l⟩ hkl p hp q hq
  cases a with
  | single d =>
      cases b with
      | single e =>
          simp only [Option.ite_none_right_eq_some, Option.some.injEq] at hp hq
          rw [← hp.2, ← hq.2]
          exact hkl
      | forward t => cases hq
      | cycle members => cases hq
  | forward t => cases hp
  | cycle members => cases hp

/-- An ascending list with the right members is the list of places. -/
theorem blockPlaces_eq_of_mem {pairs : List (Nat × Nat)}
    (hascend : pairs.Pairwise fun p q => p.1 < q.1)
    (hmem : ∀ k d, (k, d) ∈ pairs ↔ order[k]? = some (.single d) ∧ s.InBlock block d) :
    blockPlaces s block order = pairs := by
  have hirrefl : Std.Irrefl fun p q : Nat × Nat => p.1 < q.1 := ⟨fun p => Nat.lt_irrefl p.1⟩
  have hantisymm : Std.Antisymm fun p q : Nat × Nat => p.1 < q.1 :=
    ⟨fun p q hpq hqp => absurd hqp (Nat.lt_asymm hpq)⟩
  refine (blockPlaces_pairwise s block order).eq_of_mem_iff hascend ?_
  rintro ⟨k, d⟩
  rw [mem_blockPlaces, hmem]

/-! ### Putting declarations at places -/

/-- Other places keep what they have. -/
theorem putAll_getElem?_of_not_mem {pairs : List (Nat × Nat)} (hk : k ∉ pairs.map Prod.fst) :
    (putAll order pairs)[k]? = order[k]? := by
  induction pairs generalizing order with
  | nil => rfl
  | cons p rest ih =>
      simp only [List.map_cons, List.mem_cons, not_or] at hk
      rw [putAll, ih hk.2, List.getElem?_set_ne (Ne.symm hk.1)]

/-- The given places get what is put there. -/
theorem putAll_getElem?_of_mem {pairs : List (Nat × Nat)} (hnodup : (pairs.map Prod.fst).Nodup)
    (hmem : (k, d) ∈ pairs) (hk : k < order.length) :
    (putAll order pairs)[k]? = some (.single d) := by
  induction pairs generalizing order with
  | nil => cases hmem
  | cons p rest ih =>
      obtain ⟨hfirst, hrest⟩ := List.nodup_cons.1 hnodup
      rcases List.mem_cons.1 hmem with rfl | hmem
      · rw [putAll, putAll_getElem?_of_not_mem hfirst, List.getElem?_set_self hk]
      · rw [putAll]
        exact ih hrest hmem (by simpa using hk)

/-- A single declaration is exchanged for another. -/
theorem emitted_set {e : Nat} (hk : order[k]? = some (.single d)) :
    (d :: emitted (order.set k (.single e))).Perm (e :: emitted order) := by
  induction order generalizing k with
  | nil => cases hk
  | cons first rest ih =>
      cases k with
      | zero =>
          cases hk
          exact List.Perm.swap e d _
      | succ k =>
          have hrest := ih hk
          simp only [List.set_cons_succ, emitted, List.flatMap_cons] at hrest ⊢
          exact (List.perm_middle.symm.trans (hrest.append_left first.emits)).trans
            List.perm_middle

/-- What is put in comes, and what stood there goes. -/
theorem putAll_emitted {pairs : List (Nat × Nat)} {old : List Nat}
    (hnodup : (pairs.map Prod.fst).Nodup)
    (hold : List.Forall₂ (fun p d => order[p.1]? = some (.single d)) pairs old) :
    (old ++ emitted (putAll order pairs)).Perm (pairs.map Prod.snd ++ emitted order) := by
  induction pairs generalizing order old with
  | nil =>
      cases hold
      exact .refl _
  | cons p pairs ih =>
      obtain ⟨hfirst, hrest⟩ := List.nodup_cons.1 hnodup
      cases hold with
      | @cons _ d _ old hp hold =>
          have hkeep : List.Forall₂
              (fun q d => (order.set p.1 (.single p.2))[q.1]? = some (.single d)) pairs old := by
            refine ((List.forall₂_and_left pairs old).2 ⟨fun q hq => hq, hold⟩).imp ?_
            rintro q e ⟨hq, he⟩
            have hne : p.1 ≠ q.1 := fun heq => hfirst (List.mem_map.2 ⟨q, hq, heq.symm⟩)
            rwa [List.getElem?_set_ne hne]
          have hputs := ih hrest hkeep
          have hexchange : (pairs.map Prod.snd ++ d :: emitted (order.set p.1 (.single p.2))).Perm
              (pairs.map Prod.snd ++ p.2 :: emitted order) :=
            (emitted_set hp).append_left _
          calc
            _ ~ d :: (pairs.map Prod.snd ++ emitted (order.set p.1 (.single p.2))) :=
              hputs.cons d
            _ ~ pairs.map Prod.snd ++ d :: emitted (order.set p.1 (.single p.2)) :=
              List.perm_middle.symm
            _ ~ pairs.map Prod.snd ++ p.2 :: emitted order := hexchange
            _ ~ p.2 :: (pairs.map Prod.snd ++ emitted order) := List.perm_middle

end Order

end ScriptCore
