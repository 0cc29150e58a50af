import Mathlib.Data.List.Permutation
import ScriptCore.Proofs.Declaration.Places

/-!
# The order after blocks are put back

Putting the members of a block back in source order exchanges single declarations among the places
of the block and touches nothing else (`Rearranged`).  The check before it looks at declarations
only, not at the forward declarations of types.  So a dependency never becomes late, but a member
of a block may come to stand before the forward declaration of a type it is intertwined with.  When
that happens can be told from the order before: the member is overtaken by its rank (`Overtaken`).

Main statements: `restoreBlocks_rearranged`, `rank_lt_iff`, `ofScope_emission`, and
`user_before_forward` for a scope in which it does happen.
-/

namespace ScriptCore

namespace Order

open scoped List

variable {s : Scope} {order order' order'' : Order} {block : Nat}

/-- One order becomes another by exchanging declarations within the places of their blocks.  A
block is left as it is or ends up in source order, and no dependency becomes late. -/
structure Rearranged (s : Scope) (order order' : Order) : Prop where
  length : order'.length = order.length
  perm : (emitted order').Perm (emitted order)
  fixed : ∀ (k : Nat) (slot : Slot), (∀ d block, slot = .single d → ¬ s.InBlock block d) →
    (order'[k]? = some slot ↔ order[k]? = some slot)
  late : ∀ i j k' l', s.DependsOn i j → Emits order' k' i → Emits order' l' j → k' < l' →
    ∃ k l, Emits order k i ∧ Emits order l j ∧ k < l
  places : ∀ block, (blockPlaces s block order').map Prod.fst =
    (blockPlaces s block order).map Prod.fst
  members : ∀ block, ((blockPlaces s block order').map Prod.snd).Perm
    ((blockPlaces s block order).map Prod.snd)
  sorted : ∀ block, blockPlaces s block order' = blockPlaces s block order ∨
    ((blockPlaces s block order').map Prod.snd).Pairwise (· ≤ ·)

/-- Nothing changes. -/
theorem Rearranged.refl (s : Scope) (order : Order) : Rearranged s order order where
  length := rfl
  perm := .refl _
  fixed _ _ _ := .rfl
  late _ _ k l _ hk hl hkl := ⟨k, l, hk, hl, hkl⟩
  places _ := rfl
  members _ := .refl _
  sorted _ := .inl rfl

/-- One change after another. -/
theorem Rearranged.trans (h : Rearranged s order order') (h' : Rearranged s order' order'') :
    Rearranged s order order'' where
  length := h'.length.trans h.length
  perm := h'.perm.trans h.perm
  fixed k slot hslot := (h'.fixed k slot hslot).trans (h.fixed k slot hslot)
  late i j k l hij hk hl hkl := by
    obtain ⟨k', l', hk', hl', hkl'⟩ := h'.late i j k l hij hk hl hkl
    exact h.late i j k' l' hij hk' hl' hkl'
  places block := (h'.places block).trans (h.places block)
  members block := (h'.members block).trans (h.members block)
  sorted block := by
    rcases h'.sorted block with heq | hsorted
    · rw [heq]
      exact h.sorted block
    · exact .inr hsorted

/-! ### One block -/

/-- The places of a block are taken by its members in source order. -/
def refill (s : Scope) (order : Order) (block : Nat) : List (Nat × Nat) :=
  ((blockPlaces s block order).map Prod.fst).zip
    (((blockPlaces s block order).map Prod.snd).mergeSort (· ≤ ·))

/-- The places stay the same. -/
@[simp] theorem refill_fst : (refill s order block).map Prod.fst =
    (blockPlaces s block order).map Prod.fst :=
  List.map_fst_zip (by simp)

/-- The members are sorted. -/
@[simp] theorem refill_snd : (refill s order block).map Prod.snd =
    ((blockPlaces s block order).map Prod.snd).mergeSort (· ≤ ·) :=
  List.map_snd_zip (by simp)

/-- The places of a block are different. -/
theorem nodup_refill_fst : ((refill s order block).map Prod.fst).Nodup := by
  rw [refill_fst]
  refine List.pairwise_map.2 ((blockPlaces_pairwise s block order).imp ?_)
  exact fun hlt => Nat.ne_of_lt hlt

/-- What is put at a place of a block is a member of the block. -/
theorem inBlock_of_mem_refill {k d : Nat} (h : (k, d) ∈ refill s order block) :
    s.InBlock block d := by
  have hd : d ∈ (refill s order block).map Prod.snd := List.mem_map.2 ⟨(k, d), h, rfl⟩
  rw [refill_snd, List.mem_mergeSort, List.mem_map] at hd
  obtain ⟨⟨l, e⟩, hmem, rfl⟩ := hd
  exact (mem_blockPlaces.1 hmem).2

/-- A place of a block held a member before. -/
theorem old_of_mem_refill {k d : Nat} (h : (k, d) ∈ refill s order block) :
    ∃ e, order[k]? = some (.single e) ∧ s.InBlock block e := by
  have hk : k ∈ (refill s order block).map Prod.fst := List.mem_map.2 ⟨(k, d), h, rfl⟩
  rw [refill_fst, List.mem_map] at hk
  obtain ⟨⟨l, e⟩, hmem, rfl⟩ := hk
  exact ⟨e, mem_blockPlaces.1 hmem⟩

/-- A place of a block holds its new member. -/
theorem sortedBlock_of_mem {k d : Nat} (h : (k, d) ∈ refill s order block) :
    (sortedBlock s order block)[k]? = some (.single d) := by
  obtain ⟨e, he, -⟩ := old_of_mem_refill h
  exact putAll_getElem?_of_mem nodup_refill_fst h (List.getElem?_eq_some_iff.1 he).1

/-- Other places hold what they held. -/
theorem sortedBlock_of_not_mem {k : Nat} (h : ∀ d, (k, d) ∉ refill s order block) :
    (sortedBlock s order block)[k]? = order[k]? := by
  refine putAll_getElem?_of_not_mem fun hk => ?_
  obtain ⟨⟨l, d⟩, hmem, rfl⟩ := List.mem_map.1 hk
  exact h d hmem

/-- A member of a block at a place of the order has that place to fill. -/
theorem mem_refill_of_single {k d : Nat} (h : order[k]? = some (.single d))
    (hblock : s.InBlock block d) : ∃ e, (k, e) ∈ refill s order block := by
  have hk : k ∈ (refill s order block).map Prod.fst := by
    rw [refill_fst]
    exact List.mem_map.2 ⟨(k, d), mem_blockPlaces.2 ⟨h, hblock⟩, rfl⟩
  obtain ⟨⟨l, e⟩, hmem, rfl⟩ := List.mem_map.1 hk
  exact ⟨e, hmem⟩

/-- Slots that are no member of the block stay where they are, and come from nowhere else. -/
theorem sortedBlock_fixed {k : Nat} {slot : Slot}
    (hslot : ∀ d, slot = .single d → ¬ s.InBlock block d) :
    (sortedBlock s order block)[k]? = some slot ↔ order[k]? = some slot := by
  by_cases hk : ∃ d, (k, d) ∈ refill s order block
  · obtain ⟨d, hmem⟩ := hk
    obtain ⟨e, he, heblock⟩ := old_of_mem_refill hmem
    rw [sortedBlock_of_mem hmem, he]
    constructor
    · intro heq
      exact absurd (inBlock_of_mem_refill hmem) (hslot d (Option.some.inj heq).symm)
    · intro heq
      exact absurd heblock (hslot e (Option.some.inj heq).symm)
  · rw [sortedBlock_of_not_mem fun d hd => hk ⟨d, hd⟩]

/-- The block stands in source order. -/
theorem blockPlaces_sortedBlock_self :
    blockPlaces s block (sortedBlock s order block) = refill s order block := by
  refine blockPlaces_eq_of_mem ?_ fun k d => ⟨fun h => ?_, fun ⟨hslot, hblock⟩ => ?_⟩
  · rw [← List.pairwise_map (f := Prod.fst) (R := (· < ·)), refill_fst]
    exact List.pairwise_map.2 (blockPlaces_pairwise s block order)
  · exact ⟨sortedBlock_of_mem h, inBlock_of_mem_refill h⟩
  · by_cases hk : ∃ e, (k, e) ∈ refill s order block
    · obtain ⟨e, he⟩ := hk
      rw [sortedBlock_of_mem he] at hslot
      cases hslot
      exact he
    · rw [sortedBlock_of_not_mem fun e he => hk ⟨e, he⟩] at hslot
      exact absurd (mem_refill_of_single hslot hblock) hk

/-- Other blocks stand as before. -/
theorem blockPlaces_sortedBlock_of_ne {other : Nat} (hne : other ≠ block) :
    blockPlaces s other (sortedBlock s order block) = blockPlaces s other order := by
  refine blockPlaces_eq_of_mem (blockPlaces_pairwise s other order) fun k d => ?_
  rw [mem_blockPlaces]
  refine and_congr_left fun hother => (sortedBlock_fixed ?_).symm
  rintro e heq hblock
  cases heq
  rw [Scope.InBlock] at hother hblock
  rw [hother] at hblock
  exact hne (Option.some.inj hblock)

/-- The same declarations are emitted. -/
theorem sortedBlock_emitted :
    (emitted (sortedBlock s order block)).Perm (emitted order) := by
  have hold : List.Forall₂ (fun p d => order[p.1]? = some (.single d)) (refill s order block)
      ((blockPlaces s block order).map Prod.snd) := by
    have hself : List.Forall₂ (fun k d => order[k]? = some (.single d))
        ((blockPlaces s block order).map Prod.fst) ((blockPlaces s block order).map Prod.snd) := by
      rw [List.forall₂_map_left_iff, List.forall₂_map_right_iff, List.forall₂_same]
      rintro ⟨k, d⟩ hmem
      exact (mem_blockPlaces.1 hmem).1
    rw [← refill_fst, List.forall₂_map_left_iff] at hself
    exact hself
  have hexchange := putAll_emitted nodup_refill_fst hold
  rw [refill_snd] at hexchange
  exact (List.perm_append_left_iff _).1
    (hexchange.trans ((List.mergeSort_perm _ _).append_right _))

/-- Putting a block back rearranges the order, whether or not the check allows it. -/
theorem restoreBlock_rearranged (hnodup : (emitted order).Nodup) (block : Nat) :
    Rearranged s order (restoreBlock s s.graph order block) := by
  unfold restoreBlock
  dsimp only
  by_cases hsame : sortedBlock s order block = order
  · rw [if_pos hsame]
    exact .refl s order
  rw [if_neg hsame]
  by_cases hchecked : addsNoLate s.graph order (sortedBlock s order block) = true
  · rw [if_pos hchecked]
    have hperm : (emitted (sortedBlock s order block)).Perm (emitted order) :=
      sortedBlock_emitted
    have hnodup' := hperm.nodup_iff.2 hnodup
    refine ⟨putAll_length _ _, hperm,
      fun k slot hslot => sortedBlock_fixed fun d => hslot d block, ?_, ?_, ?_, ?_⟩
    · intro i j k' l' hij hk' hl' hkl'
      obtain ⟨k, hk⟩ := mem_emitted.1 (hperm.subset (mem_emitted.2 ⟨k', hk'⟩))
      obtain ⟨l, hl⟩ := mem_emitted.1 (hperm.subset (mem_emitted.2 ⟨l', hl'⟩))
      have hi : i < Array.size s.graph := by
        rw [Scope.graph_size]
        exact hij.source_lt
      have hj : j < Array.size s.graph := by
        rw [Scope.graph_size]
        exact hij.target_lt
      have hlate := isLate_of_addsNoLate hchecked (Scope.graph_edge_iff.2 hij)
        ((isLate_iff hnodup' hk' hl' hi hj).2 hkl')
      exact ⟨k, l, hk, hl, (isLate_iff hnodup hk hl hi hj).1 hlate⟩
    · intro other
      by_cases hother : other = block
      · rw [hother, blockPlaces_sortedBlock_self, refill_fst]
      · rw [blockPlaces_sortedBlock_of_ne hother]
    · intro other
      by_cases hother : other = block
      · rw [hother, blockPlaces_sortedBlock_self, refill_snd]
        exact List.mergeSort_perm _ _
      · rw [blockPlaces_sortedBlock_of_ne hother]
    · intro other
      by_cases hother : other = block
      · rw [hother, blockPlaces_sortedBlock_self, refill_snd]
        refine .inr ((List.pairwise_mergeSort ?_ ?_ _).imp (by simp))
        · intro a b c
          simpa using fun hab hbc => Nat.le_trans hab hbc
        · intro a b
          simpa using Nat.le_total a b
      · exact .inl (blockPlaces_sortedBlock_of_ne hother)
  · rw [if_neg hchecked]
    exact .refl s order

/-- Putting blocks back, one after the other, rearranges the order. -/
theorem foldl_restoreBlock_rearranged (hnodup : (emitted order).Nodup) (blocks : List Nat) :
    Rearranged s order (blocks.foldl (restoreBlock s s.graph) order) := by
  induction blocks generalizing order with
  | nil => exact .refl s order
  | cons block rest ih =>
      have hfirst := restoreBlock_rearranged (s := s) hnodup block
      exact hfirst.trans (ih (hfirst.perm.nodup_iff.2 hnodup))

/-- Putting all blocks back rearranges the order. -/
theorem restoreBlocks_rearranged (hnodup : (emitted order).Nodup) :
    Rearranged s order (restoreBlocks s s.graph order) :=
  foldl_restoreBlock_rearranged hnodup (List.range s.blocks)

/-! ### What is emitted, and in which order -/

/-- The same types are declared ahead, at the same places. -/
theorem Rearranged.forwards_eq (h : Rearranged s order order') :
    forwards order' = forwards order := by
  have hslots : order'.map Slot.ahead? = order.map Slot.ahead? := by
    refine List.ext_getElem? fun k => ?_
    rw [List.getElem?_map, List.getElem?_map]
    by_cases hsingle : ∃ d, order[k]? = some (.single d)
    · obtain ⟨d, hd⟩ := hsingle
      cases hk : order'[k]? with
      | none =>
          have hlt := (List.getElem?_eq_some_iff.1 hd).1
          have hout := List.getElem?_eq_none_iff.1 hk
          rw [h.length] at hout
          omega
      | some slot =>
          cases slot with
          | single e => rw [hd]; rfl
          | forward t =>
              rw [(h.fixed k (.forward t) (by simp)).1 hk] at hd
              cases hd
          | cycle members =>
              rw [(h.fixed k (.cycle members) (by simp)).1 hk] at hd
              cases hd
    · cases hk : order[k]? with
      | none =>
          have hout := List.getElem?_eq_none_iff.1 hk
          rw [List.getElem?_eq_none_iff.2 (by rw [h.length]; exact hout)]
      | some slot =>
          have hfixed := h.fixed k slot fun d block hd _ => hsingle ⟨d, by rw [hk, hd]⟩
          rw [hfixed.2 hk]
  have hjoin : ∀ o : Order, forwards o = (o.map Slot.ahead?).filterMap id := fun o => by
    simp [forwards, List.filterMap_map]
  rw [hjoin, hjoin, hslots]

/-- The batches hold what is emitted and what is declared ahead. -/
theorem batches_flatten_perm (s : Scope) (order : Order) :
    (batches s order).flatten.Perm ((emitted order).filterMap (s.decls[·]?) ++
      (forwards order).filterMap fun t => (s.decls[t]?).map Decl.forward) := by
  have hslot : ∀ slot : Slot, slot.batch s = slot.emits.filterMap (s.decls[·]?) ++
      slot.ahead?.toList.filterMap fun t => (s.decls[t]?).map Decl.forward := by
    intro slot
    cases slot with
    | single d => cases hd : s.decls[d]? <;> simp [Slot.batch, Slot.emits, Slot.ahead?, hd]
    | forward t => cases ht : s.decls[t]? <;> simp [Slot.batch, Slot.emits, Slot.ahead?, ht]
    | cycle members => simp [Slot.batch, Slot.emits, Slot.ahead?]
  induction order with
  | nil => exact .refl _
  | cons slot rest ih =>
      rw [batches] at ih
      have hforwards : forwards (slot :: rest) = slot.ahead?.toList ++ forwards rest := by
        cases h : slot.ahead? <;> simp [forwards, h]
      rw [batches, List.map_cons, List.flatten_cons, hslot, hforwards, emitted, List.flatMap_cons,
        List.filterMap_append, List.filterMap_append, List.append_assoc, List.append_assoc]
      refine List.Perm.append_left _ ((ih.append_left _).trans ?_)
      rw [← List.append_assoc, ← List.append_assoc]
      exact List.perm_append_comm.append_right _

/-- If every declaration is emitted once, the batches hold the declarations and what is declared
ahead. -/
theorem batches_perm (honce : (emitted order).Perm (List.range s.decls.size)) :
    (batches s order).flatten.Perm (s.decls.toList ++
      (forwards order).filterMap fun t => (s.decls[t]?).map Decl.forward) := by
  refine (batches_flatten_perm s order).trans (List.Perm.append_right _ ?_)
  have hdecls := filterMap_range s.decls.toList
  rw [Array.length_toList] at hdecls
  have hall := honce.filterMap (s.decls.toList[·]?)
  rw [hdecls] at hall
  simpa using hall

/-- In pairs that ascend on both sides, a place comes before another exactly when fewer members
precede its own than there are places before the other. -/
theorem rank_lt_iff {pairs : List (Nat × Nat)} {k d place : Nat}
    (hascend : pairs.Pairwise fun p q => p.1 < q.1 ∧ p.2 < q.2) (hmem : (k, d) ∈ pairs) :
    k < place ↔
      (pairs.map Prod.snd).countP (· < d) < (pairs.map Prod.fst).countP (· < place) := by
  obtain ⟨before, after, rfl⟩ := List.append_of_mem hmem
  obtain ⟨-, hafter, hbefore⟩ := List.pairwise_append.1 hascend
  have hbelow : ∀ p ∈ before, p.1 < k ∧ p.2 < d := fun p hp => hbefore p hp (k, d) (by simp)
  have habove : ∀ p ∈ after, k < p.1 ∧ d < p.2 := (List.pairwise_cons.1 hafter).1
  have hrank : ((before ++ (k, d) :: after).map Prod.snd).countP (· < d) = before.length := by
    have hall : (before.map Prod.snd).countP (· < d) = (before.map Prod.snd).length :=
      List.countP_eq_length.2 (by simpa using fun d k hdk => (hbelow (k, d) hdk).2)
    have hnone : (after.map Prod.snd).countP (· < d) = 0 :=
      List.countP_eq_zero.2 (by simpa using fun d k hdk => Nat.le_of_lt (habove (k, d) hdk).2)
    rw [List.map_append, List.countP_append, hall, List.map_cons, List.countP_cons, hnone]
    simp
  rw [hrank, List.map_append, List.countP_append, List.map_cons, List.countP_cons]
  by_cases hplace : k < place
  · have hall : (before.map Prod.fst).countP (· < place) = (before.map Prod.fst).length :=
      List.countP_eq_length.2 (by
        simpa using fun a b hab => (hbelow (a, b) hab).1.trans hplace)
    rw [hall, List.length_map]
    simp only [hplace, decide_true, if_true, true_iff]
    omega
  · have hnone : (after.map Prod.fst).countP (· < place) = 0 :=
      List.countP_eq_zero.2 (by
        simpa using fun a b hab =>
          (Nat.le_of_not_lt hplace).trans (Nat.le_of_lt (habove (a, b) hab).1))
    have hle := List.countP_le_length (p := (· < place)) (l := before.map Prod.fst)
    rw [List.length_map] at hle
    rw [hnone]
    simp only [hplace, decide_false, Bool.false_eq_true, if_false, false_iff]
    omega

/-- Declaration `i` is moved to or before a place: its block ends up in source order, and fewer
members of the block come before it in the source than the block had places before that place. -/
def Overtaken (s : Scope) (initial order : Order) (place i : Nat) : Prop :=
  ∃ block, i ∈ (blockPlaces s block initial).map Prod.snd ∧
    ((blockPlaces s block order).map Prod.snd).Pairwise (· ≤ ·) ∧
    ((blockPlaces s block initial).map Prod.snd).countP (· < i) <
      ((blockPlaces s block initial).map Prod.fst).countP (· < place)

/-- For a member of a block only that block counts. -/
theorem overtaken_iff {initial : Order} {place i : Nat}
    (hi : i ∈ (blockPlaces s block initial).map Prod.snd) :
    Overtaken s initial order place i ↔
      ((blockPlaces s block order).map Prod.snd).Pairwise (· ≤ ·) ∧
        ((blockPlaces s block initial).map Prod.snd).countP (· < i) <
          ((blockPlaces s block initial).map Prod.fst).countP (· < place) := by
  have hblock : ∀ b, i ∈ (blockPlaces s b initial).map Prod.snd → s.InBlock b i := by
    intro b hb
    obtain ⟨⟨k, d⟩, hmem, rfl⟩ := List.mem_map.1 hb
    exact (mem_blockPlaces.1 hmem).2
  constructor
  · rintro ⟨other, hother, hcounts⟩
    have hsame : other = block := by
      have heq := hblock other hother
      rw [Scope.InBlock, hblock block hi] at heq
      exact (Option.some.inj heq).symm
    rwa [hsame] at hcounts
  · exact fun hcounts => ⟨block, hi, hcounts⟩

/-- No declaration stands at two places of a block. -/
theorem nodup_blockPlaces_snd (hnodup : (emitted order).Nodup) :
    ((blockPlaces s block order).map Prod.snd).Nodup := by
  refine List.pairwise_map.2 ((blockPlaces_pairwise s block order).imp_of_mem ?_)
  rintro ⟨k, d⟩ ⟨l, e⟩ hk hl hkl heq
  have hk' : Emits order k d := ⟨_, (mem_blockPlaces.1 hk).1, by simp [Slot.emits]⟩
  have hl' : Emits order l d := ⟨_, (mem_blockPlaces.1 hl).1, by simpa [Slot.emits] using heq⟩
  exact Nat.ne_of_lt hkl (hk'.unique hnodup hl')

/-- A block in source order ascends on both sides. -/
theorem blockPlaces_ascend (hnodup : (emitted order).Nodup)
    (hsorted : ((blockPlaces s block order).map Prod.snd).Pairwise (· ≤ ·)) :
    (blockPlaces s block order).Pairwise fun p q => p.1 < q.1 ∧ p.2 < q.2 := by
  have hdistinct : ((blockPlaces s block order).map Prod.snd).Nodup :=
    nodup_blockPlaces_snd hnodup
  have hmembers := List.pairwise_map.1 hdistinct
  have hplaces := blockPlaces_pairwise s block order
  refine (hplaces.and (hmembers.and (List.pairwise_map.1 hsorted))).imp ?_
  rintro p q ⟨hplace, hne, hle⟩
  exact ⟨hplace, Nat.lt_of_le_of_ne hle hne⟩

/-- A member of a block comes to stand before a place exactly if it is overtaken. -/
theorem Rearranged.overtaken_iff_lt (h : Rearranged s order order')
    (hnodup : (emitted order).Nodup) {k k' i place : Nat} (hk : Emits order k i)
    (hk' : Emits order' k' i) (hplace : place < k) (hne : place ≠ k') :
    Overtaken s order order' place i ↔ k' < place := by
  have hnodup' := h.perm.nodup_iff.2 hnodup
  by_cases hblock : ∃ block, i ∈ (blockPlaces s block order).map Prod.snd
  · obtain ⟨block, hi⟩ := hblock
    obtain ⟨⟨l', d⟩, hmem', rfl⟩ := List.mem_map.1 ((h.members block).mem_iff.2 hi)
    have hl' : Emits order' l' d := ⟨_, (mem_blockPlaces.1 hmem').1, by simp [Slot.emits]⟩
    have heq' := hl'.unique hnodup' hk'
    subst heq'
    rw [overtaken_iff hi]
    by_cases hsorted : ((blockPlaces s block order').map Prod.snd).Pairwise (· ≤ ·)
    · rw [rank_lt_iff (blockPlaces_ascend hnodup' hsorted) hmem', h.places block,
        (h.members block).countP_eq]
      exact and_iff_right hsorted
    · -- The block was not moved, so the member is where it was.
      rw [(h.sorted block).resolve_right hsorted] at hmem'
      have hl : Emits order l' d := ⟨_, (mem_blockPlaces.1 hmem').1, by simp [Slot.emits]⟩
      have heq := hl.unique hnodup hk
      constructor
      · exact fun hcounts => absurd hcounts.1 hsorted
      · omega
  · obtain ⟨slot, hslot, hi⟩ := hk
    have hstay := (h.fixed k slot fun d block hd hdblock => ?_).2 hslot
    · have heq : k = k' := Emits.unique hnodup' ⟨slot, hstay, hi⟩ hk'
      constructor
      · rintro ⟨block, hmem, -⟩
        exact absurd ⟨block, hmem⟩ hblock
      · omega
    · subst hd
      have hid : i = d := by simpa [Slot.emits] using hi
      subst hid
      exact hblock ⟨block, List.mem_map.2 ⟨(k, i), mem_blockPlaces.2 ⟨hslot, hdblock⟩, rfl⟩⟩

/-- What an order that came from an initial one guarantees.  Every declaration is in one batch, and
exactly the types on cycles are declared ahead.  No dependency is emitted after its user, except
for types that are intertwined with it; those are declared ahead of it unless it is overtaken. -/
structure Emission (s : Scope) (initial order : Order) : Prop where
  complete : (batches s order).flatten.Perm
    (s.decls.toList ++ (forwards order).filterMap fun t => (s.decls[t]?).map Decl.forward)
  once : (emitted order).Perm (List.range s.decls.size)
  nodup_forwards : (forwards order).Nodup
  mem_forwards : ∀ t, t ∈ forwards order ↔ s.isTypeAt t = true ∧ s.Intertwined t t
  ordered : ∀ i j, s.DependsOn i j → ¬ (s.isTypeAt j = true ∧ s.Intertwined i j) →
    ∀ k l, Emits order k i → Emits order l j → l ≤ k
  declared_ahead : ∀ i t, s.DependsOn i t → s.isTypeAt t = true → s.Intertwined i t →
    ∀ k place, Emits order k i → order[place]? = some (.forward t) →
      (place < k ↔ ¬ Overtaken s initial order place i)

/-- Types are declarations. -/
theorem lt_of_isTypeAt {t : Nat} (h : s.isTypeAt t = true) : t < s.decls.size := by
  by_contra hout
  simp [Scope.isTypeAt, Scope.kindAt, Array.getElem?_eq_none (Nat.le_of_not_lt hout)] at h

/-- The types of cyclic groups are those that are intertwined with themselves. -/
theorem mem_cyclic_types {groups : List (List Nat)} (h : s.graph.Decomposition groups) {t : Nat} :
    t ∈ (groups.flatMap fun c => if s.graph.isCyclic c then c.filter s.isTypeAt else []) ↔
      s.isTypeAt t = true ∧ s.Intertwined t t := by
  rw [List.mem_flatMap]
  constructor
  · rintro ⟨c, hc, ht⟩
    by_cases hcyclic : s.graph.isCyclic c = true
    · rw [if_pos hcyclic, List.mem_filter] at ht
      exact ⟨ht.2, (Scope.isCyclic_iff_intertwined h hc ht.1).1 hcyclic⟩
    · rw [if_neg hcyclic] at ht
      cases ht
  · rintro ⟨htype, htwined⟩
    have hlt : t < Array.size s.graph := by
      rw [Scope.graph_size]
      exact lt_of_isTypeAt htype
    obtain ⟨c, hc, ht⟩ := h.exists_group hlt
    refine ⟨c, hc, ?_⟩
    rw [if_pos ((Scope.isCyclic_iff_intertwined h hc ht).2 htwined), List.mem_filter]
    exact ⟨ht, htype⟩

/-- No type of a cyclic group is listed twice. -/
theorem nodup_cyclic_types {groups : List (List Nat)} (h : s.graph.Decomposition groups) :
    (groups.flatMap fun c => if s.graph.isCyclic c then c.filter s.isTypeAt else []).Nodup := by
  have hsub : ∀ gs : List (List Nat),
      (gs.flatMap fun c => if s.graph.isCyclic c then c.filter s.isTypeAt else []).Sublist
        gs.flatten := by
    intro gs
    induction gs with
    | nil => exact .refl _
    | cons c rest ih =>
        rw [List.flatMap_cons, List.flatten_cons]
        refine List.Sublist.append ?_ ih
        split
        · exact List.filter_sublist
        · exact List.nil_sublist c
  exact h.nodup.sublist (hsub groups)

/-- In an order without open dependencies, slot by slot, what comes later is clear. -/
theorem clear_of_lt {k l : Nat} {a b : Slot} (h : order.Pairwise (Slot.Clear s))
    (ha : order[k]? = some a) (hb : order[l]? = some b) (hkl : k < l) : Slot.Clear s a b := by
  obtain ⟨hk, rfl⟩ := List.getElem?_eq_some_iff.1 ha
  obtain ⟨hl, rfl⟩ := List.getElem?_eq_some_iff.1 hb
  exact List.pairwise_iff_getElem.1 h k l hk hl hkl

/-- **What the order of a scope guarantees, whatever its declarations**: every declaration once,
the types on cycles declared ahead, no other dependency emitted after its user, and the forward
declaration of an intertwined type before its user except exactly where putting a block back has
moved the user to or before it. -/
theorem ofScope_emission (h : ofScope s = .ok order) :
    ∃ initial, slotsOf s s.graph (Components.ofGraph s.graph) = .ok initial ∧
      Emission s initial order := by
  have hgroups := Components.ofGraph_decomposition (Scope.graph_closed s)
  unfold ofScope at h
  dsimp only at h
  cases hinitial : slotsOf s s.graph (Components.ofGraph s.graph) with
  | error e => simp [hinitial, bind, Except.bind] at h
  | ok initial =>
      simp only [hinitial, bind, Except.bind, pure, Except.pure, Except.ok.injEq] at h
      subst h
      have hclear := slotsOf_clear hgroups hinitial
      have honce : (emitted initial).Perm (List.range s.decls.size) := by
        rw [← Scope.graph_size]
        exact (slotsOf_emitted (fun c hc => hgroups.group_nodup hc) hinitial).trans
          hgroups.complete
      have hnodup : (emitted initial).Nodup := honce.nodup_iff.2 List.nodup_range
      have hmoved := restoreBlocks_rearranged (s := s) hnodup
      generalize restoreBlocks s s.graph initial = order at hmoved
      have hforwards := hmoved.forwards_eq.trans (slotsOf_forwards hinitial)
      have hemitted := hmoved.perm.trans honce
      refine ⟨initial, rfl, batches_perm hemitted, hemitted, ?_, ?_, ?_, ?_⟩
      · rw [hforwards]
        exact nodup_cyclic_types hgroups
      · intro t
        rw [hforwards]
        exact mem_cyclic_types hgroups
      · intro i j hij hother k l hk hl
        by_contra hlate
        obtain ⟨k₀, l₀, ⟨a, ha, hi⟩, ⟨b, hb, hj⟩, hlt⟩ :=
          hmoved.late i j k l hij hk hl (Nat.lt_of_not_le hlate)
        exact hother ((clear_of_lt hclear ha hb hlt).target i hi j hj hij)
      · intro i t hit htype htwined k place hk hplace
        have hplace₀ := (hmoved.fixed place (.forward t) (by simp)).1 hplace
        obtain ⟨k₀, hk₀⟩ := mem_emitted.1 (hmoved.perm.subset (mem_emitted.2 ⟨k, hk⟩))
        have hapart : ∀ {o : Order} {l : Nat}, Emits o l i → o[place]? = some (.forward t) →
            place ≠ l := by
          rintro o l ⟨slot, hslot, hi⟩ hforward rfl
          rw [hforward] at hslot
          cases hslot
          cases hi
        have hbefore : place < k₀ := by
          have hne := hapart hk₀ hplace₀
          by_contra hafter
          obtain ⟨a, ha, hi⟩ := hk₀
          have hlt : k₀ < place := by omega
          exact (clear_of_lt hclear ha hplace₀ hlt).ahead i hi t rfl hit htwined
        have hne := hapart hk hplace
        rw [hmoved.overtaken_iff_lt hnodup hk₀ hk hbefore hne]
        omega

/-- Two members that stand in the wrong order are exchanged. -/
theorem sortedBlock_pair {k l : Nat} (hplaces : blockPlaces s block order = [(k, j), (l, i)])
    (hlt : i < j) : sortedBlock s order block = putAll order [(k, i), (l, j)] := by
  have hsorted : [j, i].mergeSort (fun a b => decide (a ≤ b)) = [i, j] := by
    rw [List.mergeSort]
    simp [List.MergeSort.Internal.splitInTwo, Nat.not_le_of_lt hlt]
  rw [sortedBlock, hplaces]
  exact congrArg (fun members => putAll order ([k, l].zip members)) hsorted

/-- A block of two constants, the first of which mentions a type whose length is computed from
both.  Before the block is put back the second constant comes first, then the forward declaration,
then the constant that needs it. -/
def overtaking : Scope where
  decls :=
    let mention (name : Name) : Expr := .node .none (.ident name)
    let length : Expr := .node .none (.binary .add (mention "n") (mention "m"))
    let array : TypeExpr := .node .none (.array length (.node .none (.named "int")))
    #[⟨.const, "n", .value (.mk ["n"] none [mention "T"] .none), .none, some 0, some 0, 0⟩,
      ⟨.const, "m", .value (.mk ["m"] none [.node .none (.int 1)] .none), .none, some 1, some 0, 1⟩,
      ⟨.type, "T", .type ⟨"T", array, false, .none⟩, .none, none, none, 2⟩]
  generated := 0
  blocks := 1

/-- The order of the scope, its block put back. -/
theorem ofScope_overtaking :
    ofScope overtaking = .ok [.single 0, .forward 2, .single 1, .single 2] := by
  have hslots : slotsOf overtaking overtaking.graph (Components.ofGraph overtaking.graph) =
      .ok [.single 1, .forward 2, .single 0, .single 2] := by cbv
  have hblock : sortedBlock overtaking [.single 1, .forward 2, .single 0, .single 2] 0 =
      [.single 0, .forward 2, .single 1, .single 2] :=
    sortedBlock_pair (k := 0) (l := 2) (i := 0) (j := 1) rfl (by decide)
  rw [ofScope, hslots]
  refine congrArg Except.ok (?_ : restoreBlock overtaking overtaking.graph _ 0 = _)
  rw [restoreBlock, hblock]
  decide +kernel

/-- The order of the scope is emitted as described. -/
theorem overtaking_emission :
    ofScope overtaking = .ok [.single 0, .forward 2, .single 1, .single 2] ∧
      ∃ initial, slotsOf overtaking overtaking.graph (Components.ofGraph overtaking.graph) =
        .ok initial ∧
        Emission overtaking initial [.single 0, .forward 2, .single 1, .single 2] :=
  ⟨ofScope_overtaking, ofScope_emission ofScope_overtaking⟩

/-- A user can come before the forward declaration of a type that it is intertwined with. -/
theorem user_before_forward :
    ∃ order, ofScope overtaking = .ok order ∧ ∃ i t k place, overtaking.DependsOn i t ∧
      overtaking.isTypeAt t = true ∧ overtaking.Intertwined i t ∧ Emits order k i ∧
      order[place]? = some (.forward t) ∧ k < place := by
  have huse : 2 ∈ overtaking.graph.targets 0 := by decide +kernel
  have hlength : 0 ∈ overtaking.graph.targets 2 := by decide +kernel
  have hforth : overtaking.DependsOn 0 2 := Scope.graph_edge_iff.1 huse
  have hback : overtaking.DependsOn 2 0 := Scope.graph_edge_iff.1 hlength
  exact ⟨_, ofScope_overtaking, 0, 2, 0, 1, hforth, by decide +kernel,
    ⟨.single hforth, .single hback⟩,
    ⟨.single 0, rfl, by decide⟩, rfl, by decide⟩

end Order

end ScriptCore
