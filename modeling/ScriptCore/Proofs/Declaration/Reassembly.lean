import ScriptCore.Proofs.Declaration.Sources

/-!
# Blocks in source order

Blocks are put back one after the other, in the order in which they were loaded, each of them once.
When its turn has come a block is in source order, or there is a dependency in the way: it is
satisfied, and would be late if just the members of the block went to source order (`InTheWay`).
Blocks that come later may move the ends of that dependency.  If one that was in the way keeps both
of its ends, it is in the way in the final order, too.  If none does, the block may be left out of
order for no reason, since it is not tried again (`untried`).

Main statements: `PutBack.eq_sortedBlock`, `orderAt_settled` and `ofScope_reassembled`.
-/

namespace ScriptCore

namespace Order

variable {s : Scope} {order order' before : Order} {block i j k : Nat}

/-! ### Putting one block back -/

/-- The members of a block that are batches by themselves stand in source order. -/
def InSourceOrder (s : Scope) (block : Nat) (order : Order) : Prop :=
  ((blockPlaces s block order).map Prod.snd).Pairwise (· ≤ ·)

/-- The second order has the members of the block in source order, within the places that they
occupy in the first, and is the same otherwise. -/
structure PutBack (s : Scope) (block : Nat) (order order' : Order) : Prop where
  length : order'.length = order.length
  fixed : ∀ (k : Nat) (slot : Slot), (∀ d, slot = .single d → ¬ s.InBlock block d) →
    (order'[k]? = some slot ↔ order[k]? = some slot)
  members : ((blockPlaces s block order').map Prod.snd).Perm
    ((blockPlaces s block order).map Prod.snd)
  sorted : InSourceOrder s block order'

/-- Members of a block that are put back are in source order. -/
theorem inSourceOrder_sortedBlock : InSourceOrder s block (sortedBlock s order block) := by
  rw [InSourceOrder, blockPlaces_sortedBlock_self, refill_snd]
  refine (List.pairwise_mergeSort ?_ ?_ _).imp (by simp)
  · intro a b c
    simpa using fun hab hbc => Nat.le_trans hab hbc
  · intro a b
    simpa using Nat.le_total a b

/-- There is such an order. -/
theorem putBack_sortedBlock (s : Scope) (block : Nat) (order : Order) :
    PutBack s block order (sortedBlock s order block) where
  length := putAll_length _ _
  fixed _ _ hslot := sortedBlock_fixed hslot
  members := by
    rw [blockPlaces_sortedBlock_self, refill_snd]
    exact List.mergeSort_perm _ _
  sorted := inSourceOrder_sortedBlock

namespace PutBack

/-- Members stand where members stood. -/
theorem places (h : PutBack s block order order') :
    (∃ d, order'[k]? = some (.single d) ∧ s.InBlock block d) ↔
      ∃ d, order[k]? = some (.single d) ∧ s.InBlock block d := by
  have hmember : ∀ {slot : Slot}, (¬∀ d, slot = .single d → ¬ s.InBlock block d) →
      ∃ d, slot = .single d ∧ s.InBlock block d := by
    intro slot hslot
    simpa using hslot
  constructor
  · rintro ⟨d, hd, hblock⟩
    have hlt := (List.getElem?_eq_some_iff.1 hd).1
    rw [h.length] at hlt
    obtain ⟨e, he, heblock⟩ := hmember fun hother => by
      rw [(h.fixed k _ hother).2 (List.getElem?_eq_getElem hlt)] at hd
      exact hother d (Option.some.inj hd) hblock
    exact ⟨e, by rw [List.getElem?_eq_getElem hlt, he], heblock⟩
  · rintro ⟨d, hd, hblock⟩
    have hlt := (List.getElem?_eq_some_iff.1 hd).1
    rw [← h.length] at hlt
    obtain ⟨e, he, heblock⟩ := hmember fun hother => by
      rw [(h.fixed k _ hother).1 (List.getElem?_eq_getElem hlt)] at hd
      exact hother d (Option.some.inj hd) hblock
    exact ⟨e, by rw [List.getElem?_eq_getElem hlt, he], heblock⟩

/-- The places of the block are the same. -/
theorem blockPlaces_fst (h : PutBack s block order order') :
    (blockPlaces s block order').map Prod.fst = (blockPlaces s block order).map Prod.fst := by
  have hascend : ∀ o : Order, ((blockPlaces s block o).map Prod.fst).Pairwise (· < ·) :=
    fun o => List.pairwise_map.2 (blockPlaces_pairwise s block o)
  refine (hascend order').eq_of_mem_iff (hascend order) fun k => ?_
  have hmem : ∀ o : Order, k ∈ (blockPlaces s block o).map Prod.fst ↔
      ∃ d, o[k]? = some (.single d) ∧ s.InBlock block d := by
    intro o
    simp [mem_blockPlaces]
  rw [hmem, hmem, h.places]

/-- **There is no other such order.** -/
theorem eq_sortedBlock (h : PutBack s block order order') :
    order' = sortedBlock s order block := by
  have hpairs : blockPlaces s block order' = refill s order block := by
    refine List.zip_of_prod h.blockPlaces_fst ?_
    have hsorted : InSourceOrder s block (sortedBlock s order block) := inSourceOrder_sortedBlock
    rw [InSourceOrder, blockPlaces_sortedBlock_self, refill_snd] at hsorted
    exact List.Perm.eq_of_pairwise (fun _ _ _ _ => Nat.le_antisymm) h.sorted hsorted
      (h.members.trans (List.mergeSort_perm _ _).symm)
  refine List.ext_getElem? fun k => ?_
  by_cases hk : ∃ d, (k, d) ∈ refill s order block
  · obtain ⟨d, hd⟩ := hk
    rw [sortedBlock_of_mem hd]
    rw [← hpairs] at hd
    exact (mem_blockPlaces.1 hd).1
  · have hnone : ∀ d, (k, d) ∉ refill s order block := fun d hd => hk ⟨d, hd⟩
    rw [sortedBlock_of_not_mem hnone]
    cases hslot : order[k]? with
    | none =>
        rw [List.getElem?_eq_none_iff] at hslot ⊢
        rwa [h.length]
    | some slot =>
        refine (h.fixed k slot ?_).2 hslot
        rintro d rfl hblock
        exact hk (mem_refill_of_single hslot hblock)

end PutBack

/-- Where a declaration is emitted once a block has been put back. -/
theorem emits_sortedBlock_iff : Emits (sortedBlock s order block) k i ↔
    (k, i) ∈ refill s order block ∨ (∀ d, (k, d) ∉ refill s order block) ∧ Emits order k i := by
  by_cases hk : ∃ d, (k, d) ∈ refill s order block
  · obtain ⟨d, hd⟩ := hk
    have hother : ¬∀ d, (k, d) ∉ refill s order block := fun hnone => hnone d hd
    rw [or_iff_left fun h => hother h.1]
    constructor
    · rintro ⟨slot, hslot, hi⟩
      rw [sortedBlock_of_mem hd] at hslot
      cases hslot
      rwa [List.mem_singleton.1 hi]
    · exact fun hi => ⟨.single i, sortedBlock_of_mem hi, List.mem_singleton_self i⟩
  · have hnone : ∀ d, (k, d) ∉ refill s order block := fun d hd => hk ⟨d, hd⟩
    rw [or_iff_right (hnone i), and_iff_right hnone, Emits, Emits, sortedBlock_of_not_mem hnone]

/-! ### What is in the way -/

/-- A dependency that the order satisfies is in the way of a block: with just the members of the
block put back to source order it is late. -/
structure InTheWay (s : Scope) (block : Nat) (order : Order) (i j : Nat) : Prop where
  depends : s.DependsOn i j
  satisfied : ∀ k l, Emits order k i → Emits order l j → l ≤ k
  late : ∃ order' k l, PutBack s block order order' ∧ Emits order' k i ∧ Emits order' l j ∧ k < l

/-- A declaration is emitted at the same place in both orders. -/
def Stays (order order' : Order) (i : Nat) : Prop :=
  ∀ k, Emits order k i ↔ Emits order' k i

/-- A dependency is still in the way of a block where its ends and the members of the block are. -/
theorem InTheWay.of_stays (h : InTheWay s block order i j)
    (hblock : blockPlaces s block order' = blockPlaces s block order) (hi : Stays order order' i)
    (hj : Stays order order' j) : InTheWay s block order' i j where
  depends := h.depends
  satisfied k l hk hl := h.satisfied k l ((hi k).2 hk) ((hj l).2 hl)
  late := by
    obtain ⟨candidate, k, l, hput, hk, hl, hlt⟩ := h.late
    have hrefill : refill s order' block = refill s order block := by rw [refill, refill, hblock]
    have hsame : ∀ {m d}, Stays order order' d → Emits candidate m d →
        Emits (sortedBlock s order' block) m d := by
      intro m d hd hm
      rw [hput.eq_sortedBlock, emits_sortedBlock_iff] at hm
      rwa [emits_sortedBlock_iff, hrefill, ← hd]
    exact ⟨_, k, l, putBack_sortedBlock s block order', hsame hi hk, hsame hj hl, hlt⟩

/-- Nothing is in the way if no late edge is added. -/
theorem not_inTheWay_of_addsNoLate (hnodup : (emitted order).Nodup)
    (h : addsNoLate s.graph order (sortedBlock s order block) = true) :
    ¬InTheWay s block order i j := by
  rintro ⟨hdepends, hsatisfied, candidate, k', l', hput, hk', hl', hlt⟩
  rw [hput.eq_sortedBlock] at hk' hl'
  have hperm : (emitted (sortedBlock s order block)).Perm (emitted order) := sortedBlock_emitted
  obtain ⟨k, hk⟩ := mem_emitted.1 (hperm.subset (mem_emitted.2 ⟨k', hk'⟩))
  obtain ⟨l, hl⟩ := mem_emitted.1 (hperm.subset (mem_emitted.2 ⟨l', hl'⟩))
  have hi : i < Array.size s.graph := by
    rw [Scope.graph_size]
    exact hdepends.source_lt
  have hj : j < Array.size s.graph := by
    rw [Scope.graph_size]
    exact hdepends.target_lt
  have hlate := isLate_of_addsNoLate h (Scope.graph_edge_iff.2 hdepends)
    ((isLate_iff (hperm.nodup_iff.2 hnodup) hk' hl' hi hj).2 hlt)
  have := (isLate_iff hnodup hk hl hi hj).1 hlate
  have := hsatisfied k l hk hl
  omega

/-- If a late edge is added, a dependency is in the way. -/
theorem exists_inTheWay (honce : (emitted order).Perm (List.range s.decls.size))
    (h : addsNoLate s.graph order (sortedBlock s order block) ≠ true) :
    ∃ i j, InTheWay s block order i j := by
  have hnodup : (emitted order).Nodup := honce.nodup_iff.2 List.nodup_range
  have hperm : (emitted (sortedBlock s order block)).Perm (emitted order) := sortedBlock_emitted
  obtain ⟨i, j, hi, hij, hnew, hold⟩ : ∃ i j, i < Array.size s.graph ∧ s.graph.Edge i j ∧
      isLate (places (sortedBlock s order block) (Array.size s.graph)) i j = true ∧
      isLate (places order (Array.size s.graph)) i j = false := by
    by_contra hnone
    refine h ?_
    simp only [addsNoLate, List.all_eq_true, List.mem_range]
    intro i hi j hij
    by_contra hlate
    simp only [Bool.or_eq_true, Bool.not_eq_true', not_or, Bool.not_eq_false,
      Bool.not_eq_true] at hlate
    exact hnone ⟨i, j, hi, hij, hlate⟩
  have hdepends := Scope.graph_edge_iff.1 hij
  have hj : j < Array.size s.graph := by
    rw [Scope.graph_size]
    exact hdepends.target_lt
  have hplace : ∀ {o : Order} {d : Nat}, (emitted o).Perm (emitted order) →
      d < Array.size s.graph → ∃ k, Emits o k d := by
    intro o d ho hd
    refine mem_emitted.1 (ho.symm.subset (honce.symm.subset (List.mem_range.2 ?_)))
    rwa [← Scope.graph_size]
  obtain ⟨k', hk'⟩ := hplace hperm hi
  obtain ⟨l', hl'⟩ := hplace hperm hj
  refine ⟨i, j, hdepends, fun k l hk hl => ?_, _, k', l', putBack_sortedBlock s block order, hk',
    hl', (isLate_iff (hperm.nodup_iff.2 hnodup) hk' hl' hi hj).1 hnew⟩
  by_contra hlt
  rw [(isLate_iff hnodup hk hl hi hj).2 (Nat.lt_of_not_le hlt)] at hold
  cases hold

/-! ### One block after the other -/

/-- The order when the turn of a block has come. -/
def orderAt (s : Scope) (block : Nat) : Except SortError Order := do
  let order ← slotsOf s s.graph (Components.ofGraph s.graph)
  return (List.range block).foldl (restoreBlock s s.graph) order

/-- The order at the end is the one after all blocks. -/
theorem orderAt_blocks (s : Scope) : orderAt s s.blocks = ofScope s := rfl

/-- Other blocks leave the places of a block alone. -/
theorem blockPlaces_foldl (blocks : List Nat) (h : block ∉ blocks) (order : Order) :
    blockPlaces s block (blocks.foldl (restoreBlock s s.graph) order) =
      blockPlaces s block order := by
  induction blocks generalizing order with
  | nil => rfl
  | cons other rest ih =>
      obtain ⟨hne, hrest⟩ := not_or.1 (mt List.mem_cons.2 h)
      rw [List.foldl_cons, ih hrest, restoreBlock]
      split
      · rfl
      · split
        · exact blockPlaces_sortedBlock_of_ne hne
        · rfl

/-- What comes before the turn of a block, and what comes from it on. -/
theorem ofScope_eq_foldl (hblock : block < s.blocks) (h : ofScope s = .ok order)
    (hbefore : orderAt s block = .ok before) :
    (emitted before).Perm (List.range s.decls.size) ∧
      ∃ later : List Nat, block ∉ later ∧
        order = later.foldl (restoreBlock s s.graph) (restoreBlock s s.graph before block) := by
  obtain ⟨rest, hrest⟩ : ∃ rest, s.blocks = block + 1 + rest := Nat.exists_eq_add_of_le hblock
  obtain ⟨initial, hslots, honce, -⟩ := ofScope_rearranged h
  rw [← orderAt_blocks] at h
  simp only [orderAt, hslots, bind, Except.bind, pure, Except.pure, Except.ok.injEq] at h hbefore
  have hmoved : Rearranged s initial before := by
    rw [← hbefore]
    exact foldl_restoreBlock_rearranged (honce.nodup_iff.2 List.nodup_range) _
  refine ⟨hmoved.perm.trans honce, (List.range rest).map (block + 1 + ·), ?_, ?_⟩
  · intro hmem
    obtain ⟨k, -, hk⟩ := List.mem_map.1 hmem
    omega
  · rw [← h, hrest, List.range_add, List.foldl_append, List.range_succ, List.foldl_append, hbefore]
    rfl

/-- **When its turn has come, a block ends up in source order, or there is a dependency in the way
and everything stays where it is.** -/
theorem orderAt_settled (hblock : block < s.blocks) (h : ofScope s = .ok order)
    (hbefore : orderAt s block = .ok before) :
    InSourceOrder s block order ∨ blockPlaces s block order = blockPlaces s block before ∧
      ∃ i j, InTheWay s block before i j := by
  obtain ⟨honce, later, hlater, rfl⟩ := ofScope_eq_foldl hblock h hbefore
  rw [InSourceOrder, blockPlaces_foldl later hlater, restoreBlock]
  split
  · next hsame =>
    left
    rw [← hsame]
    exact inSourceOrder_sortedBlock
  · split
    · exact .inl inSourceOrder_sortedBlock
    · next hlate => exact .inr ⟨rfl, exists_inTheWay honce hlate⟩

/-- **In the final order a block is in source order, or a dependency is in the way**, if one of
those that were in the way when the turn of the block came keeps both of its ends. -/
theorem ofScope_reassembled (hblock : block < s.blocks) (h : ofScope s = .ok order)
    (hbefore : orderAt s block = .ok before)
    (hkept : (∃ i j, InTheWay s block before i j) →
      ∃ i j, InTheWay s block before i j ∧ Stays before order i ∧ Stays before order j) :
    InSourceOrder s block order ∨ ∃ i j, InTheWay s block order i j := by
  refine (orderAt_settled hblock h hbefore).imp_right fun ⟨hplaces, hway⟩ => ?_
  obtain ⟨i, j, hij, hi, hj⟩ := hkept hway
  exact ⟨i, j, hij.of_stays hplaces hi hj⟩

/-- A block of two constants, the first of which is computed from the second. -/
def heldBack : Scope where
  decls :=
    #[⟨.const, "p", .value (.mk ["p"] none [.node .none (.ident "q")] .none), .none, some 0, some 0,
        0⟩,
      ⟨.const, "q", .value (.mk ["q"] none [.node .none (.int 1)] .none), .none, some 1, some 0, 1⟩]
  generated := 0
  blocks := 1

/-- The constant that the other needs stays ahead of it. -/
theorem heldBack_reassembled :
    InSourceOrder heldBack 0 [.single 1, .single 0] ∨
      ∃ i j, InTheWay heldBack 0 [.single 1, .single 0] i j := by
  have hslots : slotsOf heldBack heldBack.graph (Components.ofGraph heldBack.graph) =
      .ok [.single 1, .single 0] := by cbv
  have hbefore : orderAt heldBack 0 = .ok [.single 1, .single 0] := by
    rw [orderAt, hslots]
    rfl
  have hblock : sortedBlock heldBack [.single 1, .single 0] 0 = [.single 0, .single 1] :=
    sortedBlock_pair (k := 0) (l := 1) (i := 0) (j := 1) rfl (by decide)
  have horder : ofScope heldBack = .ok [.single 1, .single 0] := by
    rw [ofScope, hslots]
    refine congrArg Except.ok (?_ : restoreBlock heldBack heldBack.graph _ 0 = _)
    rw [restoreBlock, hblock]
    decide +kernel
  refine ofScope_reassembled (by decide) horder hbefore ?_
  rintro ⟨i, j, hij⟩
  exact ⟨i, j, hij, fun _ => .rfl, fun _ => .rfl⟩

/-- A mention of a name. -/
def mention (name : Name) : Expr := .node .none (.ident name)

/-- A constant on a line of its own. -/
def lineOf (name : Name) (value : Expr) : ValueSpec := .mk [name] none [value] .none

/-- A type whose length is computed from four constants. -/
def sumLength : TypeSpec :=
  let plus (e f : Expr) : Expr := .node .none (.binary .add e f)
  let length : Expr := plus (plus (plus (mention "y") (mention "z")) (mention "x")) (mention "a")
  ⟨"T", .node .none (.array length (.node .none (.named "int"))), false, .none⟩

/-- Value of a constant that is computed from the type and from another constant. -/
def sumValue : Expr := .node .none (.binary .add (mention "T") (mention "x"))

/-- The type, and the four constants in two blocks.  The first block, of `a` and `z`, is tried while
`x` stands between its members.  Then the second one, of `x` and `y`, is put back, and `x` comes
first. -/
def untriedItems : List Item :=
  [.type sumLength, .const [lineOf "a" sumValue, lineOf "z" (mention "T")],
    .const [lineOf "x" (mention "T"), lineOf "y" (mention "T")]]

/-- The scope of these items. -/
def untried : Scope where
  decls :=
    let const (name : Name) (value : Expr) (iota block seq : Nat) : Decl :=
      ⟨.const, name, .value (lineOf name value), .none, some iota, some block, seq⟩
    #[⟨.type, "T", .type sumLength, .none, none, none, 0⟩, const "a" sumValue 0 0 1,
      const "z" (mention "T") 1 0 2, const "x" (mention "T") 0 1 3, const "y" (mention "T") 1 1 4]
  generated := 0
  blocks := 2

/-- The items are loaded. -/
theorem ofItems_untried : Scope.ofItems untriedItems = .ok untried := rfl

/-- The order of the scope. -/
theorem ofScope_untried : ofScope untried =
    .ok [.forward 0, .single 3, .single 2, .single 4, .single 1, .single 0] := by
  have hslots : slotsOf untried untried.graph (Components.ofGraph untried.graph) =
      .ok [.forward 0, .single 4, .single 2, .single 3, .single 1, .single 0] := by cbv
  have hfirst : restoreBlock untried untried.graph
      [.forward 0, .single 4, .single 2, .single 3, .single 1, .single 0] 0 =
      [.forward 0, .single 4, .single 2, .single 3, .single 1, .single 0] := by
    have hblock : sortedBlock untried
        [.forward 0, .single 4, .single 2, .single 3, .single 1, .single 0] 0 =
        [.forward 0, .single 4, .single 1, .single 3, .single 2, .single 0] :=
      sortedBlock_pair (k := 2) (l := 4) (i := 1) (j := 2) rfl (by decide)
    rw [restoreBlock, hblock]
    decide +kernel
  have hsecond : restoreBlock untried untried.graph
      [.forward 0, .single 4, .single 2, .single 3, .single 1, .single 0] 1 =
      [.forward 0, .single 3, .single 2, .single 4, .single 1, .single 0] := by
    have hblock : sortedBlock untried
        [.forward 0, .single 4, .single 2, .single 3, .single 1, .single 0] 1 =
        [.forward 0, .single 3, .single 2, .single 4, .single 1, .single 0] :=
      sortedBlock_pair (k := 1) (l := 3) (i := 3) (j := 4) rfl (by decide)
    rw [restoreBlock, hblock]
    decide +kernel
  rw [ofScope, hslots]
  refine congrArg Except.ok
    (?_ : restoreBlock untried untried.graph (restoreBlock untried untried.graph _ 0) 1 = _)
  rw [hfirst, hsecond]

/-- A block can be left out of source order with nothing in its way. -/
theorem block_left_untried :
    ∃ s order, Scope.ofItems untriedItems = .ok s ∧ ofScope s = .ok order ∧
      ¬InSourceOrder s 0 order ∧ ¬∃ i j, InTheWay s 0 order i j := by
  have hplaces : blockPlaces untried 0
    [.forward 0, .single 3, .single 2, .single 4, .single 1, .single 0] = [(2, 2), (4, 1)] := rfl
  have hblock : sortedBlock untried
      [.forward 0, .single 3, .single 2, .single 4, .single 1, .single 0] 0 =
      [.forward 0, .single 3, .single 1, .single 4, .single 2, .single 0] :=
    sortedBlock_pair hplaces (by decide)
  refine ⟨_, _, ofItems_untried, ofScope_untried, ?_, ?_⟩
  · rw [InSourceOrder, hplaces]
    decide
  · rintro ⟨i, j, hij⟩
    refine not_inTheWay_of_addsNoLate (by decide) ?_ hij
    rw [hblock]
    decide +kernel

end Order

end ScriptCore
