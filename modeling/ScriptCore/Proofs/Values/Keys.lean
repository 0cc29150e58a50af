import ScriptCore.Values.Heap

/-!
# The order of keys and the entries of maps

Keys are linearly ordered: by what they are, and keys of one form by what they hold, field by field
for structs.  Two keys are the same in the order only if they are equal.

The entries of a map are sorted by key, and no operation changes that.  So a key has at most one
entry, which is found; storing a value under a key changes what is found under that key only, and
storing what is found changes nothing.

Main statements: `MapKey.order_eq_iff` and `MapKey.order_lt_trans`, `Entries.find?_insert` and
`Entries.insert_found`.
-/

namespace ScriptCore

namespace MapKey

/-! ### The order of keys -/

/-- Keys of different forms are ordered by their forms. -/
theorem order_of_rank_ne {a b : MapKey} (h : a.rank ≠ b.rank) :
    a.order b = compare a.rank b.rank := by
  cases a <;> cases b <;> first | rfl | exact absurd rfl h

/-- A key that is not after another one has a form that is not after the other's. -/
theorem rank_le_of_order_lt {a b : MapKey} (h : a.order b = .lt) : a.rank ≤ b.rank := by
  by_cases hrank : a.rank = b.rank
  · exact Nat.le_of_eq hrank
  · rw [order_of_rank_ne hrank] at h
    exact Nat.le_of_lt (Nat.compare_eq_lt.1 h)

mutual

/-- **Keys that are the same in the order are equal.** -/
theorem order_eq_iff (a b : MapKey) : a.order b = .eq ↔ a = b := by
  by_cases hrank : a.rank = b.rank
  case neg =>
    rw [order_of_rank_ne hrank, Nat.compare_eq_eq]
    exact iff_of_false hrank fun heq => hrank (by rw [heq])
  case pos =>
    cases a <;> cases b <;> try (cases hrank; done)
    case nil.nil => simp [order]
    case complex.complex => simp [order, Ordering.then_eq_eq]
    case struct.struct as bs =>
      rw [order, orderList_eq_iff as bs, struct.injEq]
    all_goals simp [order]

/-- Lists of keys that are the same in the order are equal. -/
theorem orderList_eq_iff (as bs : List MapKey) : orderList as bs = .eq ↔ as = bs := by
  cases as with
  | nil => cases bs <;> simp [orderList]
  | cons a as =>
      cases bs with
      | nil => simp [orderList]
      | cons b bs =>
          rw [orderList, Ordering.then_eq_eq, order_eq_iff a b, orderList_eq_iff as bs,
            List.cons.injEq]

end

mutual

/-- The order of keys is symmetric. -/
theorem order_swap (a b : MapKey) : a.order b = (b.order a).swap := by
  by_cases hrank : a.rank = b.rank
  case neg =>
    rw [order_of_rank_ne hrank, order_of_rank_ne (Ne.symm hrank)]
    exact Std.OrientedCmp.eq_swap
  case pos =>
    cases a <;> cases b <;> try (cases hrank; done)
    case nil.nil => rfl
    case complex.complex re im re' im' =>
      rw [order, order, Ordering.swap_then, ← Std.OrientedCmp.eq_swap, ← Std.OrientedCmp.eq_swap]
    case struct.struct as bs =>
      rw [order, order]
      exact orderList_swap as bs
    all_goals
      rw [order, order]
      exact Std.OrientedCmp.eq_swap

/-- So is that of lists of keys. -/
theorem orderList_swap (as bs : List MapKey) : orderList as bs = (orderList bs as).swap := by
  cases as with
  | nil => cases bs <;> rfl
  | cons a as =>
      cases bs with
      | nil => rfl
      | cons b bs =>
          rw [orderList, orderList, Ordering.swap_then, ← order_swap a b, ← orderList_swap as bs]

end

/-- A lexicographic order is transitive if its parts are. -/
theorem then_lt_trans {α β : Type} {f : α → α → Ordering} {g : β → β → Ordering} {a b c : α}
    {x y z : β} (heq : ∀ a b, f a b = .eq ↔ a = b)
    (hf : f a b = .lt → f b c = .lt → f a c = .lt) (hg : g x y = .lt → g y z = .lt → g x z = .lt)
    (h : (f a b).then (g x y) = .lt) (h' : (f b c).then (g y z) = .lt) :
    (f a c).then (g x z) = .lt := by
  rw [Ordering.then_eq_lt] at h h' ⊢
  rcases h with h | ⟨hab, h⟩ <;> rcases h' with h' | ⟨hbc, h'⟩
  · exact .inl (hf h h')
  · obtain rfl := (heq b c).1 hbc
    exact .inl h
  · obtain rfl := (heq a b).1 hab
    exact .inl h'
  · obtain rfl := (heq a b).1 hab
    exact .inr ⟨hbc, hg h h'⟩

mutual

/-- **The order of keys is transitive.** -/
theorem order_lt_trans (a b c : MapKey) (h : a.order b = .lt) (h' : b.order c = .lt) :
    a.order c = .lt := by
  have hle := rank_le_of_order_lt h
  have hle' := rank_le_of_order_lt h'
  by_cases hrank : a.rank = c.rank
  case neg =>
    rw [order_of_rank_ne hrank, Nat.compare_eq_lt]
    exact Nat.lt_of_le_of_ne (Nat.le_trans hle hle') hrank
  case pos =>
    have hrank' : a.rank = b.rank := Nat.le_antisymm hle (hrank ▸ hle')
    cases a <;> cases b <;> try (cases hrank'; done)
    all_goals cases c <;> try (cases hrank; done)
    case nil.nil.nil => cases h
    case complex.complex.complex =>
      rw [order] at h h' ⊢
      exact then_lt_trans (fun _ _ => Std.LawfulEqCmp.compare_eq_iff_eq) Std.TransCmp.lt_trans
        Std.TransCmp.lt_trans h h'
    case struct.struct.struct as bs cs =>
      rw [order] at h h' ⊢
      exact orderList_lt_trans as bs cs h h'
    all_goals
      rw [order] at h h' ⊢
      exact Std.TransCmp.lt_trans h h'

/-- So is that of lists of keys. -/
theorem orderList_lt_trans (as bs cs : List MapKey) (h : orderList as bs = .lt)
    (h' : orderList bs cs = .lt) : orderList as cs = .lt := by
  cases bs with
  | nil => cases as <;> cases h
  | cons b bs =>
      cases cs with
      | nil => cases h'
      | cons c cs =>
          cases as with
          | nil => rfl
          | cons a as =>
              rw [orderList] at h h' ⊢
              exact then_lt_trans order_eq_iff (order_lt_trans a b c) (orderList_lt_trans as bs cs)
                h h'

end

/-- A key is not before itself. -/
theorem order_self (a : MapKey) : a.order a = .eq :=
  (order_eq_iff a a).2 rfl

/-- One of two keys is after the other when that is before it. -/
theorem order_gt_iff {a b : MapKey} : a.order b = .gt ↔ b.order a = .lt := by
  rw [order_swap a b, Ordering.swap_eq_gt]

end MapKey

/-! ### Entries of maps -/

namespace Entries

variable {es : Entries} {k k' : MapKey} {v w : Value}

/-- The entries are in the order of their keys. -/
def Sorted (es : Entries) : Prop :=
  es.Pairwise fun e e' => e.1.order e'.1 = .lt

/-- What was stored under a key is found under it. -/
theorem find?_insert_self (es : Entries) (k : MapKey) (v : Value) :
    (es.insert k v).find? k = some v := by
  induction es with
  | nil => simp [insert, find?, MapKey.order_self]
  | cons e es ih =>
      obtain ⟨k₁, v₁⟩ := e
      cases h : k.order k₁ with
      | lt => simp [insert, h, find?, MapKey.order_self]
      | eq =>
          obtain rfl := (MapKey.order_eq_iff k k₁).1 h
          simp [insert, h, find?]
      | gt =>
          have hne : k₁.order k ≠ .eq := by
            rw [MapKey.order_gt_iff.1 h]
            decide
          simp [insert, h, find?, hne, ih]

/-- What is found under other keys stays. -/
theorem find?_insert_ne (es : Entries) (v : Value) (h : k' ≠ k) :
    (es.insert k v).find? k' = es.find? k' := by
  have hother : k.order k' ≠ .eq := fun heq => h ((MapKey.order_eq_iff k k').1 heq).symm
  induction es with
  | nil => simp [insert, find?, hother]
  | cons e es ih =>
      obtain ⟨k₁, v₁⟩ := e
      cases hk : k.order k₁ with
      | lt => simp [insert, hk, find?, hother]
      | eq =>
          obtain rfl := (MapKey.order_eq_iff k k₁).1 hk
          simp [insert, hk, find?, hother]
      | gt =>
          rw [insert, hk]
          simp only [find?, ih]

/-- What is found is an entry. -/
theorem mem_of_find? (h : es.find? k = some v) : (k, v) ∈ es := by
  induction es with
  | nil => cases h
  | cons e es ih =>
      obtain ⟨k₁, v₁⟩ := e
      rw [find?] at h
      split at h
      · rename_i heq
        obtain rfl := (MapKey.order_eq_iff k₁ k).1 heq
        cases h
        exact List.mem_cons_self
      · exact List.mem_cons_of_mem _ (ih h)

/-- Entries are those that were there and the one that is stored. -/
theorem mem_insert {e : MapKey × Value} (h : e ∈ es.insert k v) : e = (k, v) ∨ e ∈ es := by
  induction es with
  | nil => exact .inl (List.mem_singleton.1 h)
  | cons e₁ es ih =>
      obtain ⟨k₁, v₁⟩ := e₁
      cases hk : k.order k₁ with
      | lt =>
          rw [insert, hk] at h
          exact List.mem_cons.1 h
      | eq =>
          obtain rfl := (MapKey.order_eq_iff k k₁).1 hk
          rw [insert, hk] at h
          exact (List.mem_cons.1 h).imp_right (List.mem_cons_of_mem _)
      | gt =>
          rw [insert, hk] at h
          rcases List.mem_cons.1 h with rfl | h
          · exact .inr List.mem_cons_self
          · exact (ih h).imp_right (List.mem_cons_of_mem _)

/-- Storing a value keeps the order. -/
theorem Sorted.insert (h : es.Sorted) (k : MapKey) (v : Value) : (es.insert k v).Sorted := by
  induction es with
  | nil => exact List.pairwise_singleton _ _
  | cons e es ih =>
      obtain ⟨k₁, v₁⟩ := e
      obtain ⟨hhead, hrest⟩ := List.pairwise_cons.1 h
      cases hk : k.order k₁ with
      | lt =>
          rw [Entries.insert, hk]
          refine List.pairwise_cons.2 ⟨fun e he => ?_, h⟩
          rcases List.mem_cons.1 he with rfl | he
          · exact hk
          · exact MapKey.order_lt_trans k k₁ e.1 hk (hhead e he)
      | eq =>
          rw [Entries.insert, hk]
          exact List.pairwise_cons.2 ⟨hhead, hrest⟩
      | gt =>
          rw [Entries.insert, hk]
          refine List.pairwise_cons.2 ⟨fun e he => ?_, ih hrest⟩
          rcases mem_insert he with rfl | he
          · exact MapKey.order_gt_iff.1 hk
          · exact hhead e he

/-- What is left after a removal was there. -/
theorem erase_sublist (es : Entries) (k : MapKey) : (es.erase k).Sublist es := by
  induction es with
  | nil => exact List.Sublist.slnil
  | cons e es ih =>
      obtain ⟨k₁, v₁⟩ := e
      rw [erase]
      split
      · exact List.sublist_cons_self _ _
      · exact ih.cons_cons _

/-- A removal keeps the order. -/
theorem Sorted.erase (h : es.Sorted) (k : MapKey) : (es.erase k).Sorted :=
  List.Pairwise.sublist (es.erase_sublist k) h

/-- **Storing what is found under a key changes nothing.** -/
theorem insert_found (hsorted : es.Sorted) (h : es.find? k = some v) : es.insert k v = es := by
  induction es with
  | nil => cases h
  | cons e es ih =>
      obtain ⟨k₁, v₁⟩ := e
      obtain ⟨hhead, hrest⟩ := List.pairwise_cons.1 hsorted
      rw [find?] at h
      split at h
      · rename_i heq
        obtain rfl := (MapKey.order_eq_iff k₁ k).1 heq
        cases h
        rw [Entries.insert, MapKey.order_self]
      · -- the entry comes later, so its key is after this one
        have hafter : k.order k₁ = .gt :=
          MapKey.order_gt_iff.2 (hhead (k, v) (mem_of_find? h))
        rw [Entries.insert, hafter]
        simp only [ih hrest h]

/-- A key that is before all others is not found. -/
theorem find?_eq_none_of_before (h : ∀ e ∈ es, k.order e.1 = .lt) : es.find? k = none := by
  refine Option.eq_none_iff_forall_ne_some.2 fun v hfind => ?_
  have hself := h (k, v) (mem_of_find? hfind)
  rw [MapKey.order_self] at hself
  cases hself

/-- A removed key is not found. -/
theorem find?_erase_self (hsorted : es.Sorted) (k : MapKey) : (es.erase k).find? k = none := by
  induction es with
  | nil => rfl
  | cons e es ih =>
      obtain ⟨k₁, v₁⟩ := e
      obtain ⟨hhead, hrest⟩ := List.pairwise_cons.1 hsorted
      rw [Entries.erase]
      split
      · rename_i heq
        obtain rfl := (MapKey.order_eq_iff k₁ k).1 heq
        exact find?_eq_none_of_before hhead
      · rename_i hne
        rw [find?, if_neg hne, ih hrest]

/-- What is found under other keys than the removed one stays. -/
theorem find?_erase_ne (es : Entries) (h : k' ≠ k) : (es.erase k).find? k' = es.find? k' := by
  induction es with
  | nil => rfl
  | cons e es ih =>
      obtain ⟨k₁, v₁⟩ := e
      rw [Entries.erase]
      split
      · rename_i heq
        obtain rfl := (MapKey.order_eq_iff k₁ k).1 heq
        rw [find?, if_neg fun heq' => h ((MapKey.order_eq_iff k₁ k').1 heq').symm]
      · rw [find?, find?, ih]

/-- Something is found under the keys of entries only. -/
theorem isSome_find?_iff : (es.find? k).isSome = true ↔ ∃ e ∈ es, e.1 = k := by
  induction es with
  | nil => simp [find?]
  | cons e es ih =>
      obtain ⟨k₁, v₁⟩ := e
      rw [find?]
      split
      · rename_i heq
        simp [(MapKey.order_eq_iff k₁ k).1 heq]
      · rename_i hne
        have hne' : k₁ ≠ k := fun heq => hne ((MapKey.order_eq_iff k₁ k).2 heq)
        simp [ih, hne']

end Entries

/-! ### Maps of the heap -/

namespace Heap

variable {h h' : Heap} {ref ref' : Nat} {k : MapKey}

/-- A stored value is among the entries of its map. -/
theorem entries_insertKey_self (href : ref < h.maps.size) (k : MapKey) (v : Value) :
    (h.insertKey ref k v).entries ref = (h.entries ref).insert k v := by
  rw [entries, entries, insertKey, Array.getElem?_modify, if_pos rfl,
    Array.getElem?_eq_getElem href]
  rfl

/-- Other maps have the entries that they had. -/
theorem entries_insertKey_ne (hne : ref' ≠ ref) (k : MapKey) (v : Value) :
    (h.insertKey ref k v).entries ref' = h.entries ref' := by
  simp [entries, insertKey, Array.getElem?_modify, Ne.symm hne]

/-- A removed key is removed from the entries of its map. -/
theorem entries_eraseKey_self (href : ref < h.maps.size) (k : MapKey) :
    (h.eraseKey ref k).entries ref = (h.entries ref).erase k := by
  rw [entries, entries, eraseKey, Array.getElem?_modify, if_pos rfl,
    Array.getElem?_eq_getElem href]
  rfl

/-- A change to one map keeps what holds of the entries of each. -/
theorem entries_modify {P : Entries → Prop} (hh : ∀ ref, P (h.entries ref)) (hnil : P [])
    (ref : Nat) {f : Entries → Entries} (hf : ∀ es, P es → P (f es)) (ref' : Nat) :
    P (({ h with maps := h.maps.modify ref f } : Heap).entries ref') := by
  have hes := hh ref'
  simp only [entries, Array.getElem?_modify] at hes ⊢
  split
  · cases hmap : h.maps[ref']? with
    | none => exact hnil
    | some es =>
        rw [hmap] at hes
        exact hf es hes
  · exact hes

/-- The entries of all maps are in the order of their keys. -/
def Sorted (h : Heap) : Prop :=
  ∀ ref, (h.entries ref).Sorted

/-- An empty heap has no maps. -/
theorem sorted_empty : empty.Sorted := by
  intro ref
  simp [entries, empty, Entries.Sorted]

namespace Sorted

/-- What happens to arrays does not matter. -/
theorem of_maps (hh : h.Sorted) (hmaps : h'.maps = h.maps) : h'.Sorted := by
  intro ref
  rw [entries, hmaps]
  exact hh ref

/-- A new map has no entries. -/
theorem newMap (hh : h.Sorted) : h.newMap.2.Sorted := by
  intro ref
  simp only [Heap.newMap, entries, Array.getElem?_push]
  split
  · exact List.Pairwise.nil
  · exact hh ref

/-- A map that is changed in a way that keeps the order. -/
theorem modify (hh : h.Sorted) (ref : Nat) {f : Entries → Entries}
    (hf : ∀ es : Entries, es.Sorted → (f es).Sorted) :
    ({ h with maps := h.maps.modify ref f } : Heap).Sorted :=
  entries_modify hh List.Pairwise.nil ref hf

/-- A stored value. -/
theorem insertKey (hh : h.Sorted) (ref : Nat) (k : MapKey) (v : Value) :
    (h.insertKey ref k v).Sorted :=
  hh.modify ref fun _ hes => hes.insert k v

/-- A removal. -/
theorem eraseKey (hh : h.Sorted) (ref : Nat) (k : MapKey) : (h.eraseKey ref k).Sorted :=
  hh.modify ref fun _ hes => hes.erase k

end Sorted

end Heap

end ScriptCore
