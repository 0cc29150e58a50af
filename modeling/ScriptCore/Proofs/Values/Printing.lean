import Mathlib
import ScriptCore.Proofs.Values.Maps
import ScriptCore.Values.Operators
import ScriptCore.Values.Text

/-!
# Text of maps

A map prints its entries in the order of its keys.  That order does not depend on how the map was
built, so maps with the same entries print alike.

The order of keys is the one of the language, except for floating point numbers: these are ordered
by the bits under which they are filed, so the negative ones come after all others, and from the
greatest to the least.

Main statements: `MapKey.compareValues_of_order` and `Heap.Made.prints_sorted`.
-/

namespace ScriptCore

/-- Values of a category that are ordered by `<`. -/
def Value.IsOrdered : Category → Value → Prop
  | .int, .int _ | .uint, .uint _ | .string, .str _ => True
  | .float, .float x => x.isNaN = false
  | _, _ => False

/-- The value is a floating point number below zero. -/
def Value.isNegative : Value → Bool
  | .float x => x < 0.0
  | _ => false

/-- Values that are ordered hold no NaN. -/
theorem Value.IsOrdered.holdsNaN {c : Category} {v : Value} (h : v.IsOrdered c) :
    v.holdsNaN = false := by
  cases v <;> cases c <;> first | rfl | exact h | cases h

namespace MapKey

open Binary64

/-! ### The order of keys and that of values -/

section Floats

variable {x y : Float}

/-- A double is read back with the bits under which it was filed. -/
theorem toBits_ofBits_floatBits : (Float.ofBits (floatBits x)).toBits = floatBits x := by
  cases hx : x == 0.0
  case true =>
    rw [floatBits_eq_zero_iff.2 hx]
    decide
  case false => rw [floatBits_of_ne_zero hx, Float.ofBits_toBits]

/-- What is read back is a NaN only if that was filed. -/
theorem isNaN_ofBits_floatBits (hx : x.isNaN = false) :
    (Float.ofBits (floatBits x)).isNaN = false :=
  (isNaN_eq_of_floatBits floatBits_ofBits).trans hx

/-- What is read back is below zero if the sign bit is set, for the negative zero is not filed. -/
theorem filed_neg_iff (hx : x.isNaN = false) :
    Float.ofBits (floatBits x) < 0.0 ↔ signBit ≤ (floatBits x).toNat := by
  have hlt := (floatBits x).toNat_lt
  have hzero (h : place (Float.ofBits (floatBits x)) = 0) : (floatBits x).toNat = 0 := by
    rw [← floatBits_ofBits, floatBits_eq_zero_iff.2
      (beq_zero_iff.2 ⟨isNaN_ofBits_floatBits hx, h⟩)]
    rfl
  rw [lt_iff (isNaN_ofBits_floatBits hx) (by decide), show place 0.0 = 0 from rfl]
  rw [place, toBits_ofBits_floatBits] at hzero ⊢
  split at hzero <;> split <;> simp only [signBit] at * <;> omega

/-- Two doubles read back in the order of their bits are in that order unless the later one is below
zero. -/
theorem filed_lt_iff (hx : x.isNaN = false) (hy : y.isNaN = false)
    (h : (floatBits x).toNat < (floatBits y).toNat) :
    Float.ofBits (floatBits x) < Float.ofBits (floatBits y) ↔
      ¬ Float.ofBits (floatBits y) < 0.0 := by
  have hlt := (floatBits y).toNat_lt
  rw [filed_neg_iff hy, lt_iff (isNaN_ofBits_floatBits hx) (isNaN_ofBits_floatBits hy), place,
    place, toBits_ofBits_floatBits, toBits_ofBits_floatBits]
  split <;> split <;> simp only [signBit] at * <;> omega

/-- `<` holds of doubles if the one is less. -/
theorem holds_floatOrder (x y : Float) : BinaryOp.lt.holds (floatOrder x y) = decide (x < y) := by
  rw [floatOrder]
  split
  · rename_i h
    exact (decide_eq_true h).symm
  · rename_i h
    rw [decide_eq_false h]
    split
    · rfl
    · split <;> rfl

end Floats

variable {c : Category} {k k' : MapKey}

/-- The keys of two values of an ordered category, by what they hold. -/
theorem isOrdered_cases (hk : ofValue k.toValue = .ok k) (hc : k.toValue.IsOrdered c) :
    (∃ i, c = .int ∧ k = .int i) ∨ (∃ u, c = .uint ∧ k = .uint u) ∨
      (∃ s, c = .string ∧ k = .str s) ∨
      ∃ x : Float, c = .float ∧ k = .float (floatBits x) ∧ x.isNaN = false := by
  cases k <;> cases c <;> try (cases hc; done)
  case int.int i => exact .inl ⟨i, rfl, rfl⟩
  case uint.uint u => exact .inr (.inl ⟨u, rfl, rfl⟩)
  case str.string s => exact .inr (.inr (.inl ⟨s, rfl, rfl⟩))
  case float.float bits =>
    refine .inr (.inr (.inr ⟨Float.ofBits bits, rfl, ?_, hc⟩))
    exact (Except.ok.inj hk).symm

/-- Floating point keys in their order have their bits in it. -/
theorem toNat_lt_of_order {x y : UInt64} (h : order (.float x) (.float y) = .lt) :
    x.toNat < y.toNat := by
  rw [order, Std.compare_eq_lt] at h
  exact UInt64.lt_iff_toNat_lt.1 h

/-- **Two values read back in the order of their keys are in the language's order, unless the later
one is below zero.** -/
theorem compareValues_of_order (hk : ofValue k.toValue = .ok k) (hk' : ofValue k'.toValue = .ok k')
    (hc : k.toValue.IsOrdered c) (hc' : k'.toValue.IsOrdered c) (h : k.order k' = .lt) :
    compareValues .lt k.toValue k'.toValue = .ok (!k'.toValue.isNegative) := by
  rcases isOrdered_cases hk hc with
    ⟨i, rfl, rfl⟩ | ⟨u, rfl, rfl⟩ | ⟨s, rfl, rfl⟩ | ⟨x, rfl, rfl, hx⟩ <;>
    rcases isOrdered_cases hk' hc' with
      ⟨i', hcat, rfl⟩ | ⟨u', hcat, rfl⟩ | ⟨s', hcat, rfl⟩ | ⟨y, hcat, rfl, hy⟩ <;>
    try (cases hcat; done)
  case inr.inr.inr.inr.inr.inr =>
    have hlt := filed_lt_iff hx hy (toNat_lt_of_order h)
    simp only [toValue, compareValues, holds_floatOrder, Value.isNegative, hlt, decide_not]
  all_goals
    rw [order] at h
    simp [toValue, compareValues, h, BinaryOp.holds, Value.isNegative]

/-- Of two values read back in the order of their keys, the later one is below zero if the earlier
one is. -/
theorem isNegative_of_order (hk : ofValue k.toValue = .ok k) (hk' : ofValue k'.toValue = .ok k')
    (hc : k.toValue.IsOrdered c) (hc' : k'.toValue.IsOrdered c) (h : k.order k' = .lt)
    (hneg : k.toValue.isNegative = true) : k'.toValue.isNegative = true := by
  rcases isOrdered_cases hk hc with
    ⟨i, rfl, rfl⟩ | ⟨u, rfl, rfl⟩ | ⟨s, rfl, rfl⟩ | ⟨x, rfl, rfl, hx⟩
  case inr.inr.inr =>
    rcases isOrdered_cases hk' hc' with
      ⟨i', hcat, rfl⟩ | ⟨u', hcat, rfl⟩ | ⟨s', hcat, rfl⟩ | ⟨y, hcat, rfl, hy⟩ <;>
      try (cases hcat; done)
    rw [toValue, Value.isNegative, decide_eq_true_iff, filed_neg_iff hx] at hneg
    rw [toValue, Value.isNegative, decide_eq_true_iff, filed_neg_iff hy]
    exact hneg.trans (Nat.le_of_lt (toNat_lt_of_order h))
  all_goals cases hneg

end MapKey

/-! ### Entries that were stored under values -/

namespace Entries

variable {es es' : Entries} {k k' : MapKey} {v : Value}

/-- The entries are in the order of their keys, and these are keys of values. -/
structure IsFiled (es : Entries) : Prop where
  sorted : es.Sorted
  keyed : ∀ e ∈ es, ∃ v, MapKey.ofValue v = .ok e.1

namespace IsFiled

/-- A stored value. -/
theorem insert (hes : es.IsFiled) {key : Value} (hk : MapKey.ofValue key = .ok k) (v : Value) :
    (es.insert k v).IsFiled := by
  refine ⟨hes.sorted.insert k v, fun e he => ?_⟩
  rcases mem_insert he with rfl | he
  · exact ⟨key, hk⟩
  · exact hes.keyed e he

/-- A removal. -/
theorem erase (hes : es.IsFiled) (k : MapKey) : (es.erase k).IsFiled :=
  ⟨hes.sorted.erase k, fun e he => hes.keyed e ((es.erase_sublist k).subset he)⟩

/-- The value read back from a key has that key. -/
theorem ofValue_toValue (hes : es.IsFiled) {e : MapKey × Value} (he : e ∈ es) :
    MapKey.ofValue e.1.toValue = .ok e.1 := by
  obtain ⟨v, hv⟩ := hes.keyed e he
  exact (MapKey.ofValue_toValue hv).1

end IsFiled

/-- A key that is before the first one is not found. -/
theorem find?_cons_eq_none (hes : Sorted ((k', v) :: es)) (h : k.order k' = .lt) :
    find? ((k', v) :: es) k = none := by
  refine find?_eq_none_of_before fun e he => ?_
  rcases List.mem_cons.1 he with rfl | he
  · exact h
  · exact MapKey.order_lt_trans k k' e.1 h ((List.pairwise_cons.1 hes).1 e he)

/-- The first entry is found. -/
theorem find?_cons_self (k : MapKey) (v : Value) (es : Entries) :
    find? ((k, v) :: es) k = some v := by
  rw [find?, if_pos (MapKey.order_self k)]

/-- Entries are found. -/
theorem find?_of_mem (hes : es.Sorted) (h : (k, v) ∈ es) : es.find? k = some v := by
  induction es with
  | nil => cases h
  | cons e es ih =>
      obtain ⟨k₁, v₁⟩ := e
      obtain ⟨hhead, hrest⟩ := List.pairwise_cons.1 hes
      rcases List.mem_cons.1 h with heq | h
      · cases heq
        exact find?_cons_self k v es
      · have hbefore : k₁.order k = .lt := hhead (k, v) h
        rw [find?, if_neg (by rw [hbefore]; decide), ih hrest h]

/-- **Entries that look the same under every key look the same one after the other.** -/
theorem map_eq_of_find? {α : Type} {f f' : Value → α} (hes : es.Sorted) (hes' : es'.Sorted)
    (h : ∀ k, (es.find? k).map f = (es'.find? k).map f') :
    es.map (fun e => (e.1, f e.2)) = es'.map fun e => (e.1, f' e.2) := by
  induction es generalizing es' with
  | nil =>
      cases es' with
      | nil => rfl
      | cons e' es' =>
          have hfirst := h e'.1
          rw [find?_cons_self] at hfirst
          cases hfirst
  | cons e es ih =>
      obtain ⟨k, v⟩ := e
      have hfirst := h k
      rw [find?_cons_self] at hfirst
      cases es' with
      | nil => cases hfirst
      | cons e' es' =>
          obtain ⟨k', v'⟩ := e'
          -- the first keys are the same, for the lesser one would not be among the others
          cases hord : k.order k' with
          | lt =>
              rw [find?_cons_eq_none hes' hord] at hfirst
              cases hfirst
          | gt =>
              have hfirst' := h k'
              rw [find?_cons_self, find?_cons_eq_none hes (MapKey.order_gt_iff.1 hord)] at hfirst'
              cases hfirst'
          | eq =>
              obtain rfl := (MapKey.order_eq_iff k k').1 hord
              rw [find?_cons_self] at hfirst
              obtain ⟨hhead, hrest⟩ := List.pairwise_cons.1 hes
              obtain ⟨hhead', hrest'⟩ := List.pairwise_cons.1 hes'
              have hothers : ∀ k₁, (find? es k₁).map f = (find? es' k₁).map f' := by
                intro k₁
                by_cases hk : k.order k₁ = .eq
                · obtain rfl := (MapKey.order_eq_iff k k₁).1 hk
                  rw [find?_eq_none_of_before hhead, find?_eq_none_of_before hhead']
                  rfl
                · have hrec := h k₁
                  rwa [find?, find?, if_neg hk, if_neg hk] at hrec
              rw [List.map_cons, List.map_cons, ih hrest hrest' hothers, Option.some.inj hfirst]

/-! ### The order of the listing -/

/-- Entries are in the language's order unless one of several has a key below zero. -/
theorem ascending_iff {c : Category} (hes : es.IsFiled)
    (hc : ∀ e ∈ es, e.1.toValue.IsOrdered c) :
    es.Pairwise (fun e e' => compareValues .lt e.1.toValue e'.1.toValue = .ok true) ↔
      es.length ≤ 1 ∨ ∀ e ∈ es, e.1.toValue.isNegative = false := by
  have hkey {e : MapKey × Value} (he : e ∈ es) := hes.ofValue_toValue he
  have hlt {e e' : MapKey × Value} (he : e ∈ es) (he' : e' ∈ es) (h : e.1.order e'.1 = .lt) :
      compareValues .lt e.1.toValue e'.1.toValue = .ok true ↔ e'.1.toValue.isNegative = false := by
    rw [MapKey.compareValues_of_order (hkey he) (hkey he') (hc e he) (hc e' he') h]
    simp
  constructor
  · intro hasc
    match es, hes.sorted, hasc with
    | [], _, _ => exact .inl (Nat.zero_le 1)
    | [e], _, _ => exact .inl (Nat.le_refl 1)
    | e₁ :: e₂ :: rest, hsorted, hasc =>
        obtain ⟨hfirst, -⟩ := List.pairwise_cons.1 hsorted
        have hothers : ∀ e ∈ e₂ :: rest, e.1.toValue.isNegative = false := fun e he =>
          (hlt List.mem_cons_self (List.mem_cons_of_mem _ he) (hfirst e he)).1
            ((List.pairwise_cons.1 hasc).1 e he)
        refine .inr fun e he => ?_
        rcases List.mem_cons.1 he with rfl | he
        · -- if the first key were below zero, the second one would be, too
          have he₂ : e₂ ∈ e :: e₂ :: rest := by simp
          have horder := hfirst e₂ List.mem_cons_self
          refine Bool.eq_false_iff.2 fun hneg => ?_
          have hneg₂ := MapKey.isNegative_of_order (hkey he) (hkey he₂) (hc e he) (hc e₂ he₂)
            horder hneg
          rw [hothers e₂ List.mem_cons_self] at hneg₂
          cases hneg₂
        · exact hothers e he
  · rintro (hlength | hnonneg)
    · match es, hlength with
      | [], _ => exact List.Pairwise.nil
      | [e], _ => exact List.pairwise_singleton _ _
    · exact List.Pairwise.imp_of_mem (fun he he' h => (hlt he he' h).2 (hnonneg _ he')) hes.sorted

end Entries

/-! ### Heaps and their texts -/

mutual

/-- There are no references in the value read back from a key, so its text does not depend on
theirs. -/
theorem MapKey.textWith_toValue (slice slice' : Slice → String) (map map' : Nat → String)
    (k : MapKey) : k.toValue.textWith slice map = k.toValue.textWith slice' map' := by
  cases k
  case struct ks =>
    rw [toValue, Value.textWith, Value.textWith, textsWith_toValues slice slice' map map' ks]
  all_goals rfl

/-- So are the texts of values read back. -/
theorem MapKey.textsWith_toValues (slice slice' : Slice → String) (map map' : Nat → String)
    (ks : List MapKey) :
    Value.textsWith slice map (toValues ks) = Value.textsWith slice' map' (toValues ks) := by
  cases ks with
  | nil => rfl
  | cons k ks =>
      rw [toValues, Value.textsWith, Value.textsWith, textWith_toValue slice slice' map map' k,
        textsWith_toValues slice slice' map map' ks]

end

namespace Heap

variable {h h' : Heap}

/-- The heap came about by changes to arrays, new maps, insertions and removals. -/
inductive Made : Heap → Prop
  | empty : Made empty
  | arrays {h : Heap} (arrays : Array (Array Value)) : Made h → Made { h with arrays }
  | newMap {h : Heap} : Made h → Made h.newMap.2
  | insert {h h' : Heap} {m : Nat} {key value : Value} :
      Made h → h.insert m key value = .ok h' → Made h'
  | remove {h h' : Heap} {m : Nat} {key : Value} : Made h → h.remove m key = .ok h' → Made h'

/-- **The entries of all maps are in the order of their keys, which are keys of values.** -/
theorem Made.isFiled (hh : h.Made) (m : Nat) : (h.entries m).IsFiled := by
  have hnil : Entries.IsFiled [] := ⟨List.Pairwise.nil, fun e he => absurd he List.not_mem_nil⟩
  induction hh generalizing m with
  | empty =>
      rw [show Heap.empty.entries m = [] by simp [entries, Heap.empty]]
      exact hnil
  | arrays arrays _ ih => exact ih m
  | newMap _ ih =>
      simp only [Heap.newMap, entries, Array.getElem?_push]
      split
      · exact hnil
      · exact ih m
  | @insert h h' ref key value _ hinsert ih =>
      rw [Heap.insert] at hinsert
      cases hk : MapKey.ofValue key with
      | error e =>
          rw [hk] at hinsert
          cases hinsert
      | ok k =>
          rw [hk] at hinsert
          cases hinsert
          exact entries_modify ih hnil ref (fun es hes => hes.insert hk value) m
  | @remove h h' ref key _ hremove ih =>
      rw [Heap.remove] at hremove
      cases hk : MapKey.ofValue key with
      | error e =>
          rw [hk] at hremove
          cases hremove
      | ok k =>
          rw [hk] at hremove
          cases hremove
          exact entries_modify ih hnil ref (fun es hes => hes.erase k) m

/-- Calls on a map are insertions and removals. -/
theorem Made.run (hh : h.Made) (m : Nat) (calls : List MapCall) : (MapCall.run m h calls).Made := by
  induction calls generalizing h with
  | nil => exact hh
  | cons c calls ih =>
      refine ih ?_
      cases c with
      | insert key value =>
          rw [MapCall.after, MapCall.perform]
          cases hinsert : h.insert m key value with
          | error e => exact hh
          | ok h' => exact hh.insert hinsert
      | remove key =>
          rw [MapCall.after, MapCall.perform]
          cases hremove : h.remove m key with
          | error e => exact hh
          | ok h' => exact hh.remove hremove
      | get key =>
          rw [MapCall.after, MapCall.perform]
          cases h.lookup m key <;> exact hh

/-- Text of a value inside another one. -/
def innerText (h : Heap) (v : Value) : String :=
  h.textAt h.cells v

/-- A value read back from a key prints the same anywhere. -/
theorem textAt_toValue (h h' : Heap) (n n' : Nat) (k : MapKey) :
    h.textAt n k.toValue = h'.textAt n' k.toValue := by
  cases n <;> cases n' <;> exact MapKey.textWith_toValue ..

/-- A map prints its entries. -/
theorem text_map (h : Heap) (m : Nat) : h.text (.map m) =
    "map[" ++ String.intercalate " " ((h.entries m).map fun e =>
      h.innerText e.1.toValue ++ ":" ++ h.innerText e.2) ++ "]" := by
  rw [text, show (Value.map m).isComposite = true from rfl, if_pos rfl, textAt, Value.textWith]
  rfl

/-- What is looked up under a value with a key. -/
theorem lookup_eq {m : Nat} {v : Value} {k : MapKey} (hk : MapKey.ofValue v = .ok k) :
    h.lookup m v = .ok ((h.entries m).find? k) := by
  rw [lookup, hk]
  rfl

/-- What is looked up is among the entries. -/
theorem mem_of_lookup {m : Nat} {k v : Value} (hlookup : h.lookup m k = .ok (some v)) :
    ∃ key, MapKey.ofValue k = .ok key ∧ (key, v) ∈ h.entries m := by
  cases hk : MapKey.ofValue k with
  | error e =>
      rw [lookup, hk] at hlookup
      cases hlookup
  | ok key =>
      rw [lookup_eq hk] at hlookup
      exact ⟨key, rfl, Entries.mem_of_find? (Except.ok.inj hlookup)⟩

/-- Entries are looked up. -/
theorem Made.lookup_entry (hh : h.Made) {m : Nat} {e : MapKey × Value} (he : e ∈ h.entries m) :
    h.lookup m e.1.toValue = .ok (some e.2) := by
  have hfiled := hh.isFiled m
  rw [lookup_eq (hfiled.ofValue_toValue he), Entries.find?_of_mem hfiled.sorted he]

/-- **Maps with the same entries print alike.** -/
theorem Made.text_congr (hh : h.Made) (hh' : h'.Made) {m m' : Nat}
    (hsame : ∀ k, (h.lookup m k).map (Option.map h.innerText) =
      (h'.lookup m' k).map (Option.map h'.innerText)) :
    h.text (.map m) = h'.text (.map m') := by
  have hfiled := hh.isFiled m
  have hfiled' := hh'.isFiled m'
  have hfind : ∀ k, ((h.entries m).find? k).map h.innerText =
      ((h'.entries m').find? k).map h'.innerText := by
    intro k
    by_cases hk : ∃ v, MapKey.ofValue v = .ok k
    · obtain ⟨v, hv⟩ := hk
      have hv' := hsame v
      rw [lookup_eq hv, lookup_eq hv] at hv'
      exact Except.ok.inj hv'
    · -- nothing is filed under what is not the key of a value
      have hnone {es : Entries} (hes : es.IsFiled) : es.find? k = none :=
        Option.eq_none_iff_forall_ne_some.2 fun v hfind =>
          hk (hes.keyed (k, v) (Entries.mem_of_find? hfind))
      rw [hnone hfiled, hnone hfiled']
      rfl
  have hentries := Entries.map_eq_of_find? hfiled.sorted hfiled'.sorted hfind
  have htexts := congrArg (List.map fun e : MapKey × String =>
    h.innerText e.1.toValue ++ ":" ++ e.2) hentries
  rw [List.map_map, List.map_map] at htexts
  rw [text_map, text_map]
  refine congrArg (fun texts => "map[" ++ String.intercalate " " texts ++ "]") (htexts.trans ?_)
  refine List.map_congr_left fun e _ => ?_
  exact congrArg (· ++ ":" ++ h'.innerText e.2) (textAt_toValue h h' h.cells h'.cells e.1)

/-- **Maps print in the order of their keys, whatever their history.** -/
theorem Made.prints_sorted (hh : h.Made) (m : Nat) :
    (∀ c, (∀ k v, h.lookup m k = .ok (some v) → k.IsOrdered c) →
      ∃ listing : List (Value × Value),
        h.text (.map m) = "map[" ++ String.intercalate " " (listing.map fun e =>
          h.text e.1 ++ ":" ++ h.innerText e.2) ++ "]" ∧
        (∀ e ∈ listing, h.lookup m e.1 = .ok (some e.2)) ∧
        (∀ k v, h.lookup m k = .ok (some v) → ∃ k', (k', v) ∈ listing ∧ k.same k' = true) ∧
        listing.Pairwise (fun e e' => e.1.same e'.1 = false) ∧
        (listing.Pairwise (fun e e' => compareValues .lt e.1 e'.1 = .ok true) ↔
          listing.length ≤ 1 ∨ ∀ e ∈ listing, e.1.isNegative = false)) ∧
    ∀ (h' : Heap) (m' : Nat), h'.Made →
      (∀ k, (h.lookup m k).map (Option.map h.innerText) =
        (h'.lookup m' k).map (Option.map h'.innerText)) →
      h.text (.map m) = h'.text (.map m') := by
  refine ⟨fun c hc => ?_, fun h' m' hh' => hh.text_congr hh'⟩
  have hfiled := hh.isFiled m
  have hordered (e : MapKey × Value) (he : e ∈ h.entries m) : e.1.toValue.IsOrdered c :=
    hc _ _ (hh.lookup_entry he)
  refine ⟨(h.entries m).map fun e => (e.1.toValue, e.2), ?_, ?_, ?_, ?_, ?_⟩
  · rw [text_map, List.map_map]
    refine congrArg (fun texts => "map[" ++ String.intercalate " " texts ++ "]")
      (List.map_congr_left fun e _ => ?_)
    exact congrArg (· ++ ":" ++ h.innerText e.2) (textAt_toValue ..)
  · intro e he
    obtain ⟨e', he', rfl⟩ := List.mem_map.1 he
    exact hh.lookup_entry he'
  · intro k v hlookup
    obtain ⟨key, hk, hmem⟩ := mem_of_lookup hlookup
    exact ⟨key.toValue, List.mem_map.2 ⟨(key, v), hmem, rfl⟩,
      (MapKey.same_iff hk (hfiled.ofValue_toValue hmem)).2 ⟨rfl, (hc k v hlookup).holdsNaN⟩⟩
  · rw [List.pairwise_map]
    exact List.Pairwise.imp_of_mem (fun he he' => MapKey.not_same_of_order
      (hfiled.ofValue_toValue he) (hfiled.ofValue_toValue he')) hfiled.sorted
  · rw [List.pairwise_map, List.length_map, List.forall_mem_map]
    exact Entries.ascending_iff hfiled hordered

/-- Two maps with the keys one and two print them in that order, although one was filled from the
greater to the lesser and the other lost a third key. -/
theorem histories_print_alike :
    let h := MapCall.run 1
      (MapCall.run 0 empty.newMap.2.newMap.2
        [.insert (.int 2) (.str "b"), .insert (.int 1) (.str "a")])
      [.insert (.int 1) (.str "a"), .insert (.int 3) (.str "c"), .insert (.int 2) (.str "b"),
        .remove (.int 3)]
    (∃ listing : List (Value × Value),
      h.text (.map 0) = "map[" ++ String.intercalate " " (listing.map fun e =>
        h.text e.1 ++ ":" ++ h.innerText e.2) ++ "]" ∧
      (∀ e ∈ listing, h.lookup 0 e.1 = .ok (some e.2)) ∧
      (∀ k v, h.lookup 0 k = .ok (some v) → ∃ k', (k', v) ∈ listing ∧ k.same k' = true) ∧
      listing.Pairwise (fun e e' => e.1.same e'.1 = false) ∧
      (listing.Pairwise (fun e e' => compareValues .lt e.1 e'.1 = .ok true) ↔
        listing.length ≤ 1 ∨ ∀ e ∈ listing, e.1.isNegative = false)) ∧
    h.text (.map 0) = h.text (.map 1) := by
  intro h
  have hmade : h.Made := ((Made.empty.newMap.newMap).run 0 _).run 1 _
  obtain ⟨hsorted, halike⟩ := hmade.prints_sorted 0
  refine ⟨hsorted .int fun k v hlookup => ?_, halike h 1 hmade fun k => ?_⟩
  · obtain ⟨key, hk, hmem⟩ := mem_of_lookup hlookup
    have hentries : h.entries 0 = [(.int 1, .str "a"), (.int 2, .str "b")] := rfl
    obtain ⟨i, rfl⟩ : ∃ i, key = .int i := by
      rw [hentries] at hmem
      rcases List.mem_cons.1 hmem with hmem | hmem
      · exact ⟨1, congrArg Prod.fst hmem⟩
      · exact ⟨2, congrArg Prod.fst (List.mem_singleton.1 hmem)⟩
    cases k
    case int i => trivial
    case struct fs =>
      obtain ⟨ks, -, hks⟩ := MapKey.ofValue_struct hk
      cases hks
    all_goals cases hk
  · have hentries : h.entries 0 = h.entries 1 := rfl
    rw [lookup, lookup, hentries]

/-- A map with the keys minus one and one prints the greater key first. -/
theorem below_zero_last :
    let h := MapCall.run 0 empty.newMap.2
      [.insert (.float (-1.0)) (.int 1), .insert (.float 1.0) (.int 2)]
    compareValues .lt (.float (-1.0)) (.float 1.0) = .ok true ∧
      h.lookup 0 (.float (-1.0)) = .ok (some (.int 1)) ∧
      h.lookup 0 (.float 1.0) = .ok (some (.int 2)) ∧ h.length? (.map 0) = some 2 ∧
      h.text (.map 0) = "map[1:2 -1:1]" :=
  ⟨rfl, rfl, rfl, rfl, by decide +kernel⟩

end Heap

end ScriptCore
