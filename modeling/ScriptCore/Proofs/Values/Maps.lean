import Mathlib
import ScriptCore.Proofs.Number.Order
import ScriptCore.Proofs.Values.Keys

/-!
# Maps as finite maps

A map answers as a finite map does whose keys are compared by the language's equality: under a key
the value is found that was stored last under an equal one and was not removed since.

Keys are the same exactly if the values are equal, unless they hold a NaN: that equals nothing, not
even itself, but is filed under its bits and found again.

Main statements: `MapKey.same_iff` and `MapCall.finite_map`.
-/

namespace ScriptCore

namespace Value

mutual

/-- The first part of a value that cannot be in a key. -/
def unhashablePart? : Value → Option Value
  | slice s => some (slice s)
  | map m => some (map m)
  | func f name => some (func f name)
  | struct fs => unhashablePartOf? fs
  | _ => none

/-- The first part of a list of values that cannot be in a key. -/
def unhashablePartOf? : List Value → Option Value
  | [] => none
  | v :: vs => (unhashablePart? v).or (unhashablePartOf? vs)

end

mutual

/-- There is a NaN in the value. -/
def holdsNaN : Value → Bool
  | float x => x.isNaN
  | complex re im => re.isNaN || im.isNaN
  | struct fs => anyHoldsNaN fs
  | _ => false

/-- There is a NaN in one of the values. -/
def anyHoldsNaN : List Value → Bool
  | [] => false
  | v :: vs => holdsNaN v || anyHoldsNaN vs

end

end Value

namespace MapKey

open Binary64

/-! ### Bits of keys -/

section Floats

variable {x y : Float}

/-- What equals zero has its place. -/
theorem beq_zero_iff : (x == 0.0) = true ↔ x.isNaN = false ∧ place x = 0 := by
  cases h : x.isNaN
  case true =>
    rw [beq_eq_false_of_isNaN (.inl h)]
    simp
  case false =>
    rw [beq_iff h (by decide)]
    exact (and_iff_right rfl).symm

/-- Doubles that are not zero have the same place only if they are the same. -/
theorem eq_of_place_eq (h : place x = place y) (hx : place x ≠ 0) : x = y := by
  have hlt := x.toBits.toNat_lt
  have hlt' := y.toBits.toNat_lt
  apply Float.toBits_inj.1
  apply UInt64.toNat_inj.1
  rw [place, place] at h
  rw [place] at hx
  split at h <;> split at h <;> split at hx <;> simp only [signBit] at * <;> omega

/-- Zero is filed under the bits of the positive one, and nothing else is. -/
theorem floatBits_eq_zero_iff : floatBits x = 0 ↔ (x == 0.0) = true := by
  rw [floatBits]
  split
  · rename_i hzero
    exact iff_of_true rfl hzero
  · rename_i hzero
    refine iff_of_false (fun h => hzero ?_) hzero
    obtain rfl : x = 0.0 := Float.toBits_inj.1 (h.trans (by decide))
    decide

/-- What is not zero is filed under its own bits. -/
theorem floatBits_of_ne_zero (h : (x == 0.0) = false) : floatBits x = x.toBits := by
  rw [floatBits, h]
  rfl

/-- Doubles filed under the same bits are both zero or the same. -/
theorem floatBits_eq_iff :
    floatBits x = floatBits y ↔ ((x == 0.0) = true ∧ (y == 0.0) = true) ∨ x = y := by
  constructor
  · intro h
    cases hx : x == 0.0
    case true => exact .inl ⟨rfl, floatBits_eq_zero_iff.1 (h ▸ floatBits_eq_zero_iff.2 hx)⟩
    case false =>
      cases hy : y == 0.0
      case true =>
        rw [floatBits_eq_zero_iff.2 hy, floatBits_eq_zero_iff, hx] at h
        cases h
      case false =>
        rw [floatBits_of_ne_zero hx, floatBits_of_ne_zero hy, Float.toBits_inj] at h
        exact .inr h
  · rintro (⟨hx, hy⟩ | rfl)
    · rw [floatBits_eq_zero_iff.2 hx, floatBits_eq_zero_iff.2 hy]
    · rfl

/-- Whether a double is a NaN is seen from the bits under which it is filed. -/
theorem isNaN_eq_of_floatBits (h : floatBits x = floatBits y) : x.isNaN = y.isNaN := by
  rcases floatBits_eq_iff.1 h with ⟨hx, hy⟩ | rfl
  · rw [(beq_zero_iff.1 hx).1, (beq_zero_iff.1 hy).1]
  · rfl

/-- **Doubles are equal exactly if they are filed under the same bits and are not NaN.** -/
theorem beq_iff_floatBits : (x == y) = true ↔ floatBits x = floatBits y ∧ x.isNaN = false := by
  constructor
  · intro h
    have hx : x.isNaN = false := by
      cases hx : x.isNaN
      case false => rfl
      case true =>
        rw [beq_eq_false_of_isNaN (.inl hx)] at h
        cases h
    have hy : y.isNaN = false := by
      cases hy : y.isNaN
      case false => rfl
      case true =>
        rw [beq_eq_false_of_isNaN (.inr hy)] at h
        cases h
    have hplace := (beq_iff hx hy).1 h
    refine ⟨floatBits_eq_iff.2 ?_, hx⟩
    by_cases hzero : place x = 0
    · exact .inl ⟨beq_zero_iff.2 ⟨hx, hzero⟩, beq_zero_iff.2 ⟨hy, hplace ▸ hzero⟩⟩
    · exact .inr (eq_of_place_eq hplace hzero)
  · rintro ⟨h, hx⟩
    have hy : y.isNaN = false := isNaN_eq_of_floatBits h ▸ hx
    refine (beq_iff hx hy).2 ?_
    rcases floatBits_eq_iff.1 h with ⟨hx, hy⟩ | rfl
    · rw [(beq_zero_iff.1 hx).2, (beq_zero_iff.1 hy).2]
    · rfl

/-- A double read back from the bits under which it was filed is filed under them again. -/
theorem floatBits_ofBits : floatBits (Float.ofBits (floatBits x)) = floatBits x := by
  cases hx : x == 0.0
  case true =>
    rw [floatBits_eq_zero_iff.2 hx]
    decide
  case false => rw [floatBits_of_ne_zero hx, Float.ofBits_toBits, floatBits_of_ne_zero hx]

end Floats

/-! ### Keys of values -/

mutual

/-- A value has a key unless it has a part that cannot be in one; the first such part is what the
error names. -/
theorem ofValue_total (v : Value) : match v.unhashablePart? with
    | some part => ofValue v = .error (.unhashableKey part.typeName)
    | none => ∃ k, ofValue v = .ok k := by
  cases v
  case struct fs =>
    have hfs := ofValues_total fs
    rw [Value.unhashablePart?, ofValue]
    split at hfs
    · rw [hfs]
      rfl
    · obtain ⟨ks, hks⟩ := hfs
      exact ⟨.struct ks, by rw [hks]; rfl⟩
  case slice | map | func => rfl
  all_goals exact ⟨_, rfl⟩

/-- So has a list of values. -/
theorem ofValues_total (vs : List Value) : match Value.unhashablePartOf? vs with
    | some part => ofValues vs = .error (.unhashableKey part.typeName)
    | none => ∃ ks, ofValues vs = .ok ks := by
  cases vs with
  | nil => exact ⟨[], rfl⟩
  | cons v vs =>
      have hv := ofValue_total v
      have hvs := ofValues_total vs
      rw [Value.unhashablePartOf?, ofValues]
      cases hpart : v.unhashablePart? with
      | some part =>
          rw [hpart] at hv
          simp only at hv
          rw [hv]
          rfl
      | none =>
          rw [hpart] at hv
          obtain ⟨k, hk⟩ := hv
          rw [Option.none_or, hk]
          split at hvs
          · rw [hvs]
            rfl
          · obtain ⟨ks, hks⟩ := hvs
            exact ⟨k :: ks, by rw [hks]; rfl⟩

end

/-- What has no part that cannot be in a key has a key, and nothing else. -/
theorem exists_key_iff {v : Value} : (∃ k, ofValue v = .ok k) ↔ v.unhashablePart? = none := by
  have htotal := ofValue_total v
  cases hpart : v.unhashablePart? with
  | none =>
      rw [hpart] at htotal
      exact iff_of_true htotal rfl
  | some part =>
      rw [hpart] at htotal
      simp only at htotal
      simp [htotal]

/-- Keys of a struct and of its fields. -/
theorem ofValue_struct {fs : List Value} {k : MapKey} (h : ofValue (.struct fs) = .ok k) :
    ∃ ks, ofValues fs = .ok ks ∧ k = .struct ks := by
  rw [ofValue] at h
  cases hfs : ofValues fs with
  | error e =>
      rw [hfs] at h
      cases h
  | ok ks =>
      rw [hfs] at h
      cases h
      exact ⟨ks, rfl, rfl⟩

/-- Keys of a list of values are those of its first one and of the others. -/
theorem ofValues_cons {v : Value} {vs : List Value} {ks : List MapKey}
    (h : ofValues (v :: vs) = .ok ks) :
    ∃ k ks', ofValue v = .ok k ∧ ofValues vs = .ok ks' ∧ ks = k :: ks' := by
  rw [ofValues] at h
  cases hv : ofValue v with
  | error e =>
      rw [hv] at h
      cases h
  | ok k =>
      cases hvs : ofValues vs with
      | error e =>
          rw [hv, hvs] at h
          cases h
      | ok ks' =>
          rw [hv, hvs] at h
          cases h
          exact ⟨k, ks', rfl, rfl, rfl⟩

mutual

/-- **Values are equal exactly if their keys are the same and they hold no NaN.** -/
theorem same_iff {a b : Value} {k k' : MapKey} (ha : ofValue a = .ok k) (hb : ofValue b = .ok k') :
    a.same b = true ↔ k = k' ∧ a.holdsNaN = false := by
  cases a <;> cases b
  case struct.struct fs gs =>
    obtain ⟨ks, hks, rfl⟩ := ofValue_struct ha
    obtain ⟨ks', hks', rfl⟩ := ofValue_struct hb
    rw [Value.same, Value.holdsNaN, sameList_iff hks hks', struct.injEq]
  case float.float x y =>
    cases ha
    cases hb
    rw [Value.same, Value.holdsNaN, beq_iff_floatBits, float.injEq]
  case complex.complex re im re' im' =>
    cases ha
    cases hb
    rw [Value.same, Value.holdsNaN, Bool.and_eq_true, beq_iff_floatBits, beq_iff_floatBits,
      complex.injEq, Bool.or_eq_false_iff]
    tauto
  -- references have no keys; a struct beside a scalar and two other scalars are left
  all_goals try (cases ha; done)
  all_goals try (cases hb; done)
  all_goals first
    | cases ha; cases hb; simp [Value.same, Value.holdsNaN]
    | obtain ⟨ks, -, rfl⟩ := ofValue_struct ha; cases hb; simp [Value.same]
    | obtain ⟨ks, -, rfl⟩ := ofValue_struct hb; cases ha; simp [Value.same]

/-- Lists of values are equal exactly if their keys are the same and they hold no NaN. -/
theorem sameList_iff {as bs : List Value} {ks ks' : List MapKey} (ha : ofValues as = .ok ks)
    (hb : ofValues bs = .ok ks') :
    Value.sameList as bs = true ↔ ks = ks' ∧ Value.anyHoldsNaN as = false := by
  cases as with
  | nil =>
      cases ha
      cases bs with
      | nil =>
          cases hb
          simp [Value.sameList, Value.anyHoldsNaN]
      | cons b bs =>
          obtain ⟨k', ks', -, -, rfl⟩ := ofValues_cons hb
          simp [Value.sameList]
  | cons a as =>
      obtain ⟨k, ks, hk, hks, rfl⟩ := ofValues_cons ha
      cases bs with
      | nil =>
          cases hb
          simp [Value.sameList]
      | cons b bs =>
          obtain ⟨k', ks', hk', hks', rfl⟩ := ofValues_cons hb
          rw [Value.sameList, Value.anyHoldsNaN, Bool.and_eq_true, same_iff hk hk',
            sameList_iff hks hks', List.cons.injEq, Bool.or_eq_false_iff]
          tauto

end

mutual

/-- A value read back from a key has that key, and a NaN in it if the key was made from one. -/
theorem ofValue_toValue {v : Value} {k : MapKey} (h : ofValue v = .ok k) :
    ofValue k.toValue = .ok k ∧ k.toValue.holdsNaN = v.holdsNaN := by
  cases v
  case float x =>
    cases h
    rw [toValue, ofValue, floatBits_ofBits]
    exact ⟨rfl, isNaN_eq_of_floatBits floatBits_ofBits⟩
  case complex re im =>
    cases h
    rw [toValue, ofValue, floatBits_ofBits, floatBits_ofBits, Value.holdsNaN, Value.holdsNaN,
      isNaN_eq_of_floatBits (floatBits_ofBits (x := re)),
      isNaN_eq_of_floatBits (floatBits_ofBits (x := im))]
    exact ⟨rfl, rfl⟩
  case struct fs =>
    obtain ⟨ks, hks, rfl⟩ := ofValue_struct h
    obtain ⟨hof, hnan⟩ := ofValues_toValues hks
    rw [toValue, ofValue, hof]
    exact ⟨rfl, hnan⟩
  all_goals cases h
  all_goals exact ⟨rfl, rfl⟩

/-- So have lists of values. -/
theorem ofValues_toValues {vs : List Value} {ks : List MapKey} (h : ofValues vs = .ok ks) :
    ofValues (toValues ks) = .ok ks ∧ Value.anyHoldsNaN (toValues ks) = Value.anyHoldsNaN vs := by
  cases vs with
  | nil =>
      cases h
      exact ⟨rfl, rfl⟩
  | cons v vs =>
      obtain ⟨k, ks, hk, hks, rfl⟩ := ofValues_cons h
      obtain ⟨hof, hnan⟩ := ofValue_toValue hk
      obtain ⟨hofs, hnans⟩ := ofValues_toValues hks
      rw [toValues, ofValues, hof, hofs, Value.anyHoldsNaN, Value.anyHoldsNaN, hnan, hnans]
      exact ⟨rfl, rfl⟩

end

/-- Values with the same key hold a NaN together. -/
theorem holdsNaN_eq {a b : Value} {k : MapKey} (ha : ofValue a = .ok k) (hb : ofValue b = .ok k) :
    a.holdsNaN = b.holdsNaN :=
  (ofValue_toValue ha).2.symm.trans (ofValue_toValue hb).2

mutual

/-- What equals a value with a key has one. -/
theorem exists_key_of_same {a b : Value} {k : MapKey} (h : a.same b = true)
    (hb : ofValue b = .ok k) : ∃ k', ofValue a = .ok k' := by
  cases a
  case struct fs =>
    cases b
    case struct gs =>
      obtain ⟨ks, hks, rfl⟩ := ofValue_struct hb
      obtain ⟨ks', hks'⟩ := exists_keys_of_sameList h hks
      exact ⟨.struct ks', by rw [ofValue, hks']; rfl⟩
    all_goals cases h
  case slice | map | func =>
    cases b
    all_goals first | cases h | cases hb
  all_goals exact ⟨_, rfl⟩

/-- So do lists of values. -/
theorem exists_keys_of_sameList {as bs : List Value} {ks : List MapKey}
    (h : Value.sameList as bs = true) (hb : ofValues bs = .ok ks) :
    ∃ ks', ofValues as = .ok ks' := by
  cases as with
  | nil => exact ⟨[], rfl⟩
  | cons a as =>
      cases bs with
      | nil => cases h
      | cons b bs =>
          obtain ⟨k, ks, hk, hks, rfl⟩ := ofValues_cons hb
          rw [Value.sameList, Bool.and_eq_true] at h
          obtain ⟨k', hk'⟩ := exists_key_of_same h.1 hk
          obtain ⟨ks', hks'⟩ := exists_keys_of_sameList h.2 hks
          exact ⟨k' :: ks', by rw [ofValues, hk', hks']; rfl⟩

end

/-- A value is equal to one without a NaN exactly if their keys are the same. -/
theorem same_iff_key_eq {a b : Value} {k k' : MapKey} (ha : ofValue a = .ok k)
    (hb : ofValue b = .ok k') (hnan : b.holdsNaN = false) : a.same b = true ↔ k = k' := by
  rw [same_iff ha hb, and_iff_left_iff_imp]
  rintro rfl
  rw [holdsNaN_eq ha hb, hnan]

/-- Values read back from a key and from a later one are not equal. -/
theorem not_same_of_order {k k' : MapKey} (hk : ofValue k.toValue = .ok k)
    (hk' : ofValue k'.toValue = .ok k') (h : k.order k' = .lt) :
    k.toValue.same k'.toValue = false := by
  refine Bool.eq_false_iff.2 fun hsame => ?_
  rw [((same_iff hk hk').1 hsame).1, order_self] at h
  cases h

end MapKey

/-! ### Calls on a map -/

/-- A call on a map. -/
inductive MapCall where
  | insert (key value : Value)
  | remove (key : Value)
  | get (key : Value)

namespace MapCall

/-- The key that a call is given. -/
def key : MapCall → Value
  | insert key _ | remove key | get key => key

/-- What a call on a map gives, and the heap after it. -/
def perform (m : Nat) (h : Heap) : MapCall → Except EvalError (Option Value × Heap)
  | insert key value => do return (none, ← h.insert m key value)
  | remove key => do return (none, ← h.remove m key)
  | get key => do return (← h.lookup m key, h)

/-- The heap after a call. -/
def after (m : Nat) (h : Heap) (c : MapCall) : Heap :=
  match c.perform m h with
  | .ok (_, h') => h'
  | .error _ => h

/-- The heap after calls one after the other. -/
def run (m : Nat) (h : Heap) (calls : List MapCall) : Heap :=
  calls.foldl (after m) h

/-- What a call leaves under a key, if it is about an equal one. -/
def leaves? (k : Value) : MapCall → Option (Option Value)
  | insert key value => if key.same k then some (some value) else none
  | remove key => if key.same k then some none else none
  | get _ => none

/-- Value of the last insertion under a key equal to the given one, unless an equal key was removed
since. -/
def latest (calls : List MapCall) (k : Value) : Option Value :=
  (calls.reverse.findSome? (leaves? k)).getD none

/-- The key can be one and has a value. -/
def IsPresent (calls : List MapCall) (k : Value) : Prop :=
  k.unhashablePart? = none ∧ (latest calls k).isSome = true

variable {m : Nat} {h : Heap} {calls : List MapCall} {c : MapCall}

/-- The latest value of a key is that of an insertion under an equal one, and no call after it is
about an equal one. -/
theorem latest_eq_some_iff {k v : Value} : latest calls k = some v ↔
    ∃ earlier key later, calls = earlier ++ insert key v :: later ∧ key.same k = true ∧
      ∀ c ∈ later, c.leaves? k = none := by
  have hleaves {c : MapCall} :
      c.leaves? k = some (some v) ↔ ∃ key, c = insert key v ∧ key.same k = true := by
    cases c <;> simp [leaves?, and_comm]
  rw [latest, Option.getD_eq_iff]
  simp only [reduceCtorEq, and_false, or_false, List.findSome?_eq_some_iff, hleaves]
  constructor
  · rintro ⟨later, -, earlier, hcalls, ⟨key, rfl, hsame⟩, hlater⟩
    refine ⟨earlier.reverse, key, later.reverse, ?_, hsame, fun c hc => ?_⟩
    · simpa using congrArg List.reverse hcalls
    · exact hlater c (List.mem_reverse.1 hc)
  · rintro ⟨earlier, key, later, rfl, hsame, hlater⟩
    exact ⟨later.reverse, insert key v, earlier.reverse, by simp, ⟨key, rfl, hsame⟩,
      fun c hc => hlater c (List.mem_reverse.1 hc)⟩

/-- The last call decides if it is about the key. -/
theorem latest_append (k : Value) :
    latest (calls ++ [c]) k = (c.leaves? k).getD (latest calls k) := by
  rw [latest, List.reverse_append, List.reverse_singleton, List.singleton_append,
    List.findSome?_cons, latest]
  cases c.leaves? k <;> rfl

/-- The entries of a map after calls: under keys without a NaN the latest values, and keys that were
inserted only. -/
structure Tracks (m : Nat) (h : Heap) (calls : List MapCall) : Prop where
  valid : m < h.maps.size
  sorted : (h.entries m).Sorted
  found : ∀ {v k}, MapKey.ofValue v = .ok k → v.holdsNaN = false →
    (h.entries m).find? k = latest calls v
  inserted : ∀ e ∈ h.entries m, ∃ key value,
    insert key value ∈ calls ∧ MapKey.ofValue key = .ok e.1

/-- A call that is given what cannot be a key fails and changes nothing. -/
theorem perform_unhashable {part : Value} (hc : c.key.unhashablePart? = some part) (m : Nat)
    (h : Heap) :
    c.perform m h = .error (.unhashableKey part.typeName) ∧ after m h c = h := by
  have hkey : MapKey.ofValue c.key = .error (.unhashableKey part.typeName) := by
    have htotal := MapKey.ofValue_total c.key
    rwa [hc] at htotal
  have hfail : c.perform m h = .error (.unhashableKey part.typeName) := by
    cases c <;> simp only [key] at hkey
    case insert => rw [perform, Heap.insert, hkey]; rfl
    case remove => rw [perform, Heap.remove, hkey]; rfl
    case get => rw [perform, Heap.lookup, hkey]; rfl
  exact ⟨hfail, by rw [after, hfail]⟩

/-- The entries are those of the latest calls if there were none. -/
theorem tracks_newMap (h : Heap) : Tracks h.newMap.1 h.newMap.2 [] := by
  have hentries : h.newMap.2.entries h.newMap.1 = [] := by
    simp [Heap.newMap, Heap.entries]
  refine ⟨by simp [Heap.newMap], ?_, ?_, ?_⟩ <;> rw [hentries]
  · exact List.Pairwise.nil
  · exact fun _ _ => rfl
  · exact fun e he => absurd he List.not_mem_nil

/-- A call with what cannot be a key leaves what was found. -/
theorem latest_unhashable {e : EvalError} {v : Value} {k : MapKey}
    (hc : MapKey.ofValue c.key = .error e) (hv : MapKey.ofValue v = .ok k) :
    latest (calls ++ [c]) v = latest calls v := by
  have hne : c.key.same v = false := by
    cases hsame : c.key.same v with
    | false => rfl
    | true =>
        obtain ⟨k', hk'⟩ := MapKey.exists_key_of_same hsame hv
        cases hc.symm.trans hk'
  rw [latest_append]
  cases c <;> simp only [key] at hne <;> simp [leaves?, hne]

/-- Keys that were inserted before a call. -/
theorem Tracks.inserted_append (ht : Tracks m h calls) (c : MapCall) {e : MapKey × Value}
    (he : e ∈ h.entries m) : ∃ key value,
      insert key value ∈ calls ++ [c] ∧ MapKey.ofValue key = .ok e.1 := by
  obtain ⟨key, value, hmem, hkey⟩ := ht.inserted e he
  exact ⟨key, value, List.mem_append_left _ hmem, hkey⟩

/-- After an insertion. -/
theorem Tracks.insert (ht : Tracks m h calls) {key : Value} {k₀ : MapKey}
    (hkey : MapKey.ofValue key = .ok k₀) (value : Value) :
    Tracks m (h.insertKey m k₀ value) (calls ++ [.insert key value]) := by
  refine ⟨by simpa [Heap.insertKey] using ht.valid, ?_, ?_, ?_⟩ <;>
    rw [Heap.entries_insertKey_self ht.valid]
  · exact ht.sorted.insert k₀ value
  · intro v k hv hnan
    have hsame := MapKey.same_iff_key_eq hkey hv hnan
    rw [latest_append, leaves?]
    by_cases hk : k₀ = k
    · rw [if_pos (hsame.2 hk), ← hk, Entries.find?_insert_self]
      rfl
    · rw [if_neg (fun h => hk (hsame.1 h)), Entries.find?_insert_ne _ _ (Ne.symm hk)]
      exact ht.found hv hnan
  · intro e he
    rcases Entries.mem_insert he with rfl | he
    · exact ⟨key, value, by simp, hkey⟩
    · exact ht.inserted_append _ he

/-- After a removal. -/
theorem Tracks.remove (ht : Tracks m h calls) {key : Value} {k₀ : MapKey}
    (hkey : MapKey.ofValue key = .ok k₀) :
    Tracks m (h.eraseKey m k₀) (calls ++ [.remove key]) := by
  refine ⟨by simpa [Heap.eraseKey] using ht.valid, ?_, ?_, ?_⟩ <;>
    rw [Heap.entries_eraseKey_self ht.valid]
  · exact ht.sorted.erase k₀
  · intro v k hv hnan
    have hsame := MapKey.same_iff_key_eq hkey hv hnan
    rw [latest_append, leaves?]
    by_cases hk : k₀ = k
    · rw [if_pos (hsame.2 hk), ← hk, Entries.find?_erase_self ht.sorted]
      rfl
    · rw [if_neg (fun h => hk (hsame.1 h)), Entries.find?_erase_ne _ (Ne.symm hk)]
      exact ht.found hv hnan
  · exact fun e he => ht.inserted_append _ ((Entries.erase_sublist _ _).subset he)

/-- **A call keeps the entries those of the latest calls.** -/
theorem Tracks.after (ht : Tracks m h calls) (c : MapCall) :
    Tracks m (after m h c) (calls ++ [c]) := by
  cases hpart : c.key.unhashablePart? with
  | some part =>
      have hkey := MapKey.ofValue_total c.key
      rw [hpart] at hkey
      rw [(perform_unhashable hpart m h).2]
      exact ⟨ht.valid, ht.sorted,
        fun hv hnan => (ht.found hv hnan).trans (latest_unhashable hkey hv).symm,
        fun e he => ht.inserted_append c he⟩
  | none =>
      have hkey := MapKey.ofValue_total c.key
      rw [hpart] at hkey
      obtain ⟨k₀, hkey⟩ := hkey
      cases c <;> simp only [key] at hkey
      case insert key value =>
        rw [MapCall.after, perform, Heap.insert, hkey]
        exact ht.insert hkey value
      case remove key =>
        rw [MapCall.after, perform, Heap.remove, hkey]
        exact ht.remove hkey
      case get key =>
        rw [MapCall.after, perform, Heap.lookup, hkey]
        refine ⟨ht.valid, ht.sorted, fun hv hnan => ?_, fun e he => ht.inserted_append _ he⟩
        rw [latest_append]
        exact ht.found hv hnan

/-- The entries of a map are those of the latest of all calls since it was made. -/
theorem tracks_run (h : Heap) (calls : List MapCall) :
    Tracks h.newMap.1 (run h.newMap.1 h.newMap.2 calls) calls := by
  induction calls using List.reverseRecOn with
  | nil => exact tracks_newMap h
  | append_singleton calls c ih =>
      rw [run, List.foldl_append]
      exact ih.after c

/-- The keys of the entries, read back, are the keys that are present, and no two are equal. -/
theorem Tracks.keys (ht : Tracks m h calls)
    (hnan : ∀ key value, .insert key value ∈ calls → key.unhashablePart? = none →
      key.holdsNaN = false) :
    ∃ keys : List Value, keys.Pairwise (fun a b => a.same b = false) ∧
      (∀ k ∈ keys, IsPresent calls k) ∧
      (∀ k, IsPresent calls k → ∃ k' ∈ keys, k.same k' = true) ∧
      h.length? (.map m) = some keys.length := by
  have hkey {e : MapKey × Value} (he : e ∈ h.entries m) :
      MapKey.ofValue e.1.toValue = .ok e.1 ∧ e.1.toValue.holdsNaN = false := by
    obtain ⟨key, value, hmem, hkey⟩ := ht.inserted e he
    obtain ⟨hof, hholds⟩ := MapKey.ofValue_toValue hkey
    exact ⟨hof, hholds.trans (hnan key value hmem (MapKey.exists_key_iff.1 ⟨_, hkey⟩))⟩
  refine ⟨(h.entries m).map fun e => e.1.toValue, ?_, ?_, ?_, by simp [Heap.length?]⟩
  · rw [List.pairwise_map]
    exact List.Pairwise.imp_of_mem
      (fun he he' => MapKey.not_same_of_order (hkey he).1 (hkey he').1) ht.sorted
  · intro k hk
    obtain ⟨e, he, rfl⟩ := List.mem_map.1 hk
    refine ⟨MapKey.exists_key_iff.1 ⟨_, (hkey he).1⟩, ?_⟩
    rw [← ht.found (hkey he).1 (hkey he).2]
    exact Entries.isSome_find?_iff.2 ⟨e, he, rfl⟩
  · rintro v ⟨hpart, hpresent⟩
    obtain ⟨k, hk⟩ := MapKey.exists_key_iff.2 hpart
    -- what equals a key that was inserted holds no NaN
    have hv : v.holdsNaN = false := by
      obtain ⟨w, hw⟩ := Option.isSome_iff_exists.1 hpresent
      obtain ⟨-, key, -, -, hsame, -⟩ := latest_eq_some_iff.1 hw
      obtain ⟨k', hk'⟩ := MapKey.exists_key_of_same hsame hk
      obtain ⟨rfl, hkey⟩ := (MapKey.same_iff hk' hk).1 hsame
      exact (MapKey.holdsNaN_eq hk hk').trans hkey
    rw [← ht.found hk hv] at hpresent
    obtain ⟨e, he, rfl⟩ := Entries.isSome_find?_iff.1 hpresent
    exact ⟨_, List.mem_map_of_mem he, (MapKey.same_iff hk (hkey he).1).2 ⟨rfl, hv⟩⟩

/-- **A map answers as a finite map under the language's equality.**  After any calls on a new map,
what is found under a key without a NaN is the latest value; the length is the number of keys that
are present, if none with a NaN was inserted; keys of values without a NaN are the same exactly if
the values are equal; and a call with what cannot be a key fails and changes nothing. -/
theorem finite_map (h : Heap) (calls : List MapCall) :
    let m := h.newMap.1
    let h' := run m h.newMap.2 calls
    (∀ k, k.unhashablePart? = none → k.holdsNaN = false →
      (get k).perform m h' = .ok (latest calls k, h')) ∧
    ((∀ key value, .insert key value ∈ calls → key.unhashablePart? = none →
        key.holdsNaN = false) →
      ∃ keys : List Value, keys.Pairwise (fun a b => a.same b = false) ∧
        (∀ k ∈ keys, IsPresent calls k) ∧
        (∀ k, IsPresent calls k → ∃ k' ∈ keys, k.same k' = true) ∧
        h'.length? (.map m) = some keys.length) ∧
    (∀ a b k k', MapKey.ofValue a = .ok k → MapKey.ofValue b = .ok k' → b.holdsNaN = false →
      (k = k' ↔ a.same b = true)) ∧
    ∀ c part, c.key.unhashablePart? = some part →
      c.perform m h' = .error (.unhashableKey part.typeName) ∧ MapCall.after m h' c = h' := by
  intro m h'
  have ht : Tracks m h' calls := tracks_run h calls
  refine ⟨fun v hv hnan => ?_, ht.keys,
    fun a b k k' ha hb hnan => (MapKey.same_iff_key_eq ha hb hnan).symm,
    fun c part hc => perform_unhashable hc m h'⟩
  obtain ⟨k, hk⟩ := MapKey.exists_key_iff.2 hv
  rw [perform, Heap.lookup, hk, ← ht.found hk hnan]
  rfl

/-- What is stored under a struct that holds the negative zero is found under one that holds the
positive zero, and a slice cannot be a key. -/
theorem zeros_filed_together :
    let negative := Value.struct [.float (-0.0), .str "a"]
    let positive := Value.struct [.float 0.0, .str "a"]
    let calls := [insert negative (.int 1)]
    let h' := run 0 Heap.empty.newMap.2 calls
    (get positive).perform 0 h' = .ok (some (.int 1), h') ∧
      (∃ keys : List Value, keys.Pairwise (fun a b => a.same b = false) ∧
        (∀ k ∈ keys, IsPresent calls k) ∧
        (∀ k, IsPresent calls k → ∃ k' ∈ keys, k.same k' = true) ∧
        h'.length? (.map 0) = some keys.length) ∧
      negative.same positive = true ∧
      MapCall.after 0 h' (remove (.slice ⟨0, 0, 0, 0⟩)) = h' := by
  intro negative positive calls h'
  have hnan : negative.holdsNaN = false ∧ positive.holdsNaN = false := by decide
  obtain ⟨hget, hlength, hsame, hfail⟩ := finite_map Heap.empty calls
  refine ⟨hget positive rfl hnan.2, hlength fun key value hmem _ => ?_,
    (hsame negative positive (.struct [.float 0, .str "a"]) (.struct [.float 0, .str "a"]) ?_ ?_
      hnan.2).1 rfl,
    (hfail (remove (.slice ⟨0, 0, 0, 0⟩)) _ rfl).2⟩
  · cases List.mem_singleton.1 hmem
    exact hnan.1
  · rfl
  · rfl

/-- A NaN is equal to nothing, but what is stored under it is found. -/
theorem nan_found :
    let nan := Value.float (Float.ofBits 0x7ff8000000000000)
    let calls := [insert nan (.int 1)]
    let h' := run 0 Heap.empty.newMap.2 calls
    nan.unhashablePart? = none ∧ nan.same nan = false ∧ latest calls nan = none ∧
      (get nan).perform 0 h' = .ok (some (.int 1), h') := by
  intro nan calls h'
  have hne : nan.same nan = false := by decide
  refine ⟨rfl, hne, ?_, rfl⟩
  rw [latest, List.reverse_singleton, List.findSome?_cons, leaves?, if_neg (by simp [hne])]
  rfl

end MapCall

end ScriptCore
