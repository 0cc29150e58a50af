import Mathlib.Data.List.Basic
import ScriptCore.Values.Heap

/-!
# Windows on arrays

A slice is a window on an array that other slices may look at as well.  Slices are made, stored in
and appended to; whatever the history, the window of each slice that has been handed out, with the
room into which it may grow, lies in its array (`Issued.within`).

Appending to a slice writes behind its window while there is room, and otherwise moves on to an
array of its own.  Either way the slice that was appended to reads as before, and the longer one
reads as that followed by the new elements (`Heap.appended`).

Main statement: `Heap.Issued.windows`.
-/

namespace ScriptCore

/-- The window of a slice, with the room into which it may grow, lies in an array of the heap. -/
structure Slice.Within (s : Slice) (h : Heap) : Prop where
  array_lt : s.array < h.arrays.size
  len_le : s.len ≤ s.cap
  room : s.start + s.cap ≤ (h.arrayOf s).size

namespace Heap

/-- What an array holds at a position. -/
def at? (h : Heap) (array position : Nat) : Option Value :=
  h.arrays[array]?.bind fun a => a[position]?

/-- Heaps that slices have been used on, and the slices that have been handed out, newest first.
What happens to maps in between does not matter. -/
inductive Issued : Heap → List Slice → Prop
  | none : Issued empty []
  | maps {h h' : Heap} {ss : List Slice} (past : Issued h ss) (same : h'.arrays = h.arrays) :
      Issued h' ss
  | make {h : Heap} {ss : List Slice} (len cap : Nat) (zero : Value) (past : Issued h ss) :
      Issued (h.makeSlice len cap zero).2 ((h.makeSlice len cap zero).1 :: ss)
  | ofValues {h : Heap} {ss : List Slice} (values : List Value) (past : Issued h ss) :
      Issued (h.sliceOf values).2 ((h.sliceOf values).1 :: ss)
  | set {h h' : Heap} {ss : List Slice} {s : Slice} {index : Int} {v : Value} (past : Issued h ss)
      (known : s ∈ ss) (stored : h.setElem s index v = .ok h') : Issued h' ss
  | append {h : Heap} {ss : List Slice} {s : Slice} (values : List Value) (past : Issued h ss)
      (known : s ∈ ss) : Issued (h.append s values).2 ((h.append s values).1 :: ss)

/-- Uses of a slice end with an error or stay within its array. -/
structure Reaches (h : Heap) (s : Slice) : Prop where
  get : ∀ index : Int, if 0 ≤ index ∧ index < s.len
    then ∃ v, h.at? s.array (s.start + index.toNat) = some v ∧ h.getElem s index = .ok v
    else h.getElem s index = .error (.indexOutOfRange index s.len)
  set : ∀ (index : Int) (v : Value), if 0 ≤ index ∧ index < s.len
    then ∃ h', h.setElem s index v = .ok h' ∧ ∀ array position, h'.at? array position =
      if array = s.array ∧ position = s.start + index.toNat then some v else h.at? array position
    else h.setElem s index v = .error (.indexOutOfRange index s.len)
  elems : (h.elems s).length = s.len ∧ ∀ i < s.len,
    ∃ v, h.at? s.array (s.start + i) = some v ∧ (h.elems s)[i]? = some v
  /-- Where appending may write. -/
  room : ∀ position, s.start + s.len ≤ position → position < s.start + s.cap →
    ∃ v, h.at? s.array position = some v

/-- What appending `values` to the slice `s` gives: the slice `t` and the heap `h'`. -/
structure Appended (h : Heap) (s : Slice) (values : List Value) (t : Slice) (h' : Heap) :
    Prop where
  elems : h'.elems t = h.elems s ++ values
  len_le : t.len ≤ t.cap
  kept : h'.elems s = h.elems s
  /-- While there is room the array is shared, and only the positions behind the window change. -/
  shared : s.len + values.length ≤ s.cap → t.array = s.array ∧ t.start = s.start ∧
    ∀ array position, ¬(array = s.array ∧ s.start + s.len ≤ position ∧
      position < s.start + s.len + values.length) → h'.at? array position = h.at? array position
  /-- Otherwise the array is a new one, and those that were there stay as they are. -/
  moved : s.cap < s.len + values.length → t.array = h.arrays.size ∧ 2 * s.cap ≤ t.cap ∧
    (h'.arrayOf t).size = t.cap ∧ ∀ array < h.arrays.size, h'.arrays[array]? = h.arrays[array]?

variable {h h' : Heap} {s t : Slice} {ss : List Slice}

/-! ### Storing several values -/

/-- The array keeps its size. -/
@[simp] theorem size_writeAll (a : Array Value) (p : Nat) (values : List Value) :
    (writeAll a p values).size = a.size := by
  induction values generalizing a p with
  | nil => rfl
  | cons v values ih => rw [writeAll, ih, Array.size_setIfInBounds]

/-- Positions beside those that are written keep what they hold. -/
theorem writeAll_of_outside {p k : Nat} {values : List Value}
    (hk : ¬(p ≤ k ∧ k < p + values.length)) (a : Array Value) :
    (writeAll a p values)[k]? = a[k]? := by
  induction values generalizing a p with
  | nil => rfl
  | cons v values ih =>
      rw [List.length_cons] at hk
      rw [writeAll, ih (by omega), Array.getElem?_setIfInBounds_ne (by omega)]

/-- Positions that are written hold the values, one after the other. -/
theorem writeAll_of_inside {p i : Nat} {values : List Value} (hi : i < values.length)
    {a : Array Value} (ha : p + values.length ≤ a.size) :
    (writeAll a p values)[p + i]? = values[i]? := by
  induction values generalizing a p i with
  | nil => cases hi
  | cons v values ih =>
      rw [List.length_cons] at hi ha
      rw [writeAll]
      cases i with
      | zero =>
          rw [writeAll_of_outside (by omega), Nat.add_zero,
            Array.getElem?_setIfInBounds_self_of_lt (by omega), List.getElem?_cons_zero]
      | succ i =>
          rw [List.getElem?_cons_succ, Nat.add_comm i 1, ← Nat.add_assoc]
          exact ih (by omega) (by rw [Array.size_setIfInBounds]; omega)

/-! ### Reading a window -/

/-- An element of a window is where it is looked for in the array. -/
theorem elems_getElem? (hs : s.Within h) (i : Nat) :
    (h.elems s)[i]? = if i < s.len then h.at? s.array (s.start + i) else Option.none := by
  have hlen := hs.len_le
  have hroom := hs.room
  rw [elems, Array.getElem?_toList, Array.getElem?_extract, Nat.min_eq_left (by omega),
    Nat.add_sub_cancel_left, at?, arrayOf, Array.getElem?_eq_getElem hs.array_lt]
  rfl

/-- A slice reads as many elements as it is long. -/
theorem length_elems (hs : s.Within h) : (h.elems s).length = s.len := by
  have hlen := hs.len_le
  have hroom := hs.room
  rw [elems, Array.length_toList, Array.size_extract, Nat.min_eq_left (by omega),
    Nat.add_sub_cancel_left]

/-- Slices read the same from heaps that hold the same in their windows. -/
theorem elems_congr (hs : s.Within h) (hs' : s.Within h')
    (hsame : ∀ i < s.len, h'.at? s.array (s.start + i) = h.at? s.array (s.start + i)) :
    h'.elems s = h.elems s := by
  refine List.ext_getElem? fun i => ?_
  rw [elems_getElem? hs', elems_getElem? hs]
  split
  · exact hsame i ‹_›
  · rfl

/-- A position in the window of a slice holds something. -/
theorem exists_at? (hs : s.Within h) {position : Nat} (hp : position < s.start + s.cap) :
    ∃ v, h.at? s.array position = some v := by
  have hroom := hs.room
  rw [arrayOf, Array.getElem?_eq_getElem hs.array_lt, Option.getD_some] at hroom
  rw [at?, Array.getElem?_eq_getElem hs.array_lt, Option.bind_some,
    Array.getElem?_eq_getElem (by omega)]
  exact ⟨_, rfl⟩

/-! ### Heaps that go on -/

/-- Arrays stay, with as much room as they had. -/
structure Grows (h h' : Heap) : Prop where
  arrays : h.arrays.size ≤ h'.arrays.size
  room : ∀ s : Slice, s.array < h.arrays.size → (h'.arrayOf s).size = (h.arrayOf s).size

/-- Windows stay within their arrays. -/
theorem Grows.within (hgrows : h.Grows h') (hs : s.Within h) : s.Within h' where
  array_lt := Nat.lt_of_lt_of_le hs.array_lt hgrows.arrays
  len_le := hs.len_le
  room := by
    rw [hgrows.room s hs.array_lt]
    exact hs.room

/-- The arrays that were there before a new one. -/
theorem newSlice_arrays (h : Heap) (elems : Array Value) (len : Nat) {array : Nat}
    (harray : array < h.arrays.size) :
    (h.newSlice elems len).2.arrays[array]? = h.arrays[array]? := by
  rw [newSlice, Array.getElem?_push_lt harray, Array.getElem?_eq_getElem harray]

/-- The new array. -/
theorem newSlice_arrayOf (h : Heap) (elems : Array Value) (len : Nat) :
    (h.newSlice elems len).2.arrayOf (h.newSlice elems len).1 = elems := by
  simp [newSlice, arrayOf]

/-- A new array changes none of the others. -/
theorem newSlice_grows (h : Heap) (elems : Array Value) (len : Nat) :
    h.Grows (h.newSlice elems len).2 where
  arrays := by simp [newSlice]
  room s hs := by rw [arrayOf, arrayOf, newSlice_arrays h elems len hs]

/-- The window on a new array lies in it. -/
theorem newSlice_within (h : Heap) {elems : Array Value} {len : Nat} (hlen : len ≤ elems.size) :
    (h.newSlice elems len).1.Within (h.newSlice elems len).2 where
  array_lt := by simp [newSlice]
  len_le := hlen
  room := by rw [newSlice_arrayOf]; simp [newSlice]

/-- An array that is changed and keeps its size. -/
theorem modify_grows (h : Heap) (array : Nat) {f : Array Value → Array Value}
    (hf : ∀ a, (f a).size = a.size) : h.Grows { h with arrays := h.arrays.modify array f } where
  arrays := by simp
  room s hs := by
    simp only [arrayOf, Array.getElem?_modify]
    split
    · rw [Array.getElem?_eq_getElem hs]
      exact hf _
    · rfl

/-- What arrays hold after one of them has been changed. -/
theorem at?_modify (h : Heap) (changed : Nat) (f : Array Value → Array Value)
    (array position : Nat) :
    ({ h with arrays := h.arrays.modify changed f } : Heap).at? array position =
      if changed = array then h.arrays[array]?.bind fun a => (f a)[position]?
      else h.at? array position := by
  simp only [at?, Array.getElem?_modify]
  split
  · rw [Option.bind_map]
    rfl
  · rfl

/-- A store in a window is a store in its array, at the position that passes the check. -/
theorem setElem_eq (h : Heap) (s : Slice) (index : Int) (v : Value) :
    h.setElem s index v = if 0 ≤ index ∧ index < s.len
      then .ok (h.setAt s.array (s.start + index.toNat) v)
      else .error (.indexOutOfRange index s.len) := by
  rw [setElem, offset]
  split <;> rfl

/-- A store changes no size. -/
theorem setElem_grows {index : Int} {v : Value} (hset : h.setElem s index v = .ok h') :
    h.Grows h' := by
  rw [setElem_eq] at hset
  split at hset
  · cases hset
    exact h.modify_grows s.array fun a => Array.size_setIfInBounds
  · cases hset

/-- **Uses of a slice stay within its array.** -/
theorem reaches (hs : s.Within h) : h.Reaches s where
  get index := by
    rw [getElem, offset]
    split
    · rename_i hindex
      have hlen := hs.len_le
      obtain ⟨v, hv⟩ := exists_at? hs (show s.start + index.toNat < s.start + s.cap by omega)
      refine ⟨v, hv, ?_⟩
      rw [at?, Array.getElem?_eq_getElem hs.array_lt, Option.bind_some] at hv
      rw [arrayOf, Array.getElem?_eq_getElem hs.array_lt, Option.getD_some]
      change Except.ok (Option.getD _ _) = _
      rw [hv]
      rfl
    · rfl
  set index v := by
    rw [setElem_eq]
    split
    · rename_i hindex
      have hlen := hs.len_le
      have hroom := hs.room
      rw [arrayOf, Array.getElem?_eq_getElem hs.array_lt, Option.getD_some] at hroom
      refine ⟨_, rfl, fun array position => ?_⟩
      rw [setAt, at?_modify]
      by_cases harray : s.array = array
      · subst harray
        rw [if_pos rfl, at?, Array.getElem?_eq_getElem hs.array_lt, Option.bind_some,
          Option.bind_some]
        by_cases hp : position = s.start + index.toNat
        · rw [if_pos ⟨rfl, hp⟩, hp, Array.getElem?_setIfInBounds_self_of_lt (by omega)]
        · rw [if_neg fun hboth => hp hboth.2, Array.getElem?_setIfInBounds_ne (Ne.symm hp)]
      · rw [if_neg harray, if_neg fun hboth => harray hboth.1.symm]
    · rfl
  elems := by
    refine ⟨length_elems hs, fun i hi => ?_⟩
    have hlen := hs.len_le
    obtain ⟨v, hv⟩ := exists_at? hs (show s.start + i < s.start + s.cap by omega)
    exact ⟨v, hv, by rw [elems_getElem? hs, if_pos hi, hv]⟩
  room position _ hp := exists_at? hs hp

/-! ### Appending -/

/-- Appending within the room. -/
theorem append_of_le {values : List Value} (hroom : s.len + values.length ≤ s.cap) (h : Heap) :
    h.append s values = ({ s with len := s.len + values.length },
      { h with arrays := h.arrays.modify s.array fun a =>
        writeAll a (s.start + s.len) values }) := by
  rw [append, if_pos hroom]

/-- Appending beyond the room. -/
theorem append_of_lt {values : List Value} (hroom : s.cap < s.len + values.length) (h : Heap) :
    h.append s values = h.newSlice
      ((h.elems s ++ values) ++ List.replicate (max (s.len + values.length) (s.cap * 2) -
        (h.elems s ++ values).length) Value.nil).toArray (s.len + values.length) := by
  rw [append, if_neg (Nat.not_le_of_lt hroom)]

/-- Arrays stay, with as much room as they had. -/
theorem append_grows (h : Heap) (s : Slice) (values : List Value) :
    h.Grows (h.append s values).2 := by
  by_cases hroom : s.len + values.length ≤ s.cap
  · rw [append_of_le hroom]
    exact h.modify_grows s.array fun a => size_writeAll a _ values
  · rw [append_of_lt (Nat.lt_of_not_le hroom)]
    exact h.newSlice_grows _ _

/-- The new array of a slice that has outgrown its room is as large as its new room. -/
theorem length_grown (hs : s.Within h) (values : List Value) :
    ((h.elems s ++ values) ++ List.replicate (max (s.len + values.length) (s.cap * 2) -
      (h.elems s ++ values).length) Value.nil).toArray.size =
      max (s.len + values.length) (s.cap * 2) := by
  rw [List.size_toArray, List.length_append, List.length_replicate, List.length_append,
    length_elems hs]
  omega

/-- The longer slice lies within its array. -/
theorem append_within (hs : s.Within h) (values : List Value) :
    (h.append s values).1.Within (h.append s values).2 := by
  by_cases hroom : s.len + values.length ≤ s.cap
  · have hgrown := (h.append_grows s values).within hs
    rw [append_of_le hroom] at hgrown ⊢
    exact ⟨hgrown.array_lt, hroom, hgrown.room⟩
  · have hlt := Nat.lt_of_not_le hroom
    rw [append_of_lt hlt]
    refine h.newSlice_within ?_
    rw [length_grown hs values]
    exact Nat.le_max_left _ _

/-- **Appending within the room** changes the positions behind the window and no others. -/
theorem append_at?_of_le {values : List Value} (hroom : s.len + values.length ≤ s.cap)
    {array position : Nat} (hout : ¬(array = s.array ∧ s.start + s.len ≤ position ∧
      position < s.start + s.len + values.length)) :
    (h.append s values).2.at? array position = h.at? array position := by
  rw [append_of_le hroom, at?_modify]
  split
  · rename_i heq
    have hpos : ¬(s.start + s.len ≤ position ∧ position < s.start + s.len + values.length) :=
      fun hin => hout ⟨heq.symm, hin⟩
    simp only [writeAll_of_outside hpos, at?]
  · rfl

/-- The positions behind the window hold the new elements. -/
theorem append_at?_new (hs : s.Within h) {values : List Value}
    (hroom : s.len + values.length ≤ s.cap) {i : Nat} (hi : i < values.length) :
    (h.append s values).2.at? s.array (s.start + s.len + i) = values[i]? := by
  have hbound := hs.room
  rw [arrayOf, Array.getElem?_eq_getElem hs.array_lt, Option.getD_some] at hbound
  rw [append_of_le hroom, at?_modify, if_pos rfl, Array.getElem?_eq_getElem hs.array_lt,
    Option.bind_some]
  exact writeAll_of_inside hi (by omega)

/-- **Appending beyond the room** changes no array. -/
theorem append_arrays_of_lt {values : List Value} (hroom : s.cap < s.len + values.length)
    {array : Nat} (harray : array < h.arrays.size) :
    (h.append s values).2.arrays[array]? = h.arrays[array]? := by
  rw [append_of_lt hroom]
  exact h.newSlice_arrays _ _ harray

/-- The slice that is appended to reads as before. -/
theorem append_kept (hs : s.Within h) (values : List Value) :
    (h.append s values).2.elems s = h.elems s := by
  refine elems_congr hs ((h.append_grows s values).within hs) fun i hi => ?_
  by_cases hroom : s.len + values.length ≤ s.cap
  · exact append_at?_of_le hroom (by omega)
  · rw [at?, at?, append_arrays_of_lt (Nat.lt_of_not_le hroom) hs.array_lt]

/-- **The longer slice** reads as the slice followed by the new elements. -/
theorem append_elems (hs : s.Within h) (values : List Value) :
    (h.append s values).2.elems (h.append s values).1 = h.elems s ++ values := by
  by_cases hroom : s.len + values.length ≤ s.cap
  · refine List.ext_getElem? fun i => ?_
    have hthis : (h.append s values).1 = { s with len := s.len + values.length } := by
      rw [append_of_le hroom]
    rw [elems_getElem? (append_within hs values), hthis]
    dsimp only
    by_cases hi : i < s.len
    · rw [List.getElem?_append_left (by rw [length_elems hs]; exact hi), elems_getElem? hs,
        if_pos hi, if_pos (by omega), append_at?_of_le hroom (by omega)]
    · rw [List.getElem?_append_right (by rw [length_elems hs]; omega), length_elems hs]
      obtain ⟨k, rfl⟩ := Nat.exists_eq_add_of_le (Nat.le_of_not_lt hi)
      rw [Nat.add_sub_cancel_left, ← Nat.add_assoc]
      by_cases hk : k < values.length
      · rw [if_pos (by omega), append_at?_new hs hroom hk]
      · rw [if_neg (by omega), List.getElem?_eq_none (by omega)]
  · have hlt := Nat.lt_of_not_le hroom
    rw [append_of_lt hlt, elems, newSlice_arrayOf]
    simp only [newSlice, Nat.zero_add, List.extract_toArray, List.extract_eq_take_drop,
      List.drop_zero, Nat.sub_zero]
    refine List.take_left' ?_
    rw [List.length_append, length_elems hs]

/-- **Appending to a slice.** -/
theorem appended (hs : s.Within h) (values : List Value) :
    h.Appended s values (h.append s values).1 (h.append s values).2 where
  elems := append_elems hs values
  len_le := (append_within hs values).len_le
  kept := append_kept hs values
  shared hroom := by
    refine ⟨?_, ?_, fun array position hout => append_at?_of_le hroom hout⟩
    · rw [append_of_le hroom]
    · rw [append_of_le hroom]
  moved hroom := by
    refine ⟨?_, ?_, ?_, fun array harray => append_arrays_of_lt hroom harray⟩
    · rw [append_of_lt hroom]
      rfl
    · rw [append_of_lt hroom, newSlice]
      dsimp only
      rw [length_grown hs values]
      omega
    · rw [append_of_lt hroom, newSlice_arrayOf]
      rfl

/-! ### Histories -/

/-- **Every slice that has been handed out lies within its array.** -/
theorem Issued.within (hissued : Issued h ss) : ∀ s ∈ ss, s.Within h := by
  induction hissued with
  | none => exact List.forall_mem_nil _
  | @maps h h' ss past same ih =>
      refine fun s hs => ⟨?_, (ih s hs).len_le, ?_⟩
      · rw [same]
        exact (ih s hs).array_lt
      · rw [arrayOf, same]
        exact (ih s hs).room
  | @make h ss len cap zero past ih =>
      have hlen : len ≤ (Array.replicate (max cap len) zero).size := by
        rw [Array.size_replicate]
        exact Nat.le_max_right _ _
      exact List.forall_mem_cons.2 ⟨h.newSlice_within hlen,
        fun s hs => (h.newSlice_grows _ _).within (ih s hs)⟩
  | @ofValues h ss values past ih =>
      exact List.forall_mem_cons.2 ⟨h.newSlice_within (Nat.le_of_eq rfl),
        fun s hs => (h.newSlice_grows _ _).within (ih s hs)⟩
  | set past known stored ih => exact fun s hs => (setElem_grows stored).within (ih s hs)
  | @append h ss s values past known ih =>
      exact List.forall_mem_cons.2 ⟨append_within (ih s known) values,
        fun t ht => (h.append_grows s values).within (ih t ht)⟩

/-- **Slices are windows, and appending respects them.**  After any history the window of every
slice lies in its array, and all uses of the slice stay there.  Appending to it gives a slice that
is known from then on and reads as `Appended` says; if there is no room left, then no slice has the
array of the new one, and none of them changes. -/
theorem Issued.windows (hissued : Issued h ss) :
    (∀ s ∈ ss, s.start + s.len ≤ s.start + s.cap ∧ s.start + s.cap ≤ (h.arrayOf s).size ∧
      h.Reaches s) ∧
    ∀ s ∈ ss, ∀ values, ∃ t h', h.append s values = (t, h') ∧ Issued h' (t :: ss) ∧
      h.Appended s values t h' ∧
      (s.cap < s.len + values.length → ∀ u ∈ ss, u.array ≠ t.array ∧ h'.elems u = h.elems u) := by
  refine ⟨fun s hs => ?_, fun s hs values =>
    ⟨(h.append s values).1, (h.append s values).2, rfl, hissued.append values hs, ?_⟩⟩
  · have hwithin := hissued.within s hs
    exact ⟨Nat.add_le_add_left hwithin.len_le s.start, hwithin.room, reaches hwithin⟩
  · have happended := appended (hissued.within s hs) values
    refine ⟨happended, fun hroom u hu => ?_⟩
    obtain ⟨hfresh, -, -, hsame⟩ := happended.moved hroom
    have hwithin := hissued.within u hu
    refine ⟨fun heq => ?_, ?_⟩
    · rw [hfresh] at heq
      exact Nat.ne_of_lt hwithin.array_lt heq
    · refine elems_congr hwithin ((h.append_grows s values).within hwithin) fun i _ => ?_
      rw [at?, at?, hsame u.array hwithin.array_lt]

/-- Two windows on one array: `make` with length one and room for four, and one more element. -/
def overlapping : Heap :=
  ⟨#[#[.int 0, .int 7, .int 0, .int 0]], #[]⟩

/-- Both windows lie in the array.  Three more elements after the longer one do not fit behind it,
so they go to a new array with room for eight, and the old one stays as it is. -/
theorem overlapping_windows :
    Issued overlapping [⟨0, 0, 2, 4⟩, ⟨0, 0, 1, 4⟩] ∧ overlapping.Reaches ⟨0, 0, 2, 4⟩ ∧
      ∃ h', overlapping.append ⟨0, 0, 2, 4⟩ [.int 1, .int 2, .int 3] = (⟨1, 0, 5, 8⟩, h') ∧
        h'.elems ⟨1, 0, 5, 8⟩ = [.int 0, .int 7, .int 1, .int 2, .int 3] ∧
        h'.elems ⟨0, 0, 1, 4⟩ = [.int 0] := by
  have hissued : Issued overlapping [⟨0, 0, 2, 4⟩, ⟨0, 0, 1, 4⟩] :=
    .append [.int 7] (.make 1 4 (.int 0) .none) List.mem_cons_self
  obtain ⟨hreach, happend⟩ := hissued.windows
  obtain ⟨t, h', heq, -, hthis, hothers⟩ :=
    happend ⟨0, 0, 2, 4⟩ List.mem_cons_self [.int 1, .int 2, .int 3]
  have ht : t = ⟨1, 0, 5, 8⟩ := (congrArg Prod.fst heq).symm
  subst ht
  refine ⟨hissued, (hreach _ List.mem_cons_self).2.2, h', heq, hthis.elems, ?_⟩
  exact (hothers (by decide) ⟨0, 0, 1, 4⟩ (by decide)).2

end Heap

end ScriptCore
