import ScriptCore.Proofs.Assignment.Apart
import ScriptCore.Proofs.Values.Keys

/-!
# Cells of a machine and parts of a value

A machine keeps values in cells: slots of records, entries of maps and elements of arrays.  Writing
to a cell changes what it holds and nothing else.

A part of a struct is found by going down from field to field.  Replacing a part gives a struct that
has the new part in its place, and the parts beside it as they were.

Main statements: `Machine.held_write_self`, `Machine.held_write_ne` and `Machine.write_held` for
cells, `Value.part_replace`, `Value.part_replace_apart` and `Value.replace_part` for parts.
-/

namespace ScriptCore

/-! ### Parts of a value -/

namespace Value

/-- The part of a value that is found by going down from field to field. -/
def part : Value → List Nat → Except EvalError Value
  | v, [] => .ok v
  | v, i :: path => structFields v >>= fun fs => (fieldAt fs i).part path

/-- The value with a part replaced, if there is such a part. -/
def replace : Value → List Nat → Value → Option Value
  | _, [], w => some w
  | struct fs, i :: path, w =>
    if i < fs.length then ((fieldAt fs i).replace path w).map fun v => struct (fs.set i v) else none
  | _, _ :: _, _ => none

variable {v w new : Value} {fs : List Value} {i : Nat} {path other : List Nat}

/-- A field that has been replaced. -/
theorem fieldAt_set_self (hi : i < fs.length) (w : Value) : fieldAt (fs.set i w) i = w := by
  rw [fieldAt, List.getElem?_set_self hi, Option.getD_some]

/-- Other fields. -/
theorem fieldAt_set_ne {j : Nat} (hne : j ≠ i) (w : Value) :
    fieldAt (fs.set i w) j = fieldAt fs j := by
  rw [fieldAt, fieldAt, List.getElem?_set_ne (Ne.symm hne)]

/-- A field that is replaced by itself. -/
theorem set_fieldAt (hi : i < fs.length) : fs.set i (fieldAt fs i) = fs := by
  rw [fieldAt, List.getElem?_eq_getElem hi, Option.getD_some, List.set_getElem_self]

/-- A part of a field is a part of the struct. -/
theorem part_struct (fs : List Value) (i : Nat) (path : List Nat) :
    (struct fs).part (i :: path) = (fieldAt fs i).part path :=
  rfl

/-- A part of a part. -/
theorem part_append (v : Value) (path more : List Nat) :
    v.part (path ++ more) = v.part path >>= fun w => w.part more := by
  induction path generalizing v with
  | nil => rfl
  | cons i path ih =>
      rw [List.cons_append, part, part, bind_assoc]
      exact congrArg _ (funext fun fs => ih (fieldAt fs i))

/-- Only structs have parts that can be replaced. -/
theorem replace_cons (h : v.replace (i :: path) w = some new) :
    ∃ fs part, v = struct fs ∧ i < fs.length ∧ (fieldAt fs i).replace path w = some part ∧
      new = struct (fs.set i part) := by
  cases v with
  | struct fs =>
      rw [replace] at h
      split at h
      · obtain ⟨part, hpart, hnew⟩ := Option.map_eq_some_iff.1 h
        exact ⟨fs, part, rfl, ‹_›, hpart, hnew.symm⟩
      · cases h
  | _ => cases h

/-- Replacing a field of a part is replacing the part. -/
theorem replace_field_iff : v.replace (path ++ [i]) w = some new ↔ ∃ fs,
    v.part path = .ok (struct fs) ∧ i < fs.length ∧
      v.replace path (struct (fs.set i w)) = some new := by
  induction path generalizing v new with
  | nil =>
      constructor
      · intro h
        obtain ⟨fs, part, rfl, hi, hreplace, rfl⟩ := replace_cons h
        cases hreplace
        exact ⟨fs, rfl, hi, rfl⟩
      · rintro ⟨fs, hpart, hi, h⟩
        cases hpart
        rw [List.nil_append, replace, if_pos hi]
        exact h
  | cons j path ih =>
      rw [List.cons_append]
      constructor
      · intro h
        obtain ⟨gs, part, rfl, hj, hreplace, rfl⟩ := replace_cons h
        obtain ⟨fs, hpart, hi, hset⟩ := ih.1 hreplace
        exact ⟨fs, hpart, hi, by rw [replace, if_pos hj, hset, Option.map_some]⟩
      · rintro ⟨fs, hpart, hi, h⟩
        obtain ⟨gs, part, rfl, hj, hreplace, rfl⟩ := replace_cons h
        rw [part_struct] at hpart
        rw [replace, if_pos hj, ih.2 ⟨fs, hpart, hi, hreplace⟩, Option.map_some]

/-- **The part that has been put in is found.** -/
theorem part_replace (h : v.replace path w = some new) : new.part path = .ok w := by
  induction path generalizing v new with
  | nil =>
      cases h
      rfl
  | cons i path ih =>
      obtain ⟨fs, part, rfl, hi, hreplace, rfl⟩ := replace_cons h
      rw [part_struct, fieldAt_set_self hi]
      exact ih hreplace

/-- **Parts beside the one that is replaced stay.** -/
theorem part_replace_apart (h : v.replace path w = some new) (hpath : ¬path <+: other)
    (hother : ¬other <+: path) : new.part other = v.part other := by
  induction path generalizing v new other with
  | nil => exact absurd List.nil_prefix hpath
  | cons i path ih =>
      obtain ⟨fs, part, rfl, hi, hreplace, rfl⟩ := replace_cons h
      cases other with
      | nil => exact absurd List.nil_prefix hother
      | cons j other =>
          rw [part_struct, part_struct]
          by_cases hji : j = i
          · subst hji
            rw [fieldAt_set_self hi]
            exact ih hreplace (fun hp => hpath (List.cons_prefix_cons.2 ⟨rfl, hp⟩))
              fun hp => hother (List.cons_prefix_cons.2 ⟨rfl, hp⟩)
          · rw [fieldAt_set_ne hji]

/-- **Replacing a part by itself changes nothing.** -/
theorem replace_part (hpart : v.part path = .ok w) (h : v.replace path w = some new) :
    new = v := by
  induction path generalizing v new with
  | nil =>
      cases hpart
      exact (Option.some.inj h).symm
  | cons i path ih =>
      obtain ⟨fs, part, rfl, hi, hreplace, rfl⟩ := replace_cons h
      rw [part_struct] at hpart
      rw [ih hpart hreplace, set_fieldAt hi]

end Value

/-! ### Cells of a machine -/

/-- A place in a machine where one value is kept. -/
inductive Cell where
  | slot (record slot : Nat)
  | entry (ref : Nat) (key : MapKey)
  | element (array position : Nat)

namespace Machine

/-- What a cell holds, if there is something in it; a record has nil beyond its last slot. -/
def held (m : Machine) : Cell → Option Value
  | .slot r s => m.records[r]?.map fun rec => rec.get s
  | .entry ref key => (m.heap.entries ref).find? key
  | .element array position => (m.heap.arrays[array]?.getD #[])[position]?

/-- The machine with a value written to a cell. -/
def write (m : Machine) : Cell → Value → Machine
  | .slot r s, v => m.stored r s v
  | .entry ref key, v => { m with heap := m.heap.insertKey ref key v }
  | .element array position, v => { m with heap := m.heap.setAt array position v }

/-- There is room for the cell: the record, the map or the element exists. -/
def Room (m : Machine) : Cell → Prop
  | .slot r _ => r < m.records.size
  | .entry ref _ => ref < m.heap.maps.size
  | .element array position => position < (m.heap.arrays[array]?.getD #[]).size

/-- The cell itself exists: besides, the slot or the entry does. -/
def Has (m : Machine) : Cell → Prop
  | .slot r s => r < m.records.size ∧ s < (m.record r).slots.size
  | .entry ref key => ref < m.heap.maps.size ∧ ((m.heap.entries ref).find? key).isSome
  | .element array position => position < (m.heap.arrays[array]?.getD #[]).size

/-- A machine that differs in one cell: all other cells hold what they held, and there are the same
records, arrays and maps as before. -/
structure ChangesOnly (c : Cell) (m m' : Machine) : Prop where
  held : ∀ c', c' ≠ c → m'.held c' = m.held c'
  functions : m'.functions = m.functions
  output : m'.output = m.output
  depth : m'.depth = m.depth
  records : m'.records.size = m.records.size
  outer : ∀ r, (m'.record r).outer = (m.record r).outer
  maps : m'.heap.maps.size = m.heap.maps.size
  arrays : ∀ array : Nat,
    m'.heap.arrays[array]?.map Array.size = m.heap.arrays[array]?.map Array.size

variable {m m' : Machine} {c c' : Cell} {v : Value}

/-- A slot is in a record, and an element in an array. -/
theorem room_cases (h : m.Room c) : (∃ v, m.held c = some v) ∨ ∃ ref key, c = .entry ref key := by
  cases c with
  | slot r s =>
      refine .inl ⟨m.records[r].get s, ?_⟩
      rw [held, Array.getElem?_eq_getElem h, Option.map_some]
  | entry ref key => exact .inr ⟨ref, key, rfl⟩
  | element array position => exact .inl ⟨_, Array.getElem?_eq_getElem h⟩

/-- There is room for a cell that exists. -/
theorem Has.room (h : m.Has c) : m.Room c := by
  cases c with
  | slot r s => exact h.1
  | entry ref key => exact h.1
  | element array position => exact h

/-- A cell that exists holds something. -/
theorem Has.held (h : m.Has c) : ∃ v, m.held c = some v := by
  rcases room_cases h.room with hheld | ⟨ref, key, rfl⟩
  · exact hheld
  · exact Option.isSome_iff_exists.1 h.2

/-- An array with an element replaced. -/
theorem setAt_array (h : Heap) (array position : Nat) (v : Value) (other : Nat) :
    (h.setAt array position v).arrays[other]?.getD #[] =
      if array = other then (h.arrays[other]?.getD #[]).setIfInBounds position v
      else h.arrays[other]?.getD #[] := by
  rw [Heap.setAt, Array.getElem?_modify]
  split
  · cases h.arrays[other]? <;> rfl
  · rfl

/-- **A cell holds what has been written to it.** -/
theorem held_write_self (h : m.Room c) (v : Value) : (m.write c v).held c = some v := by
  cases c with
  | slot r s =>
      rw [held, write, stored, Array.getElem?_modify, if_pos rfl, Array.getElem?_eq_getElem h]
      exact congrArg some (Record.get_set_self _ s v)
  | entry ref key =>
      rw [held, write, Heap.entries_insertKey_self h]
      exact Entries.find?_insert_self _ key v
  | element array position =>
      rw [held, write, setAt_array, if_pos rfl, Array.getElem?_setIfInBounds_self_of_lt h]

/-- **All other cells hold what they held.** -/
theorem held_write_ne (hne : c' ≠ c) (v : Value) : (m.write c v).held c' = m.held c' := by
  cases c with
  | slot r s =>
      cases c' with
      | slot r' s' =>
          rw [held, held, write, stored, Array.getElem?_modify]
          split
          · rename_i heq
            subst heq
            have hs : s' ≠ s := fun heq => hne (by rw [heq])
            rw [Option.map_map]
            exact congrArg (m.records[r]?.map ·) (funext fun rec => Record.get_set_ne rec v hs)
          · rfl
      | _ => rfl
  | entry ref key =>
      cases c' with
      | entry ref' key' =>
          rw [held, held, write]
          by_cases href : ref' = ref
          · subst href
            have hkey : key' ≠ key := fun heq => hne (by rw [heq])
            rw [Heap.entries, Heap.entries, Heap.insertKey, Array.getElem?_modify, if_pos rfl]
            cases m.heap.maps[ref']? with
            | none => rfl
            | some es => exact es.find?_insert_ne v hkey
          · rw [Heap.entries_insertKey_ne href]
      | _ => rfl
  | element array position =>
      cases c' with
      | element array' position' =>
          rw [held, held, write, setAt_array]
          split
          · rename_i heq
            subst heq
            have hposition : position' ≠ position := fun heq => hne (by rw [heq])
            rw [Array.getElem?_setIfInBounds_ne (Ne.symm hposition)]
          · rfl
      | _ => rfl

/-- **A write changes one cell only.** -/
theorem write_changesOnly (m : Machine) (c : Cell) (v : Value) :
    m.ChangesOnly c (m.write c v) := by
  cases c with
  | slot r s =>
      exact ⟨fun _ hne => held_write_ne hne v, rfl, rfl, rfl, Array.size_modify ..,
        fun a => by
          rcases record_stored m r s v a with hrec | hrec
          · rw [write, hrec]
          · rw [write, hrec, Record.outer_set],
        rfl, fun _ => rfl⟩
  | entry ref key =>
      exact ⟨fun _ hne => held_write_ne hne v, rfl, rfl, rfl, rfl, fun _ => rfl,
        Array.size_modify .., fun _ => rfl⟩
  | element array position =>
      refine ⟨fun _ hne => held_write_ne hne v, rfl, rfl, rfl, rfl, fun _ => rfl, rfl, fun a => ?_⟩
      rw [write, Heap.setAt, Array.getElem?_modify]
      split
      · cases m.heap.arrays[a]? with
        | none => rfl
        | some xs => exact congrArg some Array.size_setIfInBounds
      · rfl

/-- Entries stay sorted. -/
theorem write_sorted (h : m.heap.Sorted) (c : Cell) (v : Value) : (m.write c v).heap.Sorted := by
  cases c with
  | slot r s => exact h
  | entry ref key => exact h.insertKey ref key v
  | element array position => exact h.of_maps rfl

/-- An element that is replaced by itself. -/
theorem setIfInBounds_self {α : Type} {xs : Array α} {i : Nat} {x : α} (h : xs[i]? = some x) :
    xs.setIfInBounds i x = xs := by
  obtain ⟨hi, rfl⟩ := Array.getElem?_eq_some_iff.1 h
  rw [Array.setIfInBounds, dif_pos hi, Array.set_getElem_self]

/-- An array is as it was if the element that is modified is. -/
theorem modify_eq_self {α : Type} {xs : Array α} {i : Nat} {f : α → α}
    (h : ∀ x, xs[i]? = some x → f x = x) : xs.modify i f = xs := by
  refine Array.ext_getElem? fun j => ?_
  rw [Array.getElem?_modify]
  split
  · rename_i heq
    subst heq
    cases hx : xs[i]? with
    | none => rfl
    | some x => exact congrArg some (h x hx)
  · rfl

/-- **Writing what a cell holds changes nothing**, if the cell exists. -/
theorem write_held (hsorted : m.heap.Sorted) (hhas : m.Has c) (h : m.held c = some v) :
    m.write c v = m := by
  cases c with
  | slot r s =>
      have hsame : m.records.modify r (fun rec => rec.set s v) = m.records := by
        refine modify_eq_self fun rec hrec => ?_
        rw [held, hrec, Option.map_some, Option.some.injEq] at h
        have hs : s < rec.slots.size := by
          have hslots := hhas.2
          rwa [record, hrec] at hslots
        have hslot : rec.slots[s]? = some v := by
          rw [← h, Record.get, Array.getElem?_eq_getElem hs, Option.getD_some]
        rw [Record.set, if_pos hs, setIfInBounds_self hslot]
      rw [write, stored, hsame]
  | entry ref key =>
      have hsame : m.heap.maps.modify ref (fun es => es.insert key v) = m.heap.maps := by
        refine modify_eq_self fun es hes => ?_
        have hentries : m.heap.entries ref = es := by rw [Heap.entries, hes, Option.getD_some]
        rw [held, hentries] at h
        exact Entries.insert_found (hentries ▸ hsorted ref) h
      rw [write, Heap.insertKey, hsame]
  | element array position =>
      have hsame : m.heap.arrays.modify array (fun xs => xs.setIfInBounds position v) =
          m.heap.arrays := by
        refine modify_eq_self fun xs hxs => ?_
        rw [held, hxs, Option.getD_some] at h
        exact setIfInBounds_self h
      rw [write, Heap.setAt, hsame]

end Machine

end ScriptCore
