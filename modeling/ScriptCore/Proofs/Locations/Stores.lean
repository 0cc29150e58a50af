import ScriptCore.Proofs.Assignment.Together
import ScriptCore.Proofs.Locations.Cells

/-!
# Laws of locations

A target and a key address a part of what a cell holds: a variable, an entry of a map or an element
of an array, or a field of one of these, a field of that, and so on.  Loading reads the part, and a
store that succeeds writes the value with the part replaced to the cell (`load_eq`, `store_ok`).

So loading gives what was stored; storing what was loaded changes nothing, except that it creates
the entry of a map if there was none; a store changes nothing beside the part; and a store that
fails changes nothing.

Structs are values.  A struct that has been copied is in another cell or is not in the machine at
all, so the third of these laws says that a store does not change it.

Main statement: `Target.store_laws`.
-/

namespace ScriptCore

/-- A computation on values that succeeds. -/
theorem Run.check_ok {α : Type} {e : Except EvalError α} {a : α} {m m' : Machine} :
    Run.check e m = .ok a m' ↔ e = .ok a ∧ m' = m := by
  constructor
  · intro h
    cases e with
    | error e => cases h
    | ok b =>
        cases h
        exact ⟨rfl, rfl⟩
  · rintro ⟨rfl, rfl⟩
    rfl

/-- Only a struct has fields. -/
theorem structFields_ok {v : Value} {fs : List Value} (h : structFields v = .ok fs) :
    v = .struct fs := by
  cases v <;> cases h
  rfl

namespace Target

/-- The cell that is addressed.  There is none for a nil map, for a map without a key or with a key
that has no form, and for an index that is out of range. -/
def cell? : Target → Option Value → Option Cell
  | slot r s, _ => some (.slot r s)
  | map ref, some key => (MapKey.ofValue key).toOption.map (.entry ref)
  | map _, none | nilMap, _ => none
  | slice s, key => (Heap.offset s (keyIndex key)).toOption.map (.element s.array)
  | field base key _ _, _ => base.cell? key

/-- The way down from what the cell holds to the part that is addressed. -/
def path : Target → List Nat
  | field base _ index _ => base.path ++ [index]
  | _ => []

/-- What is read where a map has no entry. -/
def absent : Target → Value → Value
  | field base _ _ zero, _ => base.absent zero
  | _, zero => zero

/-- The value that the part belongs to. -/
def whole (m : Machine) : Target → Option Value → Value → Except EvalError Value
  | slot r s, _, _ => .ok ((m.record r).get s)
  | map ref, some key, zero => (m.heap.lookup ref key).map fun found => found.getD zero
  | map _, none, zero | nilMap, _, zero => .ok zero
  | slice s, key, _ => m.heap.getElem s (keyIndex key)
  | field base key _ zero, _, _ => base.whole m key zero

/-- A target of a machine: its record, its map and all elements of its slice are there. -/
def Stands (m : Machine) : Target → Prop
  | slot r _ => r < m.records.size
  | map ref => ref < m.heap.maps.size
  | nilMap => True
  | slice s => s.start + s.len ≤ (m.heap.arrayOf s).size
  | field base _ _ _ => base.Stands m

/-- Two targets with keys address different cells, or parts of one of which neither is in the other;
then a missing entry is the same to both. -/
def Apart (t : Target) (key : Option Value) (t' : Target) (key' : Option Value) : Prop :=
  t.cell? key ≠ t'.cell? key' ∨
    ¬t.path <+: t'.path ∧ ¬t'.path <+: t.path ∧ t.absent .nil = t'.absent .nil

variable {m m' : Machine} {t t' : Target} {key key' : Option Value} {zero v : Value} {c : Cell}

/-- The entry of a map under a key that has a form. -/
theorem cell?_map_iff {ref : Nat} {key : Value} : (map ref).cell? (some key) = some c ↔
    ∃ k, MapKey.ofValue key = .ok k ∧ .entry ref k = c := by
  rw [cell?]
  cases MapKey.ofValue key <;> simp [Except.toOption]

/-- The element of an array that is an element of a slice. -/
theorem cell?_slice_iff {s : Slice} : (slice s).cell? key = some c ↔
    ∃ p, Heap.offset s (keyIndex key) = .ok p ∧ .element s.array p = c := by
  rw [cell?]
  cases Heap.offset s (keyIndex key) <;> simp [Except.toOption]

/-! ### Loading -/

/-- **Loading** reads a part of what is in the cell. -/
theorem load_eq (t : Target) (key : Option Value) (zero : Value) (m : Machine) :
    t.load key zero m = Run.check (t.whole m key zero >>= fun w => w.part t.path) m := by
  induction t generalizing key zero with
  | slot r s => rw [load_slot]; rfl
  | map ref =>
      cases key with
      | none => rfl
      | some key =>
          change (Run.check (m.heap.lookup ref key) >>= fun found => pure (found.getD zero)) m = _
          rw [whole]
          cases m.heap.lookup ref key <;> rfl
  | nilMap => rfl
  | slice s =>
      change Run.check (m.heap.getElem s (keyIndex key)) m = _
      rw [whole]
      cases m.heap.getElem s (keyIndex key) <;> rfl
  | field base key₁ index zero₁ ih =>
      have hfield (w : Value) :
          (do return fieldAt (← Run.check (structFields w)) index : Run Value) =
            Run.check (w.part [index]) := by
        cases w <;> rfl
      have hpath : (base.whole m key₁ zero₁ >>= fun w => w.part (base.path ++ [index])) =
          (base.whole m key₁ zero₁ >>= fun w => w.part base.path) >>= fun w => w.part [index] := by
        simp only [Value.part_append, bind_assoc]
      rw [load, whole, path, hpath]
      simp only [hfield]
      exact Run.check_bind (ih key₁ zero₁) _

/-- A value that is loaded is a part of what is in the cell. -/
theorem load_ok : t.load key zero m = .ok v m' ↔
    (t.whole m key zero >>= fun w => w.part t.path) = .ok v ∧ m' = m := by
  rw [load_eq, Run.check_ok]

/-! ### Storing -/

/-- **A store that succeeds** writes the value with the part replaced to the cell. -/
theorem store_ok {u : Unit} (h : t.store key v m = .ok u m') :
    ∃ c new, t.cell? key = some c ∧ m' = m.write c new ∧
      ∀ zero, ∃ old, t.whole m key zero = .ok old ∧ old.replace t.path v = some new := by
  induction t generalizing key v with
  | slot r s =>
      rw [store_slot] at h
      cases h
      exact ⟨.slot r s, v, rfl, rfl, fun _ => ⟨_, rfl, rfl⟩⟩
  | map ref =>
      cases key with
      | none => cases h
      | some key =>
          rw [store, Run.insertEntry] at h
          obtain ⟨k, m₁, hcheck, hinsert⟩ := run_bind_ok h
          obtain ⟨hk, rfl⟩ := Run.check_ok.1 hcheck
          cases hinsert
          refine ⟨.entry ref k, v, cell?_map_iff.2 ⟨k, hk, rfl⟩, rfl, fun zero =>
            ⟨((m₁.heap.entries ref).find? k).getD zero, ?_, rfl⟩⟩
          rw [whole, Heap.lookup, hk]
          rfl
  | nilMap => cases h
  | slice s =>
      rw [store, Run.setElem] at h
      obtain ⟨p, m₁, hcheck, hset⟩ := run_bind_ok h
      obtain ⟨hp, rfl⟩ := Run.check_ok.1 hcheck
      cases hset
      refine ⟨.element s.array p, v, cell?_slice_iff.2 ⟨p, hp, rfl⟩, rfl, fun zero =>
        ⟨(m₁.heap.arrayOf s)[p]?.getD .nil, ?_, rfl⟩⟩
      rw [whole, Heap.getElem, hp]
      rfl
  | field base key₁ index zero₁ ih =>
      rw [store] at h
      obtain ⟨w, m₁, hload, hrest⟩ := run_bind_ok h
      obtain ⟨hpart, rfl⟩ := load_ok.1 hload
      obtain ⟨fs, m₂, hcheck, hbase⟩ := run_bind_ok hrest
      obtain ⟨hfields, rfl⟩ := Run.check_ok.1 hcheck
      obtain rfl := structFields_ok hfields
      split at hbase
      · rename_i hindex
        obtain ⟨c, new, hc, hm', hnew⟩ := ih hbase
        refine ⟨c, new, hc, hm', fun _ => ?_⟩
        obtain ⟨old, hold, hreplace⟩ := hnew zero₁
        rw [hold] at hpart
        exact ⟨old, hold, Value.replace_field_iff.2 ⟨fs, hpart, hindex, hreplace⟩⟩
      · cases hbase

/-- A store succeeds if there is a cell and the part is there. -/
theorem store_of_replace {old new : Value} (hc : t.cell? key = some c)
    (hold : t.whole m key zero = .ok old) (hnew : old.replace t.path v = some new) :
    ∃ m', t.store key v m = .ok () m' := by
  induction t generalizing key v zero with
  | slot r s => exact ⟨m.stored r s v, by rw [store_slot]; rfl⟩
  | map ref =>
      cases key with
      | none => cases hc
      | some key =>
          obtain ⟨k, hk, rfl⟩ := cell?_map_iff.1 hc
          exact ⟨m.write (.entry ref k) v, by rw [store, Run.insertEntry, hk]; rfl⟩
  | nilMap => cases hc
  | slice s =>
      obtain ⟨p, hp, rfl⟩ := cell?_slice_iff.1 hc
      exact ⟨m.write (.element s.array p) v, by rw [store, Run.setElem, hp]; rfl⟩
  | field base key₁ index zero₁ ih =>
      obtain ⟨fs, hpart, hindex, hreplace⟩ := Value.replace_field_iff.1 hnew
      obtain ⟨m', hm'⟩ := ih hc hold hreplace
      have hload : base.load key₁ zero₁ m = .ok (.struct fs) m := by
        refine load_ok.2 ⟨?_, rfl⟩
        rw [show base.whole m key₁ zero₁ = .ok old from hold]
        exact hpart
      refine ⟨m', ?_⟩
      rw [store, Run.bind_result hload]
      change (if index < fs.length then base.store key₁ (.struct (fs.set index v))
        else Run.fail (.indexOutOfRange index fs.length)) m = _
      rw [if_pos hindex, hm']

/-- **A store that fails** changes nothing. -/
theorem store_failed {e : Failure} (h : t.store key v m = .error e m') : m' = m := by
  induction t generalizing key v with
  | slot r s =>
      rw [store_slot] at h
      cases h
  | map ref =>
      cases key with
      | none =>
          cases h
          rfl
      | some key =>
          rw [store, Run.insertEntry] at h
          cases hk : MapKey.ofValue key with
          | error e =>
              rw [hk] at h
              cases h
              rfl
          | ok k =>
              rw [hk] at h
              cases h
  | nilMap =>
      cases h
      rfl
  | slice s =>
      rw [store, Run.setElem] at h
      cases hp : Heap.offset s (keyIndex key) with
      | error e =>
          rw [hp] at h
          cases h
          rfl
      | ok p =>
          rw [hp] at h
          cases h
  | field base key₁ index zero₁ ih =>
      rw [store] at h
      rcases Run.still_cases (base.load_still key₁ zero₁ m) with ⟨w, hw⟩ | ⟨e', he⟩
      · rw [Run.bind_result hw] at h
        cases hfields : structFields w with
        | error e' =>
            rw [hfields] at h
            cases h
            rfl
        | ok fs =>
            rw [hfields] at h
            change (if index < fs.length then base.store key₁ (.struct (fs.set index v))
              else Run.fail (.indexOutOfRange index fs.length)) m = _ at h
            split at h
            · exact ih h
            · cases h
              rfl
      · rw [Run.bind_failed he] at h
        cases h
        rfl

/-! ### Cells of targets -/

/-- The cell of a target of a machine is there. -/
theorem Stands.room (h : t.Stands m) (hc : t.cell? key = some c) : m.Room c := by
  induction t generalizing key with
  | slot r s =>
      cases hc
      exact h
  | map ref =>
      cases key with
      | none => cases hc
      | some key =>
          obtain ⟨k, -, rfl⟩ := cell?_map_iff.1 hc
          exact h
  | nilMap => cases hc
  | slice s =>
      obtain ⟨p, hp, rfl⟩ := cell?_slice_iff.1 hc
      exact Nat.lt_of_lt_of_le (Heap.offset_lt hp).2 h
  | field base key₁ index zero₁ ih => exact ih h hc

/-- The value that the part belongs to is in the cell, or it is what a missing entry reads as. -/
theorem whole_of_cell (hroom : m.Room c) (hc : t.cell? key = some c) :
    t.whole m key zero = .ok ((m.held c).getD (t.absent zero)) := by
  induction t generalizing key zero with
  | slot r s =>
      cases hc
      rw [whole, Machine.held, Machine.record, Array.getElem?_eq_getElem hroom]
      rfl
  | map ref =>
      cases key with
      | none => cases hc
      | some key =>
          obtain ⟨k, hk, rfl⟩ := cell?_map_iff.1 hc
          rw [whole, Heap.lookup, hk]
          rfl
  | nilMap => cases hc
  | slice s =>
      obtain ⟨p, hp, rfl⟩ := cell?_slice_iff.1 hc
      have hsome : (m.heap.arrayOf s)[p]? = some _ := Array.getElem?_eq_getElem hroom
      have hheld : m.held (.element s.array p) = (m.heap.arrayOf s)[p]? := rfl
      rw [whole, Heap.getElem, hp, hheld, hsome]
      change Except.ok (((m.heap.arrayOf s)[p]?).getD .nil) = _
      rw [hsome]
      rfl
  | field base key₁ index zero₁ ih => exact ih hc

/-- Without a cell, the machine does not matter. -/
theorem whole_of_no_cell (hc : t.cell? key = none) (m m' : Machine) (zero : Value) :
    t.whole m' key zero = t.whole m key zero := by
  induction t generalizing key zero with
  | slot r s => cases hc
  | map ref =>
      cases key with
      | none => rfl
      | some key =>
          rw [cell?] at hc
          rw [whole, whole, Heap.lookup, Heap.lookup]
          cases hk : MapKey.ofValue key with
          | error e => rfl
          | ok k =>
              rw [hk] at hc
              cases hc
  | nilMap => rfl
  | slice s =>
      rw [cell?] at hc
      rw [whole, whole, Heap.getElem, Heap.getElem]
      cases hp : Heap.offset s (keyIndex key) with
      | error e => rfl
      | ok p =>
          rw [hp] at hc
          cases hc
  | field base key₁ index zero₁ ih => exact ih hc zero₁

/-- What a missing entry reads as does not depend on who asks for a part of it. -/
theorem absent_of_path (h : t.path ≠ []) (zero zero' : Value) : t.absent zero = t.absent zero' := by
  cases t with
  | field base key₁ index zero₁ => rfl
  | _ => exact absurd rfl h

/-- A target of a machine is one of a machine that differs in a cell. -/
theorem Stands.changes (h : t.Stands m) (hm : m.ChangesOnly c m') : t.Stands m' := by
  induction t with
  | slot r s =>
      rw [Stands, hm.records]
      exact h
  | map ref =>
      rw [Stands, hm.maps]
      exact h
  | nilMap => trivial
  | slice s =>
      have hsize : (m'.heap.arrayOf s).size = (m.heap.arrayOf s).size := by
        have harray := hm.arrays s.array
        unfold Heap.arrayOf
        cases ha : m.heap.arrays[s.array]? <;> cases ha' : m'.heap.arrays[s.array]? <;>
          simp [ha, ha'] at harray ⊢
        exact harray
      rw [Stands, hsize]
      exact h
  | field base key₁ index zero₁ ih => exact ih h

/-! ### The laws -/

/-- **Loading gives what was stored.** -/
theorem load_stored {u : Unit} (hstands : t.Stands m) (h : t.store key v m = .ok u m')
    (zero : Value) : t.load key zero m' = .ok v m' := by
  obtain ⟨c, new, hc, rfl, hnew⟩ := store_ok h
  have hroom := hstands.room hc
  obtain ⟨old, -, hreplace⟩ := hnew zero
  have hroom' := (hstands.changes (m.write_changesOnly c new)).room hc
  refine load_ok.2 ⟨?_, rfl⟩
  rw [whole_of_cell hroom' hc, Machine.held_write_self hroom]
  exact Value.part_replace hreplace

/-- **Storing what was loaded changes nothing**, but it creates the entry of a map that had none. -/
theorem store_loaded {u : Unit} (hstands : t.Stands m) (hsorted : m.heap.Sorted)
    (hload : t.load key zero m = .ok v m) (h : t.store key v m = .ok u m') :
    ∃ c, t.cell? key = some c ∧ m.ChangesOnly c m' ∧ (m.Has c → m' = m) ∧
      (m'.held c = m.held c ∨ m.held c = none ∧ m'.held c = some (t.absent zero) ∧
        ∃ ref k, c = .entry ref k) := by
  obtain ⟨c, new, hc, rfl, hnew⟩ := store_ok h
  have hroom := hstands.room hc
  obtain ⟨old, hold, hreplace⟩ := hnew zero
  have hpart := (load_ok.1 hload).1
  rw [hold] at hpart
  obtain rfl := Value.replace_part hpart hreplace
  rw [whole_of_cell hroom hc, Except.ok.injEq] at hold
  refine ⟨c, hc, m.write_changesOnly c new, fun hhas => ?_, ?_⟩
  · refine Machine.write_held hsorted hhas ?_
    obtain ⟨w, hw⟩ : ∃ w, m.held c = some w := hhas.held
    rw [hw, Option.getD_some] at hold
    rw [hw, hold]
  · rw [Machine.held_write_self hroom]
    cases hheld : m.held c with
    | some w =>
        rw [hheld, Option.getD_some] at hold
        exact .inl (by rw [hold])
    | none =>
        rw [hheld, Option.getD_none] at hold
        refine .inr ⟨rfl, by rw [hold], ?_⟩
        rcases Machine.room_cases hroom with ⟨w, hw⟩ | hentry
        · rw [hheld] at hw
          cases hw
        · exact hentry

/-- A load gives the same on two machines on which the part is the same. -/
theorem load_same (h : (t.whole m key zero >>= fun w => w.part t.path) =
      t.whole m' key zero >>= fun w => w.part t.path) : (t.load key zero).SameOn m m' := by
  unfold Run.SameOn
  rw [load_eq, load_eq, ← h]
  exact Run.SameOn.check _

/-- **A store changes nothing that is apart.** -/
theorem load_apart {u : Unit} (h : t.store key v m = .ok u m') (hstands' : t'.Stands m)
    (hapart : t.Apart key t' key') (zero : Value) : (t'.load key' zero).SameOn m m' := by
  obtain ⟨c, new, hc, rfl, hnew⟩ := store_ok h
  refine load_same ?_
  cases hc' : t'.cell? key' with
  | none => rw [whole_of_no_cell hc' m (m.write c new)]
  | some c' =>
      have hroom' := hstands'.room hc'
      rw [whole_of_cell hroom' hc',
        whole_of_cell ((hstands'.changes (m.write_changesOnly c new)).room hc') hc']
      by_cases hcell : c' = c
      · subst hcell
        obtain hne | ⟨hpath, hpath', habsent⟩ := hapart
        · exact absurd (hc.trans hc'.symm) hne
        · have hinner : t.path ≠ [] := fun hnil => hpath (hnil ▸ List.nil_prefix)
          have hinner' : t'.path ≠ [] := fun hnil => hpath' (hnil ▸ List.nil_prefix)
          obtain ⟨old, hold, hreplace⟩ := hnew .nil
          rw [whole_of_cell hroom' hc, Except.ok.injEq] at hold
          rw [Machine.held_write_self hroom', absent_of_path hinner' zero .nil, ← habsent, hold]
          exact (Value.part_replace_apart hreplace hpath hpath').symm
      · rw [Machine.held_write_ne hcell]

/-- **The laws of locations**, for a target of the machine, every key and every value: what was
stored is loaded; storing what was loaded changes nothing, but it may create an entry; a store
changes one cell, and in it only the part that is addressed; a store succeeds exactly when there is
a cell with such a part in it or in what it reads as, and one that fails changes nothing. -/
theorem store_laws (t : Target) (key : Option Value) (v : Value) (m : Machine) :
    (t.Stands m → ∀ m', t.store key v m = .ok () m' → ∀ zero, t.load key zero m' = .ok v m') ∧
    (t.Stands m → m.heap.Sorted → ∀ zero m₁ m', t.load key zero m = .ok v m₁ →
      t.store key v m₁ = .ok () m' → ∃ c, t.cell? key = some c ∧ m.ChangesOnly c m' ∧
        (m.Has c → m' = m) ∧ (m'.held c = m.held c ∨ m.held c = none ∧
          m'.held c = some (t.absent zero) ∧ ∃ ref k, c = .entry ref k)) ∧
    (∀ m', t.store key v m = .ok () m' →
      (∃ c, t.cell? key = some c ∧ m.ChangesOnly c m') ∧
        (m.heap.Sorted → m'.heap.Sorted) ∧ ∀ t' : Target, t'.Stands m → t'.Stands m' ∧
          ∀ key' zero, t.Apart key t' key' → (t'.load key' zero).SameOn m m') ∧
    ((∃ m', t.store key v m = .ok () m') ↔ (t.cell? key).isSome ∧
      ∃ old, t.whole m key .nil = .ok old ∧ (old.replace t.path v).isSome) ∧
    ∀ e m', t.store key v m = .error e m' → m' = m := by
  refine ⟨fun hstands m' h => load_stored hstands h, fun hstands hsorted zero m₁ m' hload h => ?_,
    fun m' h => ?_, ⟨?_, ?_⟩, fun e m' h => store_failed h⟩
  · obtain rfl := (load_ok.1 hload).2
    exact store_loaded hstands hsorted hload h
  · obtain ⟨c, new, hc, hm', -⟩ := store_ok h
    have hchanges : m.ChangesOnly c m' := hm' ▸ m.write_changesOnly c new
    refine ⟨⟨c, hc, hchanges⟩, fun hsorted => hm' ▸ Machine.write_sorted hsorted c new,
      fun t' hstands' => ⟨hstands'.changes hchanges, fun key' zero hapart => ?_⟩⟩
    exact load_apart h hstands' hapart zero
  · rintro ⟨m', h⟩
    obtain ⟨c, new, hc, -, hnew⟩ := store_ok h
    obtain ⟨old, hold, hreplace⟩ := hnew .nil
    exact ⟨by rw [hc]; rfl, old, hold, by rw [hreplace]; rfl⟩
  · rintro ⟨hcell, old, hold, hreplace⟩
    obtain ⟨c, hc⟩ := Option.isSome_iff_exists.1 hcell
    obtain ⟨new, hnew⟩ := Option.isSome_iff_exists.1 hreplace
    exact store_of_replace hc hold hnew

namespace Sample

/-- A machine with a map that has the entry `7: {1, {2, 3}}`. -/
def machine : Machine :=
  ⟨⟨#[], #[[(.int 7, .struct [.int 1, .struct [.int 2, .int 3]])]]⟩, #[⟨#[.nil], none⟩], #[], "", 0⟩

/-- The entry of the map under a key, a struct in which the second field is a struct. -/
def inner (key : Int64) : Target :=
  .field (.map 0) (some (.int key)) 1 (.struct [.int 0, .struct [.int 0, .int 0]])

/-- A field of the struct in the entry. -/
def leaf (key : Int64) (index : Nat) : Target :=
  .field (inner key) none index (.struct [.int 0, .int 0])

/-- The machine after a store. -/
def stored (t : Target) (v : Value) : Machine :=
  Run.after (t.store none v) machine

/-- Fields of structs in entries of a map: one that is stored in and the one beside it, one of an
entry that is created by storing what was loaded, and one that is not there. -/
theorem leaf_laws :
    ((leaf 7 0).Stands machine ∧ machine.heap.Sorted) ∧
      (∀ zero, (leaf 7 0).load none zero (stored (leaf 7 0) (.int 9)) =
        .ok (.int 9) (stored (leaf 7 0) (.int 9))) ∧
      ((leaf 7 1).load none .nil).SameOn machine (stored (leaf 7 0) (.int 9)) ∧
      (∃ c, (leaf 8 0).cell? none = some c ∧ machine.ChangesOnly c (stored (leaf 8 0) (.int 0))) ∧
      stored (leaf 7 2) (.int 9) = machine := by
  have hsorted : machine.heap.Sorted := by
    intro ref
    cases ref with
    | zero => exact List.pairwise_singleton _ _
    | succ ref => exact List.Pairwise.nil
  have hstands : ∀ key index, (leaf key index).Stands machine := fun _ _ => Nat.zero_lt_one
  have hapart : (leaf 7 0).Apart none (leaf 7 1) none :=
    .inr ⟨by decide, by decide, rfl⟩
  obtain ⟨hloaded, -, hchanges, -⟩ := store_laws (leaf 7 0) none (.int 9) machine
  obtain ⟨-, hback, -, -⟩ := store_laws (leaf 8 0) none (.int 0) machine
  obtain ⟨-, -, -, -, hfailed⟩ := store_laws (leaf 7 2) none (.int 9) machine
  obtain ⟨c, hc, hcreated, -⟩ := hback (hstands 8 0) hsorted .nil machine _ (by rfl) (by rfl)
  exact ⟨⟨hstands 7 0, hsorted⟩, hloaded (hstands 7 0) _ (by rfl),
    ((hchanges _ (by rfl)).2.2 _ (hstands 7 1)).2 none .nil hapart, ⟨c, hc, hcreated⟩,
    hfailed (.error (.indexOutOfRange 2 2)) _ (by rfl)⟩

end Sample

end Target

end ScriptCore
