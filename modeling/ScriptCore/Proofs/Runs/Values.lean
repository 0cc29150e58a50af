import ScriptCore.Proofs.Addressing.Parts
import ScriptCore.Machine.Eval

/-!
# Values that keep to given functions

Only the evaluation of a function literal and of a method value makes a function.  All other
computations on values give scalars or pass on what they were given: if the values and the heap
refer to none but allowed functions, so do the results and the heap afterwards.

Main statements: `binaryValues_only`, `Heap.Only.convert`, and one lemma for each operation of the
heap.
-/

namespace ScriptCore

variable {allowed : Nat → Prop}

mutual

/-- All functions are allowed. -/
theorem Value.only_of_forall (h : ∀ n, allowed n) : ∀ v : Value, v.Only allowed
  | .func ref _ => h ref
  | .struct fields => onlyAll_of_forall h fields
  | .nil | .bool _ | .int _ | .uint _ | .float _ | .complex _ _ | .str _ | .slice _ | .map _ =>
    trivial

/-- All functions are allowed. -/
theorem Value.onlyAll_of_forall (h : ∀ n, allowed n) : ∀ vs : List Value, OnlyAll allowed vs
  | [] => trivial
  | v :: vs => ⟨only_of_forall h v, onlyAll_of_forall h vs⟩

end

/-! ### Operators -/

/-- An operator on two values gives a scalar. -/
theorem binaryValues_only {op : BinaryOp} {k : Kind} {a b v : Value}
    (h : binaryValues op k a b = .ok v) : v.Only allowed := by
  simp only [binaryValues, bind, Except.bind, pure, Except.pure, throw, throwThe,
    MonadExceptOf.throw] at h
  repeat' split at h
  all_goals cases h
  all_goals trivial

/-- An operator on one value gives a scalar or that value. -/
theorem unaryValue_only {op : UnaryOp} {k : Kind} {a v : Value} (ha : a.Only allowed)
    (h : unaryValue op k a = .ok v) : v.Only allowed := by
  unfold unaryValue at h
  split at h
  all_goals cases h
  all_goals exact ha

/-- A value cut to a width stays what it is. -/
theorem narrowValue_only {k : Kind} {v : Value} (hv : v.Only allowed) :
    (narrowValue k v).Only allowed := by
  cases v <;> exact hv

namespace Value

/-- A value that is checked stays what it is. -/
theorem Only.expect {c : Category} {v w : Value} (hv : v.Only allowed) (h : v.expect c = .ok w) :
    w.Only allowed := by
  unfold Value.expect at h
  split at h <;> cases h <;> exact hv

end Value

/-- A value that must fit a type stays what it is or becomes the zero value. -/
theorem ensure_only {t : TypeTable} {ty : Ty} {zero v w : Value} (hzero : zero.Only allowed)
    (hv : v.Only allowed) (h : ensure t ty zero v = .ok w) : w.Only allowed := by
  unfold ensure at h
  repeat' split at h
  all_goals cases h
  · exact hzero
  · exact hv

/-- A byte is a scalar. -/
theorem byteOf_only {s v : Value} {index : Int} (h : byteOf s index = .ok v) : v.Only allowed := by
  cases s
  case str s =>
    simp only [byteOf] at h
    split at h <;> cases h
    trivial
  all_goals cases h

/-- Fields of a struct. -/
theorem structFields_only {v : Value} {fields : List Value} (hv : v.Only allowed)
    (h : structFields v = .ok fields) : ∀ w ∈ fields, w.Only allowed := by
  cases v
  case struct fs =>
    cases h
    exact Value.only_struct.1 hv
  all_goals cases h

/-- A field of a struct. -/
theorem fieldAt_only {fields : List Value} (h : ∀ w ∈ fields, w.Only allowed) (i : Nat) :
    (fieldAt fields i).Only allowed := by
  unfold fieldAt
  cases hi : fields[i]? with
  | none => trivial
  | some w => exact h w (List.mem_of_getElem? hi)

/-! ### The heap -/

/-- All values in a map are allowed ones. -/
def Entries.Only (allowed : Nat → Prop) (es : Entries) : Prop :=
  ∀ e ∈ es, e.2.Only allowed

namespace Entries

variable {es : Entries} {k : MapKey} {v : Value}

/-- What is found in a map. -/
theorem Only.find? (h : es.Only allowed) (hv : es.find? k = some v) : v.Only allowed := by
  induction es with
  | nil => cases hv
  | cons e rest ih =>
      rw [Entries.find?] at hv
      split at hv
      · cases hv
        exact h e List.mem_cons_self
      · exact ih (fun x hx => h x (List.mem_cons_of_mem _ hx)) hv

/-- A map with one value more. -/
theorem Only.insert (h : es.Only allowed) (hv : v.Only allowed) : (es.insert k v).Only allowed := by
  induction es with
  | nil => exact fun e he => (List.mem_singleton.1 he) ▸ hv
  | cons e rest ih =>
      have hrest : Entries.Only allowed rest := fun x hx => h x (List.mem_cons_of_mem _ hx)
      rw [Entries.insert]
      intro x hx
      split at hx
      · rcases List.mem_cons.1 hx with rfl | hx
        · exact hv
        · exact h x hx
      · rcases List.mem_cons.1 hx with rfl | hx
        · exact hv
        · exact hrest x hx
      · rcases List.mem_cons.1 hx with rfl | hx
        · exact h _ List.mem_cons_self
        · exact ih hrest x hx

/-- A map with one value less. -/
theorem Only.erase (h : es.Only allowed) : (es.erase k).Only allowed := by
  induction es with
  | nil => exact h
  | cons e rest ih =>
      have hrest : Entries.Only allowed rest := fun x hx => h x (List.mem_cons_of_mem _ hx)
      rw [Entries.erase]
      split
      · exact hrest
      · intro x hx
        rcases List.mem_cons.1 hx with rfl | hx
        · exact h _ List.mem_cons_self
        · exact ih hrest x hx

end Entries

/-- All values in the heap are allowed ones. -/
structure Heap.Only (allowed : Nat → Prop) (h : Heap) : Prop where
  arrays : ∀ a ∈ h.arrays, ∀ v ∈ a, v.Only allowed
  maps : ∀ es ∈ h.maps, es.Only allowed

/-- A property of all elements stays one if an element is changed within it. -/
theorem forall_mem_modify {α : Type} {p : α → Prop} {a : Array α} {i : Nat} {f : α → α}
    (h : ∀ x ∈ a, p x) (hf : ∀ x, p x → p (f x)) : ∀ x ∈ a.modify i f, p x := by
  intro x hx
  obtain ⟨j, hj, rfl⟩ := Array.mem_iff_getElem.1 hx
  rw [Array.getElem_modify]
  split
  · exact hf _ (h _ (Array.getElem_mem _))
  · exact h _ (Array.getElem_mem _)

/-- A property of all elements stays one if an element is stored that has it. -/
theorem forall_mem_setIfInBounds {α : Type} {p : α → Prop} {a : Array α} {i : Nat} {y : α}
    (h : ∀ x ∈ a, p x) (hy : p y) : ∀ x ∈ a.setIfInBounds i y, p x := by
  intro x hx
  rcases Array.mem_or_eq_of_mem_setIfInBounds hx with hx | rfl
  · exact h x hx
  · exact hy

namespace Heap

variable {h : Heap} {s : Slice} {m : Nat} {v : Value} {vs : List Value}

/-- There is nothing in the empty heap. -/
theorem Only.empty : Heap.empty.Only allowed :=
  ⟨fun a ha => absurd ha (Array.not_mem_empty a), fun es hes => absurd hes (Array.not_mem_empty es)⟩

/-- More functions are allowed. -/
theorem Only.mono {more : Nat → Prop} (hmore : ∀ n, allowed n → more n) (hh : h.Only allowed) :
    h.Only more :=
  ⟨fun a ha v hv => Value.Only.mono hmore v (hh.arrays a ha v hv),
    fun es hes e he => Value.Only.mono hmore e.2 (hh.maps es hes e he)⟩

/-- The array of a slice. -/
theorem Only.arrayOf (hh : h.Only allowed) (s : Slice) : ∀ v ∈ h.arrayOf s, v.Only allowed := by
  unfold Heap.arrayOf
  cases ha : h.arrays[s.array]? with
  | none => exact fun v hv => absurd hv (Array.not_mem_empty v)
  | some a => exact hh.arrays a (Array.mem_of_getElem? ha)

/-- The elements of a slice. -/
theorem Only.elems (hh : h.Only allowed) (s : Slice) : ∀ v ∈ h.elems s, v.Only allowed := by
  intro v hv
  rw [Heap.elems, Array.toList_extract] at hv
  exact hh.arrayOf s v (Array.mem_toList_iff.1 (List.mem_of_mem_drop (List.mem_of_mem_take hv)))

/-- An element of a slice. -/
theorem Only.getElem (hh : h.Only allowed) {index : Int} (hv : h.getElem s index = .ok v) :
    v.Only allowed := by
  unfold Heap.getElem at hv
  cases ho : Heap.offset s index with
  | error e => simp [ho, bind, Except.bind] at hv
  | ok p =>
      simp only [ho, bind, Except.bind, pure, Except.pure, Except.ok.injEq] at hv
      subst hv
      cases hp : (h.arrayOf s)[p]? with
      | none => trivial
      | some w => exact hh.arrayOf s w (Array.mem_of_getElem? hp)

/-- A new array. -/
theorem Only.newSlice (hh : h.Only allowed) {elems : Array Value} {len : Nat}
    (he : ∀ v ∈ elems, v.Only allowed) : (h.newSlice elems len).2.Only allowed := by
  refine ⟨fun a ha => ?_, hh.maps⟩
  rcases Array.mem_push.1 ha with ha | rfl
  · exact hh.arrays a ha
  · exact he

/-- A new slice of given values. -/
theorem Only.sliceOf (hh : h.Only allowed) (hvs : ∀ v ∈ vs, v.Only allowed) :
    (h.sliceOf vs).2.Only allowed :=
  hh.newSlice fun v hv => hvs v (List.mem_toArray.1 hv)

/-- A new slice of zeros. -/
theorem Only.makeSlice (hh : h.Only allowed) {len cap : Nat} (hv : v.Only allowed) :
    (h.makeSlice len cap v).2.Only allowed :=
  hh.newSlice fun _ hw => (Array.eq_of_mem_replicate hw) ▸ hv

/-- A new map. -/
theorem Only.newMap (hh : h.Only allowed) : h.newMap.2.Only allowed := by
  refine ⟨hh.arrays, fun es hes => ?_⟩
  rcases Array.mem_push.1 hes with hes | rfl
  · exact hh.maps es hes
  · exact fun e he => absurd he List.not_mem_nil

/-- A value stored in an array. -/
theorem Only.setAt (hh : h.Only allowed) (hv : v.Only allowed) (array position : Nat) :
    (h.setAt array position v).Only allowed :=
  ⟨forall_mem_modify hh.arrays fun _ ha => forall_mem_setIfInBounds ha hv, hh.maps⟩

/-- Values stored in an array one after the other. -/
theorem writeAll_only {a : Array Value} {p : Nat} (ha : ∀ v ∈ a, v.Only allowed)
    (hvs : ∀ v ∈ vs, v.Only allowed) : ∀ v ∈ writeAll a p vs, v.Only allowed := by
  induction vs generalizing a p with
  | nil => exact ha
  | cons v vs ih =>
      exact ih (forall_mem_setIfInBounds ha (hvs v List.mem_cons_self))
        fun w hw => hvs w (List.mem_cons_of_mem _ hw)

/-- A slice that grows. -/
theorem Only.append (hh : h.Only allowed) (hvs : ∀ v ∈ vs, v.Only allowed) :
    (h.append s vs).2.Only allowed := by
  unfold Heap.append
  dsimp only
  split
  · exact ⟨forall_mem_modify hh.arrays fun _ ha => writeAll_only ha hvs, hh.maps⟩
  · refine hh.newSlice fun v hv => ?_
    rcases List.mem_append.1 (List.mem_toArray.1 hv) with hv | hv
    · rcases List.mem_append.1 hv with hv | hv
      · exact hh.elems s v hv
      · exact hvs v hv
    · rw [List.eq_of_mem_replicate hv]
      trivial

/-- The entries of a map. -/
theorem Only.entries (hh : h.Only allowed) (m : Nat) : (h.entries m).Only allowed := by
  unfold Heap.entries
  cases hm : h.maps[m]? with
  | none => exact fun e he => absurd he List.not_mem_nil
  | some es => exact hh.maps es (Array.mem_of_getElem? hm)

/-- What is found in a map. -/
theorem Only.lookup (hh : h.Only allowed) {key : Value} (hv : h.lookup m key = .ok (some v)) :
    v.Only allowed := by
  unfold Heap.lookup at hv
  cases hk : MapKey.ofValue key with
  | error e => simp [hk, bind, Except.bind] at hv
  | ok k =>
      simp only [hk, bind, Except.bind, pure, Except.pure, Except.ok.injEq] at hv
      exact (hh.entries m).find? hv

/-- A value stored in a map. -/
theorem Only.insertKey (hh : h.Only allowed) (hv : v.Only allowed) (m : Nat) (k : MapKey) :
    (h.insertKey m k v).Only allowed :=
  ⟨hh.arrays, forall_mem_modify hh.maps fun _ hes => hes.insert hv⟩

/-- A key removed from a map. -/
theorem Only.eraseKey (hh : h.Only allowed) (m : Nat) (k : MapKey) :
    (h.eraseKey m k).Only allowed :=
  ⟨hh.arrays, forall_mem_modify hh.maps fun _ hes => hes.erase⟩

/-- An element of a map, or the zero. -/
theorem Only.mapElement (hh : h.Only allowed) {container key zero : Value}
    (hzero : zero.Only allowed) (hv : mapElement h container key zero = .ok v) :
    v.Only allowed := by
  cases container
  case map ref =>
    simp only [ScriptCore.mapElement] at hv
    cases hl : h.lookup ref key with
    | error e => simp [hl, bind, Except.bind] at hv
    | ok o =>
        simp only [hl, bind, Except.bind, pure, Except.pure, Except.ok.injEq] at hv
        subst hv
        cases o with
        | none => exact hzero
        | some w => exact hh.lookup hl
  case nil => cases hv; exact hzero
  all_goals cases hv

/-- An element of a slice. -/
theorem Only.sliceElement (hh : h.Only allowed) {container : Value} {index : Int}
    (hv : sliceElement h container index = .ok v) : v.Only allowed := by
  cases container
  case slice s => exact hh.getElem hv
  all_goals cases hv

/-- A conversion gives a scalar, a new slice of bytes or the value itself. -/
theorem Only.convert (hh : h.Only allowed) {t : TypeTable} {ty : Ty} {v' : Value} {h' : Heap}
    (hv : v.Only allowed) (hc : h.convert t v ty = .ok (v', h')) :
    v'.Only allowed ∧ h'.Only allowed := by
  unfold Heap.convert at hc
  have hbytes : ∀ s,
      (h.sliceOf ((Utf8.encode s).map fun b => .uint b.toUInt64)).2.Only allowed := by
    refine fun s => hh.sliceOf fun w hw => ?_
    obtain ⟨b, -, rfl⟩ := List.mem_map.1 hw
    trivial
  dsimp only at hc
  repeat' split at hc
  all_goals cases hc
  all_goals first
    | exact ⟨hv, hh⟩
    | exact ⟨trivial, hh⟩
    | exact ⟨trivial, hbytes _⟩

end Heap

end ScriptCore
