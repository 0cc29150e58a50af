import ScriptCore.Types.Layout

/-!
# Fields side by side

The layout of a struct is computed in words from the sizes and alignments of its fields, one field
after the other.  As long as the room that the fields take, counted in natural numbers, stays below
the number of words, the computation does not wrap and is sound (`Layout.Sound`): each offset is a
multiple of the field's alignment, each field begins where the one before has ended or later, the
alignment is the largest one, and the size is a multiple of it that leaves room for the last field.

* `alignUp_toNat`: rounding up in words is rounding up, if the result is a word.
* `Placement.foldl_place`: what placing fields does, by induction on the fields.
* `Layout.ofFields_sound`: the layout of fields for which there is room.
-/

namespace ScriptCore

namespace Layout

/-- A size and an alignment. -/
abbrev Extent := UInt64 × UInt64

/-- The layout of fields of the given sizes and alignments. -/
def ofFields (fields : List Extent) : Layout :=
  (fields.foldl Placement.place .start).finish

/-- The next multiple of `align`, as a natural number. -/
def roundUp (n align : Nat) : Nat :=
  (n + align - 1) / align * align

/-- Where a field ends that is placed after `stop`. -/
def stopAfter (stop : Nat) (field : Extent) : Nat :=
  roundUp stop field.2.toNat + field.1.toNat

/-- The largest alignment of the fields, one if there are none. -/
def alignOf (fields : List Extent) : UInt64 :=
  fields.foldl (fun align field => max align field.2) 1

/-- The room that a struct with the given fields takes. -/
def room (fields : List Extent) : Nat :=
  roundUp (fields.foldl stopAfter 0) (alignOf fields).toNat

/-- Fields placed one after the other from `start`: each offset is a multiple of the alignment, no
field begins before the one in front of it ends, and the last one ends at the last number. -/
inductive Packed : Nat → List Extent → List UInt64 → Nat → Prop
  | nil (start : Nat) : Packed start [] [] start
  | cons {start stop : Nat} {field : Extent} {fields : List Extent} {offset : UInt64}
      {offsets : List UInt64} (hmultiple : field.2.toNat ∣ offset.toNat)
      (hafter : start ≤ offset.toNat)
      (hrest : Packed (offset.toNat + field.1.toNat) fields offsets stop) :
      Packed start (field :: fields) (offset :: offsets) stop

/-- A layout is right for fields of the given sizes and alignments. -/
structure Sound (layout : Layout) (fields : List Extent) : Prop where
  packed : ∃ stop, Packed 0 fields layout.offsets stop ∧ stop ≤ layout.size.toNat
  bounds : ∀ field ∈ fields, field.2 ≤ layout.align
  attained : fields = [] ∧ layout.align = 1 ∨ ∃ field ∈ fields, field.2 = layout.align
  multiple : layout.align.toNat ∣ layout.size.toNat

/-! ### Rounding up -/

/-- Rounding up goes to a multiple. -/
theorem dvd_roundUp (n align : Nat) : align ∣ roundUp n align :=
  Nat.dvd_mul_left _ _

/-- Rounding up does not go down. -/
theorem le_roundUp {align : Nat} (h : 0 < align) (n : Nat) : n ≤ roundUp n align := by
  have hmod := Nat.mod_lt (n + align - 1) h
  have hdiv := Nat.div_add_mod' (n + align - 1) align
  rw [roundUp]
  omega

/-- The quotient that is rounded up is the number of multiples. -/
theorem roundUp_eq {n align : Nat} (h : 0 < align) :
    roundUp n align = (n / align + if n % align = 0 then 0 else 1) * align := by
  have hmod := Nat.mod_lt n h
  have hdiv := Nat.div_add_mod' n align
  rw [roundUp]
  congr 1
  by_cases hzero : n % align = 0
  · rw [if_pos hzero, Nat.add_zero, Nat.div_eq_iff h]
    omega
  · rw [if_neg hzero, Nat.div_eq_iff h, Nat.add_mul, Nat.one_mul]
    omega

/-- **Rounding up in words is rounding up**, if the result is a word. -/
theorem alignUp_toNat {offset align : UInt64} (halign : 0 < align.toNat)
    (hroom : roundUp offset.toNat align.toNat < UInt64.size) :
    (alignUp offset align).toNat = roundUp offset.toNat align.toNat := by
  rw [roundUp_eq halign] at hroom ⊢
  have hquotient : (ceilDiv offset align).toNat =
      offset.toNat / align.toNat + if offset.toNat % align.toNat = 0 then 0 else 1 := by
    have hzero : offset % align = 0 ↔ offset.toNat % align.toNat = 0 := by
      rw [← UInt64.toNat_inj, UInt64.toNat_mod, UInt64.toNat_zero]
    -- The quotient is at most the product, which is a word.
    have hword : offset.toNat / align.toNat + (if offset.toNat % align.toNat = 0 then 0 else 1) <
        UInt64.size := Nat.lt_of_le_of_lt (Nat.le_mul_of_pos_right _ halign) hroom
    rw [ceilDiv, UInt64.toNat_add, UInt64.toNat_div]
    by_cases hmod : offset.toNat % align.toNat = 0
    · rw [if_pos hmod] at hword ⊢
      rw [if_pos (hzero.2 hmod)]
      exact Nat.mod_eq_of_lt hword
    · rw [if_neg hmod] at hword ⊢
      rw [if_neg (fun h => hmod (hzero.1 h))]
      exact Nat.mod_eq_of_lt hword
  rw [alignUp, UInt64.toNat_mul, hquotient]
  exact Nat.mod_eq_of_lt hroom

/-! ### Placing fields -/

/-- A field ends where it was placed or later. -/
theorem le_stopAfter {field : Extent} (h : 0 < field.2.toNat) (stop : Nat) :
    stop ≤ stopAfter stop field :=
  Nat.le_trans (le_roundUp h stop) (Nat.le_add_right _ _)

/-- The last field ends where the first was placed or later. -/
theorem le_foldl_stopAfter {fields : List Extent} (h : ∀ field ∈ fields, 0 < field.2.toNat)
    (stop : Nat) : stop ≤ fields.foldl stopAfter stop := by
  induction fields generalizing stop with
  | nil => exact Nat.le_refl _
  | cons field fields ih =>
      have hfield := le_stopAfter (h field List.mem_cons_self) stop
      have hrest := ih (fun f hf => h f (List.mem_cons_of_mem _ hf)) (stopAfter stop field)
      exact Nat.le_trans hfield hrest

/-- **What placing fields does**, if the last of them ends at a word: it adds an offset for each
field, and ends where the last field ends. -/
theorem Placement.foldl_place {fields : List Extent} (h : ∀ field ∈ fields, 0 < field.2.toNat)
    (p : Placement) (hroom : fields.foldl stopAfter p.stop.toNat < UInt64.size) :
    (fields.foldl Placement.place p).stop.toNat = fields.foldl stopAfter p.stop.toNat ∧
    ∃ offsets, (fields.foldl Placement.place p).offsets = p.offsets ++ offsets ∧
      Packed p.stop.toNat fields offsets (fields.foldl stopAfter p.stop.toNat) := by
  induction fields generalizing p with
  | nil => exact ⟨rfl, [], (List.append_nil _).symm, .nil _⟩
  | cons field fields ih =>
      have hfield := h field List.mem_cons_self
      have hfields : ∀ f ∈ fields, 0 < f.2.toNat := fun f hf => h f (List.mem_cons_of_mem _ hf)
      -- Neither the offset nor the end of the field goes beyond the end of the last field.
      have hstop : stopAfter p.stop.toNat field < UInt64.size :=
        Nat.lt_of_le_of_lt (le_foldl_stopAfter hfields _) hroom
      have hoffset : (alignUp p.stop field.2).toNat = roundUp p.stop.toNat field.2.toNat :=
        alignUp_toNat hfield (Nat.lt_of_le_of_lt (Nat.le_add_right _ _) hstop)
      have hend : (p.place field).stop.toNat = stopAfter p.stop.toNat field := by
        change (alignUp p.stop field.2 + field.1).toNat = _
        rw [UInt64.toNat_add, hoffset]
        exact Nat.mod_eq_of_lt hstop
      obtain ⟨hstops, offsets, hoffsets, hpacked⟩ :=
        ih hfields (p.place field) (by rwa [hend])
      rw [hend] at hstops hpacked
      refine ⟨hstops, alignUp p.stop field.2 :: offsets, ?_, .cons ?_ ?_ ?_⟩
      · rw [List.foldl_cons, hoffsets]
        exact List.append_assoc _ [_] _
      · rw [hoffset]
        exact dvd_roundUp _ _
      · rw [hoffset]
        exact le_roundUp hfield _
      · rw [hoffset]
        exact hpacked

/-- The larger of two words is one of them and not smaller than the other. -/
theorem max_word (a b : UInt64) : max a b = a ∧ b ≤ a ∨ max a b = b ∧ a ≤ b := by
  change (if a ≤ b then b else a) = a ∧ b ≤ a ∨ (if a ≤ b then b else a) = b ∧ a ≤ b
  by_cases h : a ≤ b
  · rw [if_pos h]
    exact .inr ⟨rfl, h⟩
  · rw [if_neg h]
    exact .inl ⟨rfl, UInt64.le_of_lt (UInt64.not_le.1 h)⟩

/-- The largest alignment bounds the one so far and those that follow, and is one of them. -/
theorem foldl_max (fields : List Extent) (align : UInt64) :
    align ≤ fields.foldl (fun align field => max align field.2) align ∧
    (∀ field ∈ fields, field.2 ≤ fields.foldl (fun align field => max align field.2) align) ∧
    (fields.foldl (fun align field => max align field.2) align = align ∨
      ∃ field ∈ fields, field.2 = fields.foldl (fun align field => max align field.2) align) := by
  induction fields generalizing align with
  | nil => exact ⟨UInt64.le_refl _, List.forall_mem_nil _, .inl rfl⟩
  | cons field fields ih =>
      obtain ⟨hle, hall, hone⟩ := ih (max align field.2)
      have hmax : align ≤ max align field.2 ∧ field.2 ≤ max align field.2 ∧
          (max align field.2 = align ∨ max align field.2 = field.2) := by
        rcases max_word align field.2 with ⟨heq, hle⟩ | ⟨heq, hle⟩
        · rw [heq]
          exact ⟨UInt64.le_refl _, hle, .inl rfl⟩
        · rw [heq]
          exact ⟨hle, UInt64.le_refl _, .inr rfl⟩
      obtain ⟨hleft, hright, hchoice⟩ := hmax
      rw [List.foldl_cons]
      refine ⟨UInt64.le_trans hleft hle, fun f hf => ?_, ?_⟩
      · rcases List.mem_cons.1 hf with rfl | hf
        · exact UInt64.le_trans hright hle
        · exact hall f hf
      · rcases hone with heq | ⟨f, hf, heq⟩
        · rcases hchoice with hsame | hsame
          · exact .inl (heq.trans hsame)
          · exact .inr ⟨field, List.mem_cons_self, (heq.trans hsame).symm⟩
        · exact .inr ⟨f, List.mem_cons_of_mem _ hf, heq⟩

/-- The largest alignment is at least one. -/
theorem one_le_alignOf (fields : List Extent) : 0 < (alignOf fields).toNat := by
  have hle := (foldl_max fields 1).1
  rw [UInt64.le_iff_toNat_le] at hle
  exact hle

/-- The alignment of a layout, whether there is room or not. -/
theorem ofFields_align (fields : List Extent) : (ofFields fields).align = alignOf fields := by
  have hfold : ∀ p : Placement, (fields.foldl Placement.place p).align =
      fields.foldl (fun align field => max align field.2) p.align := by
    induction fields with
    | nil => exact fun _ => rfl
    | cons field fields ih => exact fun p => ih (p.place field)
  exact hfold .start

/-- **The layout of fields for which there is room is sound.** -/
theorem ofFields_sound {fields : List Extent} (h : ∀ field ∈ fields, 0 < field.2.toNat)
    (hroom : room fields < UInt64.size) : (ofFields fields).Sound fields := by
  have hpos := one_le_alignOf fields
  have hstop : fields.foldl stopAfter 0 < UInt64.size :=
    Nat.lt_of_le_of_lt (le_roundUp hpos _) hroom
  obtain ⟨hend, offsets, hoffsets, hpacked⟩ := Placement.foldl_place h .start hstop
  have halign := ofFields_align fields
  have hsize : (ofFields fields).size.toNat = room fields := by
    change (alignUp (fields.foldl Placement.place .start).stop (ofFields fields).align).toNat = _
    rw [halign, alignUp_toNat hpos]
    · rw [hend]
      rfl
    · rwa [hend]
  obtain ⟨-, hbounds, hattained⟩ := foldl_max fields 1
  constructor
  case packed =>
    refine ⟨fields.foldl stopAfter 0, ?_, ?_⟩
    · change Packed 0 fields (fields.foldl Placement.place .start).offsets _
      rw [hoffsets]
      exact hpacked
    · rw [hsize]
      exact le_roundUp hpos _
  case bounds =>
    rw [halign]
    exact hbounds
  case attained =>
    rw [halign]
    rcases hattained with hone | hfield
    · cases fields with
      | nil => exact .inl ⟨rfl, hone⟩
      | cons field fields =>
          -- The first field is aligned to one, which is the least there is.
          have hle := UInt64.le_iff_toNat_le.1 (hbounds field List.mem_cons_self)
          have hlt := h field List.mem_cons_self
          have halignOf : alignOf (field :: fields) = 1 := hone
          refine .inr ⟨field, List.mem_cons_self, UInt64.toNat_inj.1 ?_⟩
          rw [halignOf]
          rw [hone] at hle
          exact Nat.le_antisymm hle hlt
    · exact .inr hfield
  case multiple =>
    rw [hsize, halign]
    exact dvd_roundUp _ _

/-- Without room the end of the last field wraps, and the struct is smaller than the field. -/
example : ofFields [(1, 1), (0xFFFFFFFFFFFFFFFF, 8)] = ⟨[0, 8], 8, 8⟩ := by
  decide

end Layout

end ScriptCore
