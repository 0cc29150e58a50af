import ScriptCore.Compile.Assignment

/-!
# Scopes as the text gives them

What the text of a body alone says about its variables.  A level is the state of one body: the
blocks that are open with the names declared in them, and everything that was declared so far, in
order.  Parameters, results, local variables and temporaries are all declared in this sense, and
what is declared gets its position among the declarations of the body as its slot.

A name stands for the latest declaration of that name in the innermost block that has one, of the
innermost body that has one.

Main statements: `Level.slots_nodup` (what is declared in one body has slots of its own) and
`Level.mem_declared` (the slot of a name is that of a declaration of that name).
-/

namespace ScriptCore

/-- Names that are declared in the open blocks of a body, with their slots.  The innermost block
and in it the latest name come first. -/
abbrev Blocks := List (List (Name × Nat))

/-- The blocks of the bodies around a place in the program, the innermost body first. -/
abbrev Scopes := List Blocks

/-- Slot of a name in a body. -/
def Blocks.slot? (blocks : Blocks) (name : Name) : Option Nat :=
  blocks.findSome? fun block => block.lookup name

/-- Address of a name: how many bodies out it was declared, and its slot there. -/
def Scopes.address? (name : Name) : Scopes → Option (Nat × Nat)
  | [] => none
  | blocks :: outer =>
    match blocks.slot? name with
    | some slot => some (0, slot)
    | none => (Scopes.address? name outer).map fun a => (a.1 + 1, a.2)

/-- What the text of a body says about its variables up to some place: the open blocks, all that was
declared, the temporaries without a name, and the slots of the results if they have names.  Slots
are given out in order, and a name has the slot of a declaration of that name. -/
structure Level where
  blocks : Blocks
  declared : List (Option Name × Nat)
  results : Option (List Nat)
  numbered : declared.map Prod.snd = List.range declared.length
  named : ∀ block ∈ blocks, ∀ e ∈ block, (some e.1, e.2) ∈ declared
  returned : ∀ slots ∈ results, ∀ slot ∈ slots, slot < declared.length

namespace Level

/-- The next slot. -/
def next (l : Level) : Nat :=
  l.declared.length

/-- A body without any declaration. -/
def empty : Level where
  blocks := [[]]
  declared := []
  results := none
  numbered := rfl
  named := by simp
  returned := by simp

/-- What is declared in one body has slots of its own. -/
theorem slots_nodup (l : Level) : (l.declared.map Prod.snd).Nodup := by
  rw [l.numbered]
  exact List.nodup_range

/-- All slots lie below the next one. -/
theorem slot_lt {l : Level} {e : Option Name × Nat} (h : e ∈ l.declared) : e.2 < l.next := by
  have hmem : e.2 ∈ l.declared.map Prod.snd := List.mem_map_of_mem h
  rw [l.numbered] at hmem
  exact List.mem_range.1 hmem

/-- The level with one declaration more, which may be found in the given blocks. -/
def add (l : Level) (what : Option Name) (blocks : Blocks)
    (h : ∀ block ∈ blocks, ∀ e ∈ block, (some e.1, e.2) ∈ l.declared ++ [(what, l.next)]) :
    Level where
  blocks := blocks
  declared := l.declared ++ [(what, l.next)]
  results := l.results
  numbered := by simp [l.numbered, next, List.range_succ]
  named := h
  returned slots hslots slot hslot := by
    have hlt := l.returned slots hslots slot hslot
    rw [List.length_append]
    omega

/-- A temporary, or a parameter or result without a name. -/
def temporary (l : Level) : Level :=
  l.add none l.blocks fun block hblock e he => List.mem_append_left _ (l.named block hblock e he)

/-- Several temporaries. -/
def temporaries (l : Level) : Nat → Level
  | 0 => l
  | n + 1 => (l.temporaries n).temporary

/-- The blocks with a new variable in the innermost one. -/
def declaredBlocks (name : Name) (slot : Nat) : Blocks → Blocks
  | [] => [[(name, slot)]]
  | block :: outer => ((name, slot) :: block) :: outer

/-- What the blocks hold besides the new variable they held before. -/
theorem mem_declaredBlocks {name : Name} {slot : Nat} {blocks : Blocks} {block : List (Name × Nat)}
    (hblock : block ∈ declaredBlocks name slot blocks) {e : Name × Nat} (he : e ∈ block) :
    e = (name, slot) ∨ ∃ old ∈ blocks, e ∈ old := by
  cases blocks with
  | nil =>
      rw [declaredBlocks, List.mem_singleton] at hblock
      subst hblock
      exact .inl (List.mem_singleton.1 he)
  | cons inner outer =>
      rcases List.mem_cons.1 hblock with rfl | hblock
      · rcases List.mem_cons.1 he with rfl | he
        · exact .inl rfl
        · exact .inr ⟨inner, List.mem_cons_self, he⟩
      · exact .inr ⟨block, List.mem_cons_of_mem _ hblock, he⟩

/-- A new variable in the innermost block. -/
def declare (l : Level) (name : Name) : Level :=
  l.add (some name) (declaredBlocks name l.next l.blocks) fun block hblock e he => by
    rcases mem_declaredBlocks hblock he with rfl | ⟨old, hold, he⟩
    · exact List.mem_append_right _ List.mem_cons_self
    · exact List.mem_append_left _ (l.named old hold e he)

/-- Open a block. -/
def nested (l : Level) : Level :=
  { l with
    blocks := [] :: l.blocks
    named := fun block hblock e he => by
      rcases List.mem_cons.1 hblock with rfl | hblock
      · cases he
      · exact l.named block hblock e he }

/-- Close the innermost block. -/
def unnested (l : Level) : Level :=
  { l with
    blocks := l.blocks.tail
    named := fun block hblock e he => l.named block (List.mem_of_mem_tail hblock) e he }

/-- Slot of a name in the innermost block. -/
def innermost? (l : Level) (name : Name) : Option Nat :=
  l.blocks.head?.bind (List.lookup name)

/-- A declared name and the slot it gets: none for the blank name.  With `redeclare`, a name that
the innermost block has already keeps its slot. -/
def bind (l : Level) (redeclare : Bool) (name : Name) : Option Nat × Level :=
  if name = blank then (none, l)
  else
    match redeclare, l.innermost? name with
    | true, some slot => (some slot, l)
    | _, _ => (some l.next, l.declare name)

/-- Declared names and their slots. -/
def bindAll (l : Level) (redeclare : Bool) : List Name → List (Option Nat) × Level
  | [] => ([], l)
  | name :: names =>
    let first := l.bind redeclare name
    let rest := first.2.bindAll redeclare names
    (first.1 :: rest.1, rest.2)

/-- The level after a parameter or result, whose slot is the next one. -/
def bindSlot (l : Level) : Option Name → Level
  | some name => if name = blank then l.temporary else l.declare name
  | none => l.temporary

/-- Parameters or results and their slots. -/
def bindSlots (l : Level) : List (Option Name) → List Nat × Level
  | [] => ([], l)
  | name :: names =>
    let rest := (l.bindSlot name).bindSlots names
    (l.next :: rest.1, rest.2)

/-- One declaration takes one slot. -/
@[simp] theorem temporary_next (l : Level) : l.temporary.next = l.next + 1 := by
  simp [temporary, add, next]

/-- One declaration takes one slot. -/
@[simp] theorem declare_next (l : Level) (name : Name) : (l.declare name).next = l.next + 1 := by
  simp [declare, add, next]

/-- A parameter takes one slot. -/
@[simp] theorem bindSlot_next (l : Level) (name : Option Name) :
    (l.bindSlot name).next = l.next + 1 := by
  cases name with
  | none => exact l.temporary_next
  | some name =>
      rw [bindSlot]
      split <;> simp

/-- Slots of parameters lie below the next one. -/
theorem bindSlots_lt (l : Level) (names : List (Option Name)) :
    l.next ≤ (l.bindSlots names).2.next ∧
      ∀ slot ∈ (l.bindSlots names).1, slot < (l.bindSlots names).2.next := by
  induction names generalizing l with
  | nil => exact ⟨Nat.le_refl _, by simp [bindSlots]⟩
  | cons name names ih =>
      obtain ⟨hle, hlt⟩ := ih (l.bindSlot name)
      rw [bindSlot_next] at hle
      refine ⟨Nat.le_of_succ_le hle, fun slot hslot => ?_⟩
      rcases List.mem_cons.1 hslot with rfl | hslot
      · exact hle
      · exact hlt slot hslot

/-- Results with names. -/
def nameResults (l : Level) (names : List (Option Name)) : Level :=
  { (l.bindSlots names).2 with
    results := some (l.bindSlots names).1
    returned := by
      rintro slots ⟨⟩
      exact (l.bindSlots_lt names).2 }

/-- The parameters and results of a body, the receiver first.  Results without names have no
slots. -/
def enter (recv : Option Param) (sig : Sig) : Level :=
  let params := (empty.bindSlots ((recv.toList ++ sig.params).map Param.name)).2
  let results := sig.results.map Param.name
  if results.any Option.isSome then params.nameResults results else params

/-- The slot of a name is that of a declaration of that name. -/
theorem mem_declared {l : Level} {name : Name} {slot : Nat} (h : l.blocks.slot? name = some slot) :
    (some name, slot) ∈ l.declared := by
  obtain ⟨block, hblock, hfound⟩ := List.exists_of_findSome?_eq_some h
  obtain ⟨before, after, rfl, -⟩ := List.lookup_eq_some_iff.1 hfound
  exact l.named _ hblock (name, slot) (by simp)

end Level

/-- Number of temporaries of an assignment: none if one value is stored in one place, or else one
for every place. -/
def temporaryCount (targets values : Nat) : Nat :=
  if targets = 1 ∧ values = 1 then 0 else targets

mutual

/-- The level after a statement. -/
def Stmt.after (l : Level) : Stmt → Level
  | .node _ kind => kind.after l

/-- The level after a form of statement. -/
def StmtKind.after (l : Level) : StmtKind → Level
  | .expr _ | .opAssign _ _ _ | .incDec _ _ | .break | .continue | .return _ => l
  | .assign lhs rhs => l.temporaries (temporaryCount lhs.length rhs.length)
  | .define names _ => (l.bindAll true names).2
  | .var (.mk names _ _ _) => (l.bindAll false names).2
  | .cond _ body otherwise => afterOptional (body.after l.nested).unnested otherwise
  | .loop init _ post body =>
    (afterOptional (body.after (afterOptional l.nested init).nested).unnested post).unnested
  | .block body => (body.after l.nested).unnested

/-- The level after an optional statement. -/
def afterOptional (l : Level) : Option Stmt → Level
  | none => l
  | some s => s.after l

/-- The level after the statements of a block. -/
def Block.after (l : Level) : Block → Level
  | .mk stmts _ => afterAll l stmts

/-- The level after statements. -/
def afterAll (l : Level) : List Stmt → Level
  | [] => l
  | s :: rest => afterAll (s.after l) rest

end

end ScriptCore
