import ScriptCore.Types.Basic

/-!
# Frames

What names mean in a body while it is compiled: its slots, the blocks that are open with the names
declared in them, and what the body returns.  Every declaration takes a new slot, also when a name
is declared again in an inner block.

Main statements: `find?_declare` (a declared name is found), `declare_slots` (a declaration takes a
new slot) and `unnested_nested` (an empty block changes no name).
-/

namespace ScriptCore

/-- A variable of a body. -/
structure Local where
  slot : Nat
  type : Ty
deriving Repr, DecidableEq, Inhabited

/-- The names of a body that is being compiled.  The innermost block comes first.  `namedResults`
are the slots of the results if these have names. -/
structure Frame where
  blocks : List (List (Name × Local))
  slots : Nat
  results : List Ty
  namedResults : Option (List Nat)
deriving Repr, DecidableEq, Inhabited

namespace Frame

/-- A body with nothing in it but its outermost block. -/
def empty : Frame := ⟨[[]], 0, [], none⟩

/-- A new slot. -/
def alloc (f : Frame) : Nat × Frame :=
  (f.slots, { f with slots := f.slots + 1 })

/-- Declare a name in the innermost block. -/
def declare (f : Frame) (name : Name) (type : Ty) : Nat × Frame :=
  let blocks := match f.blocks with
    | [] => [[(name, ⟨f.slots, type⟩)]]
    | block :: outer => ((name, ⟨f.slots, type⟩) :: block) :: outer
  (f.slots, { f with slots := f.slots + 1, blocks })

/-- Declaration of a name in a block. -/
def findIn (block : List (Name × Local)) (name : Name) : Option Local :=
  (block.find? fun entry => entry.1 == name).map Prod.snd

/-- The innermost declaration of a name. -/
def find? (f : Frame) (name : Name) : Option Local :=
  f.blocks.findSome? fun block => findIn block name

/-- Declaration of a name in the innermost block. -/
def findInnermost? (f : Frame) (name : Name) : Option Local :=
  f.blocks.head?.bind fun block => findIn block name

/-- Open a block. -/
def nested (f : Frame) : Frame :=
  { f with blocks := [] :: f.blocks }

/-- Close the innermost block. -/
def unnested (f : Frame) : Frame :=
  { f with blocks := f.blocks.tail }

/-- A declared name is found, with its slot. -/
theorem find?_declare (f : Frame) (name : Name) (type : Ty) :
    (f.declare name type).2.find? name = some ⟨(f.declare name type).1, type⟩ := by
  cases h : f.blocks <;> simp [declare, find?, findIn, h]

/-- A declaration takes a new slot. -/
theorem declare_slots (f : Frame) (name : Name) (type : Ty) :
    (f.declare name type).1 = f.slots ∧ (f.declare name type).2.slots = f.slots + 1 :=
  ⟨rfl, rfl⟩

/-- An empty block changes no name. -/
theorem unnested_nested (f : Frame) : f.nested.unnested = f := rfl

end Frame

end ScriptCore
