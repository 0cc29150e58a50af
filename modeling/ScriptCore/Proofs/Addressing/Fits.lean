import Mathlib.Data.List.Forall2
import ScriptCore.Proofs.Addressing.Checked
import ScriptCore.Proofs.Addressing.Parts

/-!
# States that fit the text

A world is what is known of a state of the compilation without looking at it: for every body around
the current place the names in its open blocks and its number of slots so far, the number of slots
of the package, the functions that code may hold as constants, and the slots of the package for
which names may stand.  A state fits a world if its frames agree with it and everything that names
stand for lies where there are such slots.

Two steps agree from one world to another if they do the same on every state that fits the first
and leave a state that fits the second, with a result that has a given property.

Main statements: `Compiler.Fits.resolve` (what names mean in a state that fits) and
`Agrees.bind`.
-/

namespace ScriptCore

/-- What is known of a state: the levels of the bodies around the current place, the innermost
first, the number of slots of the package, the functions that may be constants, and the slots of
the package for which names may stand. -/
structure World where
  bodies : List Level
  globals : Nat
  allowed : Nat → Prop
  named : Nat → Prop

namespace World

/-- Scopes of the bodies. -/
def scopes (w : World) : Scopes :=
  w.bodies.map Level.blocks

/-- Sizes of the records that code runs in, those of the package last. -/
def shape (w : World) : List Nat :=
  w.bodies.map Level.next ++ [w.globals]

/-- One body more. -/
def push (w : World) (l : Level) : World :=
  { w with bodies := l :: w.bodies }

/-- The part keeps to the slots and functions there are. -/
structure Holds (w : World) (x : Code.Part) : Prop where
  within : x.Within w.allowed w.shape
  keepsTo : x.KeepsTo w.named w.bodies.length

/-- Parts of code that keep to the slots and functions there are. -/
def Admits (w : World) (xs : List Code.Part) : Prop :=
  ∀ x ∈ xs, w.Holds x

/-- No more slots and functions than in another world, as many levels out. -/
structure Le (w w' : World) : Prop where
  shape : Code.Roomier w.shape w'.shape
  globals : w.globals ≤ w'.globals
  allowed : ∀ n, w.allowed n → w'.allowed n
  named : ∀ s, w.named s → w'.named s
  depth : w.bodies.length = w'.bodies.length

namespace Le

variable {w w' w'' : World}

/-- The same world. -/
protected theorem refl (w : World) : w.Le w :=
  ⟨.refl _, Nat.le_refl _, fun _ h => h, fun _ h => h, rfl⟩

end Le

variable {w w' : World} {xs ys : List Code.Part} {x : Code.Part}

/-- No part. -/
@[simp] theorem admits_nil : w.Admits [] := by simp [Admits]

/-- One part more. -/
@[simp] theorem admits_cons : w.Admits (x :: xs) ↔ w.Holds x ∧ w.Admits xs := by
  simp [Admits]

/-- A fixed value that keeps to the functions there are. -/
@[simp] theorem holds_value {v : Value} : w.Holds (.value v) ↔ v.Only w.allowed :=
  ⟨fun h => h.within, fun h => ⟨h, trivial⟩⟩

/-- Parts after others. -/
@[simp] theorem admits_append : w.Admits (xs ++ ys) ↔ w.Admits xs ∧ w.Admits ys := by
  simp [Admits, or_imp, forall_and]

/-- What is held stays held. -/
theorem Holds.mono (h : w.Holds x) (hle : w.Le w') : w'.Holds x :=
  ⟨h.within.mono hle.allowed hle.shape, hle.depth ▸ h.keepsTo.mono hle.named⟩

/-- What is admitted stays admitted. -/
theorem Admits.mono (h : w.Admits xs) (hle : w.Le w') : w'.Admits xs :=
  fun x hx => (h x hx).mono hle

end World

/-- Results of steps that may hold code.  They are covered by a world that admits all their
parts. -/
class HasCode (α : Type) where
  covered : World → α → Prop
  mono : ∀ {w w' : World} {a : α}, covered w a → w.Le w' → covered w' a

/-- The world admits all code in a result. -/
def World.Covers {α : Type} [HasCode α] (w : World) (a : α) : Prop :=
  HasCode.covered w a

/-- A result that is covered stays covered. -/
theorem World.Covers.mono {α : Type} [HasCode α] {w w' : World} {a : α} (h : w.Covers a)
    (hle : w.Le w') : w'.Covers a :=
  HasCode.mono h hle

/-- Parts of a term. -/
def Term.parts : Term → List Code.Part
  | .const _ _ => []
  | .code e _ => e.expr.parts

/-- Parts of an operand. -/
def Operand.parts : Operand → List Code.Part
  | .term x => x.parts
  | .results call _ => call.parts

/-- Parts of a place. -/
def Place.parts (p : Place) : List Code.Part :=
  p.container.parts ++ Code.partsOf? p.key

/-- Parts of a tree. -/
def Tree.parts : Tree → List Code.Part
  | .act is => is.flatMap Code.Instr.parts
  | .seq first rest => first.parts ++ rest.parts
  | .ifThen e body => e.parts ++ body.parts
  | .ifElse e body otherwise => e.parts ++ (body.parts ++ otherwise.parts)
  | .loop init test post body =>
    init.parts ++ (Code.partsOf? test ++ (body.parts ++ post.parts))
  | .leave | .next => []

/-- What a name stands for lies within a world. -/
def Meaning.Within (w : World) : Meaning → Prop
  | .var depth slot _ | .func depth slot _ => w.Admits [.slot depth slot]
  | .host f => w.allowed f.number
  | .package p => ∀ f ∈ p.members, w.allowed f.number
  | .const _ _ | .type _ | .builtin _ => True

/-- Address of the variable that a name stands for, if it stands for one. -/
def Meaning.address? : Meaning → Option (Nat × Nat)
  | .var depth slot _ => some (depth, slot)
  | _ => none

instance : HasCode Code.Expr := ⟨fun w e => w.Admits e.parts, World.Admits.mono⟩
instance : HasCode Code.Call := ⟨fun w call => w.Admits call.parts, World.Admits.mono⟩
instance : HasCode Code.Args := ⟨fun w args => w.Admits args.parts, World.Admits.mono⟩
instance : HasCode Code.Container := ⟨fun w k => w.Admits k.parts, World.Admits.mono⟩
instance : HasCode Code.Instr := ⟨fun w i => w.Admits i.parts, World.Admits.mono⟩
instance : HasCode Code.Typed := ⟨fun w e => w.Admits e.expr.parts, World.Admits.mono⟩
instance : HasCode Term := ⟨fun w x => w.Admits x.parts, World.Admits.mono⟩
instance : HasCode Operand := ⟨fun w op => w.Admits op.parts, World.Admits.mono⟩
instance : HasCode Place := ⟨fun w p => w.Admits p.parts, World.Admits.mono⟩
instance : HasCode Tree := ⟨fun w t => w.Admits t.parts, World.Admits.mono⟩
instance : HasCode HostFunc := ⟨fun w f => w.allowed f.number, fun h hle => hle.allowed _ h⟩
instance : HasCode Binding :=
  ⟨fun w b => b.slot < w.globals ∧ w.named b.slot,
    fun h hle => ⟨Nat.lt_of_lt_of_le h.1 hle.globals, hle.named _ h.2⟩⟩
instance : HasCode Ty := ⟨fun _ _ => True, fun h _ => h⟩
instance : HasCode Nat := ⟨fun _ _ => True, fun h _ => h⟩
instance : HasCode Unit := ⟨fun _ _ => True, fun h _ => h⟩

instance {α : Type} [HasCode α] : HasCode (List α) :=
  ⟨fun w as => ∀ a ∈ as, w.Covers a, fun h hle a ha => (h a ha).mono hle⟩

instance {α : Type} [HasCode α] : HasCode (Option α) :=
  ⟨fun w a => ∀ b ∈ a, w.Covers b, fun h hle b hb => (h b hb).mono hle⟩

instance {α β : Type} [HasCode α] [HasCode β] : HasCode (α × β) :=
  ⟨fun w p => w.Covers p.1 ∧ w.Covers p.2, fun h hle => ⟨h.1.mono hle, h.2.mono hle⟩⟩

namespace World

variable {α β : Type} [HasCode α] [HasCode β] {w : World}

/-- Several results. -/
theorem covers_list {as : List α} : w.Covers as ↔ ∀ a ∈ as, w.Covers a := Iff.rfl

/-- No result. -/
@[simp] theorem covers_nil : w.Covers ([] : List α) := by simp [covers_list]

/-- One result more. -/
@[simp] theorem covers_cons {a : α} {as : List α} :
    w.Covers (a :: as) ↔ w.Covers a ∧ w.Covers as := by
  simp [covers_list]

/-- Results after others. -/
@[simp] theorem covers_append {as bs : List α} :
    w.Covers (as ++ bs) ↔ w.Covers as ∧ w.Covers bs := by
  simp [covers_list, or_imp, forall_and]

/-- An absent result. -/
@[simp] theorem covers_none : w.Covers (none : Option α) := by
  intro b hb
  cases hb

/-- A result that is there. -/
@[simp] theorem covers_some {a : α} : w.Covers (some a) ↔ w.Covers a :=
  ⟨fun h => h a rfl, fun h b hb => by cases hb; exact h⟩

/-- Two results. -/
@[simp] theorem covers_pair {a : α} {b : β} : w.Covers (a, b) ↔ w.Covers a ∧ w.Covers b := Iff.rfl

/-- An expression. -/
theorem covers_expr {e : Code.Expr} : w.Covers e ↔ w.Admits e.parts := Iff.rfl

/-- A checked expression. -/
theorem covers_typed {e : Code.Typed} : w.Covers e ↔ w.Admits e.expr.parts := Iff.rfl

/-- An instruction. -/
theorem covers_instr {i : Code.Instr} : w.Covers i ↔ w.Admits i.parts := Iff.rfl

/-- A term. -/
theorem covers_term {x : Term} : w.Covers x ↔ w.Admits x.parts := Iff.rfl

/-- A place. -/
theorem covers_place {p : Place} : w.Covers p ↔ w.Admits p.parts := Iff.rfl

/-- A type. -/
@[simp] theorem covers_type (ty : Ty) : w.Covers ty := trivial

/-- A number. -/
@[simp] theorem covers_nat (n : Nat) : w.Covers n := trivial

/-- Parts of expressions. -/
theorem admits_partsOf {es : List Code.Expr} : w.Admits (Code.partsOf es) ↔ w.Covers es := by
  induction es with
  | nil => simp [Code.partsOf]
  | cons e es ih => simp [Code.partsOf, ih, covers_expr]

/-- Parts of an optional expression. -/
theorem admits_partsOf? {e : Option Code.Expr} : w.Admits (Code.partsOf? e) ↔ w.Covers e := by
  cases e <;> simp [Code.partsOf?, covers_expr]

/-- Parts of the entries of a map. -/
theorem admits_partsOfEntries {es : List (Code.Expr × Code.Expr)} :
    w.Admits (Code.partsOfEntries es) ↔ w.Covers es := by
  induction es with
  | nil => simp [Code.partsOfEntries]
  | cons e es ih =>
      obtain ⟨k, v⟩ := e
      simp [Code.partsOfEntries, ih, covers_expr, and_assoc]

/-- Parts of instructions. -/
theorem admits_instrs {is : List Code.Instr} :
    w.Admits (is.flatMap Code.Instr.parts) ↔ w.Covers is := by
  induction is with
  | nil => simp
  | cons i is ih => simp [ih, covers_instr]

end World

/-! ### Frames -/

namespace Frame

/-- The names of a frame with their slots. -/
def scope (f : Frame) : Blocks :=
  f.blocks.map fun block => block.map fun e => (e.1, e.2.slot)

/-- A frame agrees with the level that the text gives. -/
structure Fits (f : Frame) (l : Level) : Prop where
  scope : f.scope = l.blocks
  slots : f.slots = l.next
  results : f.namedResults = l.results

/-- A name is found in a block where the scope has it. -/
theorem findIn_scope (block : List (Name × Local)) (name : Name) :
    (findIn block name).map Local.slot = (block.map fun e => (e.1, e.2.slot)).lookup name := by
  unfold findIn
  induction block with
  | nil => rfl
  | cons e block ih =>
      rw [List.map_cons, List.lookup_cons, List.find?_cons]
      by_cases h : e.1 = name
      · simp [h]
      · rw [beq_false_of_ne h, beq_false_of_ne (Ne.symm h)]
        exact ih

/-- A name is found where the scope has it. -/
theorem find?_scope (f : Frame) (name : Name) :
    (f.find? name).map Local.slot = f.scope.slot? name := by
  unfold find? scope Blocks.slot?
  induction f.blocks with
  | nil => rfl
  | cons block blocks ih =>
      rw [List.map_cons, List.findSome?_cons, List.findSome?_cons, ← findIn_scope]
      cases findIn block name with
      | none => exact ih
      | some v => rfl

end Frame

/-! ### States -/

/-- What a package-level name stands for lies within a world. -/
def Entity.Within (w : World) : Entity → Prop
  | .var b | .func b => w.Covers b
  | .package p => w.Covers p.members
  | .const _ _ | .type _ => True

/-- The functions of the host are allowed ones. -/
structure Hosts.Allowed (h : Hosts) (w : World) : Prop where
  funcs : w.Covers h.funcs
  packages : ∀ p ∈ h.packages, w.Covers p.members

/-- A state of the compilation fits a world. -/
structure Compiler.Fits (c : Compiler) (w : World) : Prop where
  frames : List.Forall₂ Frame.Fits (c.frame :: c.enclosing) w.bodies
  globals : c.globals.size = w.globals
  names : ∀ e ∈ c.names, e.2.Within w
  methods : ∀ e ∈ c.methods, w.Covers e.2
  hosts : c.hosts.Allowed w

namespace Compiler

variable {c : Compiler} {w : World}

/-- The variables of bodies are where the text says. -/
theorem localMeaning_address {fs : List Frame} {bodies : List Level}
    (h : List.Forall₂ Frame.Fits fs bodies) (name : Name) (depth : Nat) :
    (localMeaning depth name fs = none ∧ Scopes.address? name (bodies.map Level.blocks) = none) ∨
    ∃ d slot ty n, localMeaning depth name fs = some (.var (depth + d) slot ty) ∧
      Scopes.address? name (bodies.map Level.blocks) = some (d, slot) ∧
      (bodies.map Level.next)[d]? = some n ∧ slot < n := by
  induction h generalizing depth with
  | nil => exact .inl ⟨rfl, rfl⟩
  | @cons f l fs bodies hf _ ih =>
      have hscope := f.find?_scope name
      rw [hf.scope] at hscope
      cases hfound : f.find? name with
      | some v =>
          rw [hfound, Option.map_some] at hscope
          have hlt := Level.slot_lt (Level.mem_declared hscope.symm)
          refine .inr ⟨0, v.slot, v.type, l.next, ?_, ?_, rfl, hlt⟩
          · simp [localMeaning, hfound]
          · simp [Scopes.address?, ← hscope]
      | none =>
          rw [hfound, Option.map_none] at hscope
          rcases ih (depth + 1) with ⟨hm, ha⟩ | ⟨d, slot, ty, n, hm, ha, hn, hlt⟩
          · refine .inl ⟨?_, ?_⟩
            · simp [localMeaning, hfound, hm]
            · simp [Scopes.address?, ← hscope, ha]
          · refine .inr ⟨d + 1, slot, ty, n, ?_, ?_, hn, hlt⟩
            · simp [localMeaning, hfound, hm, Nat.add_comm d 1, Nat.add_assoc]
            · simp [Scopes.address?, ← hscope, ha]

/-- A host function is found among those there are. -/
theorem findHost_mem {funcs : List HostFunc} {name : Name} {f : HostFunc}
    (h : findHost funcs name = some f) : f ∈ funcs :=
  List.mem_reverse.1 (List.mem_of_find?_eq_some h)

namespace Fits

/-- Outside of all bodies there are the slots of the package. -/
theorem depth (h : c.Fits w) : c.globalsDepth = w.scopes.length := by
  have hlength := h.frames.length_eq
  simp only [List.length_cons] at hlength
  simp [globalsDepth, World.scopes, ← hlength]

/-- A slot of the package is where the package is. -/
theorem global (h : c.Fits w) {b : Binding} (hb : w.Covers b) :
    w.Admits [.slot c.globalsDepth b.slot] := by
  obtain ⟨hlt, hnamed⟩ := hb
  refine List.forall_mem_singleton.2 ⟨?_, fun _ => hnamed⟩
  simp [Code.Part.Within, World.shape, h.depth, World.scopes, hlt]

/-- What a package-level name stands for lies within the world. -/
theorem entity (h : c.Fits w) {name : Name} {e : Entity} (he : c.entity? name = some e) :
    e.Within w := by
  obtain ⟨before, after, heq, -⟩ := List.lookup_eq_some_iff.1 he
  exact h.names (name, e) (by simp [heq])

/-- A method lies within the world. -/
theorem method (h : c.Fits w) {ty : Ty} {name : Name} {b : Binding}
    (hb : c.method? ty name = some b) : w.Covers b := by
  unfold method? at hb
  split at hb
  · obtain ⟨before, after, heq, -⟩ := List.lookup_eq_some_iff.1 hb
    rw [World.Covers] at *
    exact h.methods (_, b) (heq ▸ List.mem_append_right _ List.mem_cons_self)
  · cases hb

/-- A predeclared name lies within the world. -/
theorem predeclared (h : c.Fits w) {name : Name} {m : Meaning} (hm : c.predeclared name = some m) :
    m.Within w ∧ m.address? = none := by
  unfold Compiler.predeclared at hm
  split at hm
  any_goals
    cases hm
    exact ⟨trivial, rfl⟩
  split at hm
  · next f hf =>
      cases hm
      exact ⟨h.hosts.funcs f (findHost_mem hf), rfl⟩
  · cases hm
    exact ⟨trivial, rfl⟩
  · obtain ⟨k, -, rfl⟩ := Option.map_eq_some_iff.1 hm
    exact ⟨trivial, rfl⟩

/-- **What a name means in a state that fits the text**: it lies within the world, and if it is a
variable its address is the one that the text gives. -/
theorem resolve (h : c.Fits w) {name : Name} {m : Meaning} (hm : c.resolve name = some m) :
    m.Within w ∧ w.scopes.addressIn? c name = m.address? := by
  have hdepth := h.depth
  unfold Compiler.resolve at hm
  unfold Scopes.addressIn? Compiler.globalSlot?
  rcases localMeaning_address h.frames name 0 with
    ⟨hlocal, ha⟩ | ⟨d, slot, ty, n, hlocal, ha, hn, hlt⟩
  · rw [hlocal] at hm
    rw [World.scopes, ha, Option.none_or]
    dsimp only at hm
    cases he : c.entity? name with
    | none =>
        rw [he] at hm
        obtain ⟨hwithin, hvar⟩ := h.predeclared hm
        exact ⟨hwithin, hvar.symm⟩
    | some e =>
        rw [he] at hm
        cases hm
        have hwithin := h.entity he
        cases e with
        | var b =>
            exact ⟨h.global hwithin, by
              simp [Entity.meaning, hdepth, World.scopes, Meaning.address?]⟩
        | func b => exact ⟨h.global hwithin, rfl⟩
        | package p => exact ⟨hwithin, rfl⟩
        | const _ _ => exact ⟨trivial, rfl⟩
        | type _ => exact ⟨trivial, rfl⟩
  · rw [hlocal, Nat.zero_add] at hm
    cases hm
    refine ⟨?_, ?_⟩
    · have hd : d < (w.bodies.map Level.next).length := (List.getElem?_eq_some_iff.1 hn).1
      simp only [Meaning.Within, World.admits_cons, World.admits_nil, and_true]
      rw [List.length_map] at hd
      refine ⟨⟨n, ?_, hlt⟩, fun heq => absurd heq (Nat.ne_of_lt hd)⟩
      rw [World.shape, List.getElem?_append_left (by simpa using hd), hn]
    · rw [World.scopes, ha]
      rfl

end Fits

end Compiler

end ScriptCore
