import ScriptCore.Proofs.Types.Containment
import ScriptCore.Types.Layout
import ScriptCore.Values.Basic

/-!
# Definitions are followed to their end

Sizes, zero values and the test for recursive definitions follow the definitions of named types, at
most as many as there are named types.  No type is stored inside its own values, so that the bound
is never reached: a function that follows definitions gives for a named type what it gives for the
type that it stands for (`TypeTable.Unfolds`).  Of type literals it is defined by recursion on the
literal; with `TypeTable.Acyclic.wellFounded` it is computed, without any bound, by a recursion that
ends.

What is used is that bounds no smaller than the depth of a type are equally good
(`zeroWith_depth`, `sizeAlignWith_depth`), by induction along the ways inside the type.

Main statement: `TypeOp.performAll_acyclic`.
-/

namespace ScriptCore

/-- Two computations of layouts do the same to any table with the given named types, and leave
these as they are. -/
def LayoutM.Same {α : Type} (named : List Definition) (x y : LayoutM α) : Prop :=
  ∀ s : TypeTable, s.named = named → x.run s = y.run s ∧ (x.run s).2.named = named

namespace LayoutM.Same

variable {α β : Type} {named : List Definition}

/-- Giving an answer. -/
theorem pure (a : α) : Same named (pure a) (pure a) :=
  fun _ hs => ⟨rfl, hs⟩

/-- One computation after the other. -/
theorem bind {x y : LayoutM α} {f g : α → LayoutM β} (h : Same named x y)
    (hf : ∀ a, Same named (f a) (g a)) : Same named (x >>= f) (y >>= g) := by
  intro s hs
  obtain ⟨heq, hkeep⟩ := h s hs
  have hrest := hf (x.run s).1 (x.run s).2 hkeep
  rw [StateT.run_bind, StateT.run_bind, ← heq]
  exact hrest

/-- Looking at the table first. -/
theorem get {f g : TypeTable → LayoutM α}
    (h : ∀ s : TypeTable, s.named = named → Same named (f s) (g s)) :
    Same named (do f (← get)) (do g (← get)) :=
  fun s hs => h s hs s hs

/-- Keeping a layout. -/
theorem keep (r : TypeRef) (l : Layout) :
    Same named (modify fun t => { t with layouts := t.layouts ++ [(r, l)] })
      (modify fun t => { t with layouts := t.layouts ++ [(r, l)] }) :=
  fun _ hs => ⟨rfl, hs⟩

end LayoutM.Same

namespace TypeTable

variable {t : TypeTable}

/-- Tables with the same named types define the same. -/
theorem definition?_congr {s : TypeTable} (h : s.named = t.named) (id : Nat) :
    s.definition? id = t.definition? id := by
  rw [definition?, h, definition?]

/-! ### Zero values -/

/-- Zero values of fields one by one. -/
theorem zeroFields_eq_map (named : Nat → Value) (fs : List Field) :
    zeroFields named fs = fs.map fun f => zeroWith named f.type := by
  induction fs with
  | nil => rfl
  | cons f fs ih => rw [zeroFields, ih, List.map_cons]

/-- Zero values are the same with all bounds that are no smaller than the depth. -/
theorem zeroWith_depth (h : t.Acyclic) (ty : Ty) {n m : Nat} (hn : t.depth ty ≤ n)
    (hm : t.depth ty ≤ m) : zeroWith (t.zeroNamed n) ty = zeroWith (t.zeroNamed m) ty := by
  induction ty using h.wellFounded.induction generalizing n m with
  | _ ty ih =>
      cases ty with
      | named id name package =>
          cases hu : t.definition? id with
          | none =>
              have hnil : ∀ n, t.zeroNamed n id = .nil := by
                intro n
                cases n with
                | zero => rfl
                | succ n => rw [zeroNamed, hu, Option.elim_none]
              rw [zeroWith, zeroWith, hnil, hnil]
          | some u =>
              have hlt := depth_definition h hu name package
              obtain ⟨n, rfl⟩ := Nat.exists_eq_add_of_lt (Nat.lt_of_lt_of_le hlt hn)
              obtain ⟨m, rfl⟩ := Nat.exists_eq_add_of_lt (Nat.lt_of_lt_of_le hlt hm)
              rw [zeroWith, zeroWith, zeroNamed, zeroNamed, hu, Option.elim_some, Option.elim_some]
              exact ih u.type (mem_parts_named.2 ⟨u, hu, rfl⟩) (Nat.le_add_right _ _)
                (Nat.le_add_right _ _)
      | struct fs =>
          rw [zeroWith, zeroWith, zeroFields_eq_map, zeroFields_eq_map]
          refine congrArg Value.struct (List.map_congr_left fun f hf => ?_)
          have hpart : f.type ∈ t.parts (.struct fs) := List.mem_map_of_mem hf
          exact ih f.type hpart (Nat.le_trans (depth_part hpart) hn)
            (Nat.le_trans (depth_part hpart) hm)
      | _ => rfl

/-! ### Sizes and alignments -/

/-- A named type is as large and as aligned as what it stands for. -/
theorem namedSizeAlign_run (n id : Nat) (s : TypeTable) :
    (namedSizeAlign (n + 1) id).run s = (s.definition? id).elim ((0, 1), s) fun u =>
      (sizeAlignWith (namedSizeAlign n) u.home u.type).run s := by
  rw [namedSizeAlign, StateT.run_bind, StateT.run_get, pure_bind]
  cases s.definition? id with
  | none => rfl
  | some u => rfl

/-- A named type that stands for nothing takes no room. -/
theorem namedSizeAlign_none {id : Nat} {s : TypeTable} (h : s.definition? id = none) (n : Nat) :
    (namedSizeAlign n id).run s = ((0, 1), s) := by
  cases n with
  | zero => rfl
  | succ n => rw [namedSizeAlign_run, h, Option.elim_none]

/-- Fields are placed alike if the sizes and alignments of their types are found alike. -/
theorem placeWith_same {named : List Definition} {answer answer' : Nat → LayoutM (UInt64 × UInt64)}
    {fs : List Field}
    (h : ∀ f ∈ fs, ∀ home, LayoutM.Same named (sizeAlignWith answer home f.type)
      (sizeAlignWith answer' home f.type))
    (homes : List Nat) (home : Nat) (p : Layout.Placement) :
    LayoutM.Same named (placeWith answer homes home p fs) (placeWith answer' homes home p fs) := by
  induction fs generalizing homes p with
  | nil =>
      rw [placeWith, placeWith]
      exact .pure p
  | cons f fs ih =>
      rw [placeWith, placeWith]
      refine .bind (h f List.mem_cons_self _) fun sizeAlign => ?_
      exact ih (fun g hg => h g (List.mem_cons_of_mem _ hg)) _ _

/-- Sizes and alignments are the same with all bounds that are no smaller than the depth. -/
theorem sizeAlignWith_depth (h : t.Acyclic) (ty : Ty) {n m : Nat} (hn : t.depth ty ≤ n)
    (hm : t.depth ty ≤ m) (home : Nat) :
    LayoutM.Same t.named (sizeAlignWith (namedSizeAlign n) home ty)
      (sizeAlignWith (namedSizeAlign m) home ty) := by
  induction ty using h.wellFounded.induction generalizing n m home with
  | _ ty ih =>
      cases ty with
      | named id name package =>
          rw [sizeAlignWith, sizeAlignWith]
          cases hu : t.definition? id with
          | none =>
              intro s hs
              have hnone := (definition?_congr hs id).trans hu
              rw [namedSizeAlign_none hnone, namedSizeAlign_none hnone]
              exact ⟨rfl, hs⟩
          | some u =>
              have hlt := depth_definition h hu name package
              obtain ⟨n, rfl⟩ := Nat.exists_eq_add_of_lt (Nat.lt_of_lt_of_le hlt hn)
              obtain ⟨m, rfl⟩ := Nat.exists_eq_add_of_lt (Nat.lt_of_lt_of_le hlt hm)
              intro s hs
              rw [namedSizeAlign_run, namedSizeAlign_run, definition?_congr hs, hu]
              exact ih u.type (mem_parts_named.2 ⟨u, hu, rfl⟩) (Nat.le_add_right _ _)
                (Nat.le_add_right _ _) u.home s hs
      | array len e =>
          have hpart : e ∈ t.parts (.array len e) := List.mem_singleton.2 rfl
          rw [sizeAlignWith, sizeAlignWith]
          refine .get fun s hs => .bind ?_ fun sizeAlign => .pure _
          exact ih e hpart (Nat.le_trans (depth_part hpart) hn)
            (Nat.le_trans (depth_part hpart) hm) _
      | struct fs =>
          rw [sizeAlignWith, sizeAlignWith]
          refine .bind ?_ fun layout => .pure _
          rw [keepLayout, keepLayout]
          refine .get fun s hs => ?_
          cases s.layout? ⟨home, .struct fs⟩ with
          | some layout => exact .pure layout
          | none =>
              refine .bind (placeWith_same (fun f hf home => ?_) _ _ _) fun p =>
                .bind (.keep _ _) fun _ => .pure _
              have hpart : f.type ∈ t.parts (.struct fs) := List.mem_map_of_mem hf
              exact ih f.type hpart (Nat.le_trans (depth_part hpart) hn)
                (Nat.le_trans (depth_part hpart) hm) home
      | _ =>
          simp only [sizeAlignWith]
          exact .pure _

/-- The layout of a type is that of the struct type that it stands for. -/
theorem structLayout?_run (r : TypeRef) (t : TypeTable) :
    (structLayout? r).run t = match (t.resolve r).type with
      | .struct fs =>
        (some <$> structLayoutWith (namedSizeAlign t.named.length) (t.resolve r).home
          (t.resolve r).type fs : LayoutM (Option Layout)).run t
      | _ => (none, t) := by
  rw [structLayout?, StateT.run_bind]
  change StateT.run (match (t.resolve r).type with
    | .struct fs => _
    | _ => _) t = _
  split <;> rfl

/-! ### Named types -/

/-- The functions that follow definitions give for a named type what they give for the type that it
stands for, and have an answer of their own if it stands for nothing. -/
structure Unfolds (t : TypeTable) : Prop where
  kind : ∀ id name, t.resolveDescriptor (.named id name) =
    (t.described? id).elim (.named id name) t.resolveDescriptor
  holds : ∀ target id name, t.holds target (.named id name) =
    (id == target || (t.described? id).any (t.holds target))
  zero : ∀ id name package, t.zero (.named id name package) =
    (t.definition? id).elim .nil fun u => t.zero u.type
  sizeAlign : ∀ home id name package, (sizeAlign ⟨home, .named id name package⟩).run t =
    (t.definition? id).elim ((0, 1), t) fun u => (sizeAlign u).run t
  layout : ∀ home id name package, (structLayout? ⟨home, .named id name package⟩).run t =
    (t.definition? id).elim (none, t) fun u => (structLayout? u).run t

/-- The bound is one more than is needed after a definition was followed. -/
theorem exists_depth_le (h : t.Acyclic) {id : Nat} {u : TypeRef} (hu : t.definition? id = some u) :
    ∃ n, t.named.length = n + 1 ∧ t.depth u.type ≤ n := by
  have hlt := depth_definition h hu "" none
  have hle := t.depth_le (.named id "" none)
  exact ⟨t.named.length - 1, by omega, by omega⟩

/-- **Definitions are followed to their end** in a table without cycles. -/
theorem Acyclic.unfolds (h : t.Acyclic) (ht : t.InStep) : t.Unfolds := by
  constructor
  case kind =>
    intro id name
    have hself := ht.resolveDescriptor_descriptor (.named id name none)
    rw [Ty.descriptor] at hself
    rw [hself, ht.described?_eq, underlying]
    cases hu : t.definition? id with
    | none => rfl
    | some u =>
        rw [Option.map_some, Option.elim_some, Option.elim_some, ht.resolveDescriptor_descriptor,
          underlying_of_not_named (ht.not_named_of_definition? hu)]
  case holds =>
    intro target id name
    have hself := holds_iff ht h target (.named id name none)
    rw [reaches_iff, Ty.descriptor] at hself
    rw [Bool.eq_iff_iff, hself, ht.described?_eq]
    cases hu : t.definition? id with
    | none => simp [parts, hu]
    | some u => simp [parts, hu, holds_iff ht h target u.type]
  case zero =>
    intro id name package
    rw [zero, zeroWith]
    cases hu : t.definition? id with
    | none =>
        cases t.named.length with
        | zero => rfl
        | succ n => rw [zeroNamed, hu, Option.elim_none, Option.elim_none]
    | some u =>
        obtain ⟨n, hn, hdepth⟩ := exists_depth_le h hu
        have hle := t.depth_le u.type
        rw [hn, zeroNamed, hu, Option.elim_some, Option.elim_some, zero]
        exact zeroWith_depth h u.type hdepth hle
  case sizeAlign =>
    intro home id name package
    have hrun : (sizeAlign ⟨home, .named id name package⟩).run t =
        (namedSizeAlign t.named.length id).run t := by
      change (sizeAlignWith _ home (.named id name package)).run t = _
      rw [sizeAlignWith]
    rw [hrun]
    cases hu : t.definition? id with
    | none => rw [namedSizeAlign_none hu, Option.elim_none]
    | some u =>
        obtain ⟨n, hn, hdepth⟩ := exists_depth_le h hu
        have hle := t.depth_le u.type
        rw [hn, namedSizeAlign_run, hu, Option.elim_some, Option.elim_some]
        exact (sizeAlignWith_depth h u.type hdepth hle u.home t rfl).1
  case layout =>
    intro home id name package
    have hself : t.resolve ⟨home, .named id name package⟩ =
        (t.definition? id).getD ⟨home, .named id name package⟩ := rfl
    cases hu : t.definition? id with
    | none =>
        rw [hu, Option.getD_none] at hself
        rw [structLayout?_run, hself, Option.elim_none]
    | some u =>
        rw [hu, Option.getD_some] at hself
        have hnamed := ht.not_named_of_definition? hu
        have hu' : t.resolve u = u := by
          obtain ⟨home', ty⟩ := u
          cases ty <;> first | rfl | cases hnamed
        rw [structLayout?_run, hself, Option.elim_some, structLayout?_run, hu']

end TypeTable

namespace TypeOp

/-- **By-value containment.**  After any operations in any universes, refused ones included, no type
is stored inside its own values; every way inside a type ends; the functions that follow definitions
follow them to their end; and a definition is refused as recursive exactly if it is by a named type
that stands for nothing or would make some type hold itself. -/
theorem performAll_acyclic (ops : List TypeOp) :
    (tableAfter ops).Acyclic ∧ (WellFounded fun b a => b ∈ (tableAfter ops).parts a) ∧
    (tableAfter ops).Unfolds ∧
    ∀ r u name,
      ((Universe.setUnderlying r u).run.run (tableAfter ops)).1 = .error (.invalidRecursive name) ↔
        ∃ id package, r.type = .named id name package ∧
          (¬(tableAfter ops).Defined u.type ∨
            (tableAfter ops).Closes id ((tableAfter ops).underlying u.type)) := by
  have hstep := (performAll_inStep TypeTable.empty_inStep ops).1
  have hacyclic := performAll_keeps_acyclic TypeTable.empty_inStep empty_acyclic ops
  exact ⟨hacyclic, hacyclic.wellFounded, hacyclic.unfolds hstep,
    Universe.setUnderlying_invalidRecursive_iff hstep hacyclic⟩

end TypeOp

end ScriptCore
