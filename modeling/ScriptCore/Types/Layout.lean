import ScriptCore.Types.Table

/-!
# Sizes, alignments and field offsets

Fields are placed in order, each at the next multiple of its alignment; a struct is as strictly
aligned as its strictest field and as long as a multiple of that.  A struct is laid out when this
is first asked for and keeps its layout: a named field that stood for nothing then takes no room.

Sizes are 64-bit words; the size of an array stops at the largest word.

Main statement: `alignUp_mul`, aligning a multiple of the alignment changes nothing.
-/

namespace ScriptCore

/-- Computing layouts, which are kept in the table. -/
abbrev LayoutM := StateM TypeTable

namespace Layout

/-- Quotient rounded up. -/
def ceilDiv (a b : UInt64) : UInt64 :=
  a / b + if a % b = 0 then 0 else 1

/-- The next multiple of `align`. -/
def alignUp (offset align : UInt64) : UInt64 :=
  ceilDiv offset align * align

/-- A multiple of the alignment is its own next multiple. -/
theorem alignUp_mul {offset align : UInt64} (h : offset % align = 0) :
    alignUp offset align = offset / align * align := by
  simp [alignUp, ceilDiv, h]

/-- Product, or the largest word where it is larger than that. -/
def saturatingMul (a : UInt64) (b : Nat) : UInt64 :=
  UInt64.ofNat (min (a.toNat * b) (UInt64.size - 1))

/-- Place one more field: the offsets so far, where the last field ends, and the alignment. -/
structure Placement where
  offsets : List UInt64
  stop : UInt64
  align : UInt64

/-- Nothing is placed yet. -/
def Placement.start : Placement := ⟨[], 0, 1⟩

/-- Place a field of the given size and alignment. -/
def Placement.place (p : Placement) (sizeAlign : UInt64 × UInt64) : Placement :=
  let at' := alignUp p.stop sizeAlign.2
  ⟨p.offsets ++ [at'], at' + sizeAlign.1, max p.align sizeAlign.2⟩

/-- The layout of the fields placed. -/
def Placement.finish (p : Placement) : Layout :=
  ⟨p.offsets, alignUp p.stop p.align, p.align⟩

end Layout

namespace TypeTable

/-- Layout that was asked for before. -/
def layout? (t : TypeTable) (r : TypeRef) : Option Layout :=
  (t.layouts.find? fun e => e.1 == r).map Prod.snd

/-- Universes that hold the parts of a type. -/
def partHomes (t : TypeTable) (r : TypeRef) : List Nat :=
  (t.instance? r).elim [] Instance.partHomes

/-- The layout of a struct type that was asked for before, or else the one that `place` finds, given
the universes of the fields; it is kept. -/
def keepLayout (r : TypeRef) (place : List Nat → LayoutM Layout.Placement) : LayoutM Layout := do
  let t ← get
  match t.layout? r with
  | some layout => return layout
  | none =>
    let layout := (← place (t.partHomes r)).finish
    modify fun t => { t with layouts := t.layouts ++ [(r, layout)] }
    return layout

mutual

/-- Size and alignment of a type held by the universe `home`; `named` answers for named types. -/
def sizeAlignWith (named : Nat → LayoutM (UInt64 × UInt64)) (home : Nat) :
    Ty → LayoutM (UInt64 × UInt64)
  | .named id _ _ => named id
  | .array n e => do
    let homes := (← get).partHomes ⟨home, .array n e⟩
    let (size, align) ← sizeAlignWith named (homes.headD home) e
    return (Layout.saturatingMul size n, align)
  | .struct fs => do
    let layout ← keepLayout ⟨home, .struct fs⟩ fun homes => placeWith named homes home .start fs
    return (layout.size, layout.align)
  | ty => return ty.shape.layout?.getD (0, 1)

/-- Place fields one after the other. -/
def placeWith (named : Nat → LayoutM (UInt64 × UInt64)) (homes : List Nat) (home : Nat)
    (p : Layout.Placement) : List (FieldOf Ty) → LayoutM Layout.Placement
  | [] => return p
  | ⟨_, ty, _⟩ :: fs => do
    let sizeAlign ← sizeAlignWith named (homes.headD home) ty
    placeWith named homes.tail home (p.place sizeAlign) fs

end

/-- Layout of the struct type `ty` with the given fields. -/
def structLayoutWith (named : Nat → LayoutM (UInt64 × UInt64)) (home : Nat) (ty : Ty)
    (fs : List (FieldOf Ty)) : LayoutM Layout :=
  keepLayout ⟨home, ty⟩ fun homes => placeWith named homes home .start fs

/-- Size and alignment of the named type `id`, through at most `fuel` definitions. -/
def namedSizeAlign : Nat → Nat → LayoutM (UInt64 × UInt64)
  | 0, _ => return (0, 1)
  | fuel + 1, id => do
    match (← get).definition? id with
    | some r => sizeAlignWith (namedSizeAlign fuel) r.home r.type
    | none => return (0, 1)

/-- Size and alignment of a type. -/
def sizeAlign (r : TypeRef) : LayoutM (UInt64 × UInt64) := do
  sizeAlignWith (namedSizeAlign (← get).named.length) r.home r.type

/-- Layout of a struct type, none for other types. -/
def structLayout? (r : TypeRef) : LayoutM (Option Layout) := do
  let t ← get
  let r := t.resolve r
  match r.type with
  | .struct fs => some <$> structLayoutWith (namedSizeAlign t.named.length) r.home r.type fs
  | _ => return none

end TypeTable

end ScriptCore
