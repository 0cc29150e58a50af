import ScriptCore.Machine.Eval

/-!
# Locations

Where an assignment stores: a slot of a record, an entry of a map, an element of a slice, or a
field of a struct at one of these.  Structs are values, so storing in a field stores a changed
struct in the location around it.

Main statements: `Target.store_slot` and `Target.load_slot`, storing in and loading from a
variable.
-/

namespace ScriptCore

/-- A location but for its key, found when the code runs. -/
inductive Target where
  | slot (record slot : Nat)
  | map (ref : Nat)
  /-- Loading gives the zero value, storing fails. -/
  | nilMap
  | slice (s : Slice)
  | field (base : Target) (key : Option Value) (index : Nat) (zero : Value)
deriving Inhabited

/-- Index given by an optional key. -/
def keyIndex : Option Value → Int
  | some v => v.index
  | none => -1

namespace Target

/-- The value at a location; an entry that a map does not have reads as `zero`. -/
def load : Target → Option Value → Value → Run Value
  | slot r s, _, _ => Run.loadSlot r s
  | map ref, some key, zero => do return (← Run.check ((← get).heap.lookup ref key)).getD zero
  | map _, none, zero => pure zero
  | nilMap, _, zero => pure zero
  | slice s, key, _ => do Run.check ((← get).heap.getElem s (keyIndex key))
  | field base key index zero, _, _ => do
    let v ← base.load key zero
    return fieldAt (← Run.check (structFields v)) index

/-- Store a value at a location. -/
def store : Target → Option Value → Value → Run Unit
  | slot r s, _, v => Run.storeSlot r s v
  | map ref, some key, v => Run.insertEntry ref key v
  | map _, none, _ => Run.fail (.custom "map store without a key")
  | nilMap, _, _ => Run.fail .nilMapStore
  | slice s, key, v => Run.setElem s (keyIndex key) v
  | field base key index zero, _, v => do
    let fields ← Run.check (structFields (← base.load key zero))
    if index < fields.length then base.store key (.struct (fields.set index v))
    else Run.fail (.indexOutOfRange index fields.length)

/-- Storing in a variable stores in its slot. -/
theorem store_slot (r s : Nat) (key : Option Value) (v : Value) :
    (slot r s).store key v = Run.storeSlot r s v := by
  cases key <;> rfl

/-- Loading a variable loads its slot. -/
theorem load_slot (r s : Nat) (key : Option Value) (zero : Value) :
    (slot r s).load key zero = Run.loadSlot r s := by
  cases key <;> rfl

end Target

/-- Value of an optional expression. -/
def evalOption (x : Context) (r : Nat) : Option Code.Expr → Run (Option Value)
  | none => pure none
  | some e => do return some (← eval x r e)

/-- Find a location but for its key. -/
def locate (x : Context) (r : Nat) : Code.Container → Run Target
  | .var depth slot => do return .slot (← Run.ancestor r depth) slot
  | .map e => do
    match ← eval x r e with
    | .map ref => return .map ref
    | .nil => return .nilMap
    | v => Run.fail (.conversion v.typeName "map")
  | .slice e => do
    match ← eval x r e with
    | .slice s => return .slice s
    | .nil => return .slice ⟨0, 0, 0, 0⟩
    | v => Run.fail (.conversion v.typeName "slice")
  | .field base key index zero => do
    let b ← locate x r base
    let k ← evalOption x r key
    return .field b k index zero

/-- The value at a location. -/
def readAt (x : Context) (r : Nat) (container : Code.Container) (key : Option Code.Expr)
    (zero : Value) : Run Value := do
  let target ← locate x r container
  let k ← evalOption x r key
  target.load k zero

end ScriptCore
