import ScriptCore.Code.Basic
import ScriptCore.Values.Text

/-!
# The machine

Running code works on a machine: the heap, the activation records, the function values, the text
printed so far and the number of bodies being executed.  Records and functions are never removed,
since closures may refer to them.

A step of a run changes the machine and may fail; what it did before it failed stays.

Main statements: `Record.get_set_self` and `Record.get_set_ne` (a slot holds what was stored in it
last), `ancestor_zero`.
-/

namespace ScriptCore

/-- An activation record: the slots of one invocation of a body, and the record of the body around
it. -/
structure Record where
  slots : Array Value
  outer : Option Nat
deriving Inhabited

namespace Record

/-- A record with at least `count` slots; the arguments take the first ones. -/
def new (count : Nat) (outer : Option Nat) (args : List Value) : Record :=
  ⟨(args ++ List.replicate (count - args.length) Value.nil).toArray, outer⟩

/-- Value of a slot, nil where there is none. -/
def get (r : Record) (slot : Nat) : Value :=
  r.slots[slot]?.getD .nil

/-- The record with a value stored in a slot, which is created where there is none. -/
def set (r : Record) (slot : Nat) (v : Value) : Record :=
  if slot < r.slots.size then { r with slots := r.slots.setIfInBounds slot v }
  else { r with slots := r.slots ++ (Array.replicate (slot - r.slots.size) Value.nil).push v }

/-- One more slot. -/
def push (r : Record) (v : Value) : Nat × Record :=
  (r.slots.size, { r with slots := r.slots.push v })

/-- A slot holds what was stored in it last. -/
theorem get_set_self (r : Record) (slot : Nat) (v : Value) : (r.set slot v).get slot = v := by
  unfold set get
  split
  · next h => simp [h]
  · next h => simp [Array.getElem?_append, h, Array.getElem_push]

/-- Storing in one slot leaves the others alone. -/
theorem get_set_ne (r : Record) {slot other : Nat} (v : Value) (h : other ≠ slot) :
    (r.set slot v).get other = r.get other := by
  unfold set get
  split
  · simp [Ne.symm h]
  · next hs =>
    simp only [Array.getElem?_append]
    split
    · rfl
    · next hge =>
      have hne : other - r.slots.size ≠ slot - r.slots.size := by omega
      have hnone : r.slots[other]? = none := by simp; omega
      simp only [Array.getElem?_push, Array.size_replicate, hne, if_false,
        Array.getElem?_replicate, hnone]
      split <;> rfl

end Record

/-- What a function value does: run a body inside a record, ask the host, or call a method with
its receiver first. -/
inductive Function where
  | closure (body : Code.Body) (record : Nat)
  | host (index : Nat)
  | bound (method recv : Value)
deriving Inhabited

/-- The state of a run. -/
structure Machine where
  heap : Heap
  records : Array Record
  functions : Array Function
  output : String
  depth : Nat
deriving Inhabited

/-- Why a run ends early: an error of the program, or no fuel left. -/
inductive Failure where
  | error (e : EvalError)
  | outOfFuel

/-- A step of a run. -/
abbrev Run := EStateM Failure Machine

namespace Machine

/-- A machine with the given functions and the record of the package variables, which has number
zero. -/
def start (functions : Array Function) (globals : Array Value) : Machine :=
  ⟨.empty, #[⟨globals, none⟩], functions, "", 0⟩

/-- Number of the record of package variables. -/
def globals : Nat := 0

/-- A record by its number. -/
def record (m : Machine) (r : Nat) : Record :=
  m.records[r]?.getD ⟨#[], none⟩

/-- Record `depth` levels out. -/
def ancestor? (m : Machine) (r : Nat) : Nat → Option Nat
  | 0 => some r
  | depth + 1 => (m.record r).outer.bind fun o => m.ancestor? o depth

end Machine

namespace Run

/-- Fail with an error of the program. -/
def fail {α : Type} (e : EvalError) : Run α :=
  throw (.error e)

/-- The machine that a run leaves behind, whatever way it ends. -/
def after {α : Type} (run : Run α) (m : Machine) : Machine :=
  match run m with
  | .ok _ m' => m'
  | .error _ m' => m'

/-- A computation on values that may fail. -/
def check {α : Type} : Except EvalError α → Run α
  | .ok a => pure a
  | .error e => fail e

/-- A run that looks at the machine first. -/
theorem get_bind {α : Type} (f : Machine → Run α) (m : Machine) :
    (get >>= f) m = f m m := rfl

/-- Record `depth` levels out of `r`. -/
def ancestor (r depth : Nat) : Run Nat := do
  match (← get).ancestor? r depth with
  | some a => return a
  | none => fail (.custom ("no enclosing environment at depth " ++ toString depth))

/-- A record that is there is found. -/
theorem ancestor_of_some {m : Machine} {r depth record : Nat}
    (h : m.ancestor? r depth = some record) : ancestor r depth m = .ok record m := by
  rw [ancestor, get_bind, h]
  rfl

/-- A record is its own ancestor at depth zero. -/
theorem ancestor_zero (r : Nat) (m : Machine) : (ancestor r 0).run m = .ok r m := rfl

/-- Value of a slot. -/
def loadSlot (r slot : Nat) : Run Value := do
  return ((← get).record r).get slot

/-- Store a value in a slot. -/
def storeSlot (r slot : Nat) (v : Value) : Run Unit :=
  modify fun m => { m with records := m.records.modify r fun rec => rec.set slot v }

/-- A new record. -/
def newRecord (count : Nat) (outer : Option Nat) (args : List Value) : Run Nat :=
  modifyGet fun m =>
    (m.records.size, { m with records := m.records.push (.new count outer args) })

/-- A new function value. -/
def newFunction (f : Function) (name : Name) : Run Value :=
  modifyGet fun m => (.func m.functions.size name, { m with functions := m.functions.push f })

/-- A computation on the heap. -/
def onHeap {α : Type} (f : Heap → α × Heap) : Run α :=
  modifyGet fun m =>
    let r := f m.heap
    (r.1, { m with heap := r.2 })

/-- Store a value in a slice. -/
def setElem (s : Slice) (index : Int) (v : Value) : Run Unit := do
  let position ← check (Heap.offset s index)
  onHeap fun h => ((), h.setAt s.array position v)

/-- Store a value in a map. -/
def insertEntry (m : Nat) (key value : Value) : Run Unit := do
  let k ← check (MapKey.ofValue key)
  onHeap fun h => ((), h.insertKey m k value)

/-- Remove a key from a map. -/
def removeEntry (m : Nat) (key : Value) : Run Unit := do
  let k ← check (MapKey.ofValue key)
  onHeap fun h => ((), h.eraseKey m k)

/-- A new slice of the given values. -/
def newSlice (values : List Value) : Run Value :=
  onHeap fun h =>
    let r := h.sliceOf values
    (.slice r.1, r.2)

/-- Trailing arguments as one value: nil, or a new slice. -/
def pack : List Value → Run Value
  | [] => pure .nil
  | values => newSlice values

/-- Print a text. -/
def print (text : String) : Run Unit :=
  modify fun m => { m with output := m.output ++ text }

end Run

end ScriptCore
