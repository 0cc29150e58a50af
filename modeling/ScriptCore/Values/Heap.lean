import ScriptCore.Values.Key

/-!
# The heap of arrays and maps

Arrays are what slices look at; maps are lists of entries sorted by key.

Main statement: `offset_lt` (a position that passed the bounds check lies in the window).
-/

namespace ScriptCore

/-- Entries of a map, sorted by key. -/
abbrev Entries := List (MapKey × Value)

namespace Entries

/-- Value stored under a key. -/
def find? : Entries → MapKey → Option Value
  | [], _ => none
  | (k, v) :: rest, key => if k.order key = .eq then some v else find? rest key

/-- Entries with a value stored under a key. -/
def insert : Entries → MapKey → Value → Entries
  | [], key, value => [(key, value)]
  | (k, v) :: rest, key, value =>
    match key.order k with
    | .lt => (key, value) :: (k, v) :: rest
    | .eq => (k, value) :: rest
    | .gt => (k, v) :: insert rest key value

/-- Entries without the one stored under a key. -/
def erase : Entries → MapKey → Entries
  | [], _ => []
  | (k, v) :: rest, key => if k.order key = .eq then rest else (k, v) :: erase rest key

end Entries

/-- Arrays and maps by their numbers. -/
structure Heap where
  arrays : Array (Array Value)
  maps : Array Entries
deriving Inhabited

namespace Heap

/-- The heap without arrays and maps. -/
def empty : Heap := ⟨#[], #[]⟩

/-- Number of places where a value is kept. -/
def cells (h : Heap) : Nat :=
  h.arrays.foldl (fun n a => n + a.size) 0 + h.maps.foldl (fun n es => n + es.length) 0

/-- A new array with a window on its first `len` elements. -/
def newSlice (h : Heap) (elems : Array Value) (len : Nat) : Slice × Heap :=
  (⟨h.arrays.size, 0, len, elems.size⟩, { h with arrays := h.arrays.push elems })

/-- A new slice of the given values. -/
def sliceOf (h : Heap) (values : List Value) : Slice × Heap :=
  h.newSlice values.toArray values.length

/-- A new slice of `len` zeros that may grow to `cap`. -/
def makeSlice (h : Heap) (len cap : Nat) (zero : Value) : Slice × Heap :=
  h.newSlice (Array.replicate (max cap len) zero) len

/-- A new map. -/
def newMap (h : Heap) : Nat × Heap :=
  (h.maps.size, { h with maps := h.maps.push [] })

/-- The array a slice looks at. -/
def arrayOf (h : Heap) (s : Slice) : Array Value :=
  h.arrays[s.array]?.getD #[]

/-- Elements of a slice. -/
def elems (h : Heap) (s : Slice) : List Value :=
  ((h.arrayOf s).extract s.start (s.start + s.len)).toList

/-- Position in the array of an element of a slice. -/
def offset (s : Slice) (index : Int) : Except EvalError Nat :=
  if 0 ≤ index ∧ index < s.len then .ok (s.start + index.toNat)
  else .error (.indexOutOfRange index s.len)

/-- A position that passed the bounds check lies in the window. -/
theorem offset_lt {s : Slice} {index : Int} {p : Nat} (h : offset s index = .ok p) :
    s.start ≤ p ∧ p < s.start + s.len := by
  unfold offset at h
  split at h
  · cases h; omega
  · cases h

/-- Element of a slice. -/
def getElem (h : Heap) (s : Slice) (index : Int) : Except EvalError Value := do
  return ((h.arrayOf s)[← offset s index]?).getD .nil

/-- The heap with a value stored at a position of an array. -/
def setAt (h : Heap) (array position : Nat) (v : Value) : Heap :=
  { h with arrays := h.arrays.modify array fun a => a.setIfInBounds position v }

/-- The heap with a value stored in a slice. -/
def setElem (h : Heap) (s : Slice) (index : Int) (v : Value) : Except EvalError Heap := do
  return h.setAt s.array (← offset s index) v

/-- Store values one after the other. -/
def writeAll (a : Array Value) (p : Nat) : List Value → Array Value
  | [] => a
  | v :: vs => writeAll (a.setIfInBounds p v) (p + 1) vs

/-- A slice longer by the given values: in the same array while they fit, or else in a new one
of at least twice the room. -/
def append (h : Heap) (s : Slice) (values : List Value) : Slice × Heap :=
  let len := s.len + values.length
  if len ≤ s.cap then
    ({ s with len },
      { h with arrays := h.arrays.modify s.array fun a => writeAll a (s.start + s.len) values })
  else
    let cap := max len (s.cap * 2)
    let grown := h.elems s ++ values
    h.newSlice (grown ++ List.replicate (cap - grown.length) Value.nil).toArray len

/-- Entries of a map. -/
def entries (h : Heap) (m : Nat) : Entries :=
  h.maps[m]?.getD []

/-- Value stored in a map under a key. -/
def lookup (h : Heap) (m : Nat) (key : Value) : Except EvalError (Option Value) := do
  return (h.entries m).find? (← MapKey.ofValue key)

/-- The heap with a value stored in a map under the form of its key. -/
def insertKey (h : Heap) (m : Nat) (key : MapKey) (value : Value) : Heap :=
  { h with maps := h.maps.modify m fun es => es.insert key value }

/-- The heap with the form of a key removed from a map. -/
def eraseKey (h : Heap) (m : Nat) (key : MapKey) : Heap :=
  { h with maps := h.maps.modify m fun es => es.erase key }

/-- The heap with a value stored in a map. -/
def insert (h : Heap) (m : Nat) (key value : Value) : Except EvalError Heap := do
  return h.insertKey m (← MapKey.ofValue key) value

/-- The heap with a key removed from a map. -/
def remove (h : Heap) (m : Nat) (key : Value) : Except EvalError Heap := do
  return h.eraseKey m (← MapKey.ofValue key)

/-- Length of a string in bytes, of a slice or of a map; other values have none. -/
def length? (h : Heap) : Value → Option Nat
  | .nil => some 0
  | .str s => some s.utf8ByteSize
  | .slice s => some s.len
  | .map m => some (h.entries m).length
  | _ => none

end Heap

end ScriptCore
