import ScriptCore.Types.Table
import ScriptCore.Types.Error

/-!
# Building types

Every universe keeps the types built in it and gives out the same reference when the same type is
built again.  A named type is new each time; what it stands for is set later, once, so that types
can be recursive.

Main statements: `intern_mem` (a type that was built is held) and `intern_again` (building it
again changes nothing).
-/

namespace ScriptCore

/-- Building types; a failing step keeps what was built before. -/
abbrev Build := ExceptT TypeError (StateM TypeTable)

/-- A step that looks at the table first. -/
theorem Build.get_bind {α : Type} (step : TypeTable → Build α) (t : TypeTable) :
    (get >>= step).run.run t = (step t).run.run t := rfl

namespace TypeTable

/-- The table with a type built in a universe. -/
def intern (t : TypeTable) (i : Instance) : TypeTable :=
  if (t.instance? i.ref).isSome then t else { t with instances := t.instances ++ [i] }

/-- A type that was built is held. -/
theorem intern_mem (t : TypeTable) (i : Instance) : ((t.intern i).instance? i.ref).isSome := by
  unfold intern
  split
  · assumption
  · simp [instance?]

/-- Building a type again changes nothing. -/
theorem intern_again (t : TypeTable) (i : Instance) : (t.intern i).intern i = t.intern i := by
  have h := intern_mem t i
  generalize t.intern i = s at h
  simp [intern, h]

end TypeTable

namespace Universe

/-- Build a type with its descriptor in the universe `home`. -/
def intern (home : Nat) (ty : Ty) (descriptor : Descriptor) (comparable : Bool)
    (partHomes : List Nat) : Build TypeRef := do
  modify fun t => t.intern ⟨⟨home, ty⟩, descriptor, comparable, partHomes⟩
  return ⟨home, ty⟩

/-- Predeclared type; a kind that is not basic gives the invalid type. -/
def basic (home : Nat) (k : Kind) : Build TypeRef :=
  let kind := if k.isBasic then k else .invalid
  intern home (.basic kind) (.basic kind) true []

/-- Slices of a type. -/
def slice (home : Nat) (elem : TypeRef) : Build TypeRef := do
  intern home (.slice elem.type) (.slice ((← get).rtype elem)) false []

/-- Arrays of a type. -/
def array (home : Nat) (len : Nat) (elem : TypeRef) : Build TypeRef := do
  let t ← get
  intern home (.array len elem.type) (.array len (t.rtype elem)) (t.isComparable elem) [elem.home]

/-- Maps; the values of the key type must be comparable. -/
def map (home : Nat) (key value : TypeRef) : Build TypeRef := do
  let t ← get
  if t.isComparable key then
    intern home (.map key.type value.type) (.map (t.rtype key) (t.rtype value)) false []
  else throw (.notComparable key.type)

/-- Pointers to a type. -/
def pointer (home : Nat) (elem : TypeRef) : Build TypeRef := do
  intern home (.pointer elem.type) (.pointer ((← get).rtype elem)) true []

/-- The first name that is written a second time; blank names may be repeated. -/
def repeatedField? : List Name → List Name → Option Name
  | _, [] => none
  | seen, n :: rest =>
    if n ≠ blank ∧ n ∈ seen then some n else repeatedField? (n :: seen) rest

/-- Structs; no two fields have one name. -/
def struct (home : Nat) (fields : List (FieldOf TypeRef)) : Build TypeRef := do
  match repeatedField? [] (fields.map FieldOf.name) with
  | some name => throw (.duplicateField name)
  | none =>
    let t ← get
    intern home (.struct (fields.map fun f => ⟨f.name, f.type.type, f.embedded⟩))
      (.struct (fields.map fun f => (f.name, t.rtype f.type)))
      (fields.all fun f => t.isComparable f.type) (fields.map fun f => f.type.home)

/-- The first name that stands twice in a row. -/
def repeatedMethod? {α : Type} : List (MethodOf α) → Option Name
  | a :: b :: rest => if a.name = b.name then some a.name else repeatedMethod? (b :: rest)
  | _ => none

/-- Interfaces: methods of function types, sorted by name, no two of one name. -/
def interface (home : Nat) (methods : List (MethodOf TypeRef)) : Build TypeRef := do
  let t ← get
  match methods.find? fun m => t.kind m.type.type != .func with
  | some m => throw (.notFunc "Method" m.type.type)
  | none =>
    let sorted := methods.mergeSort fun a b => decide (a.name ≤ b.name)
    match repeatedMethod? sorted with
    | some name => throw (.duplicateMethod "interface" name)
    | none =>
      intern home (.interface (sorted.map fun m => ⟨m.name, m.type.type⟩))
        (.interface (sorted.map fun m => (m.name, t.rtype m.type))) true []

/-- Functions and methods; the last parameter of a variadic one is a slice. -/
def func (home : Nat) (recv : Option TypeRef) (ins outs : List TypeRef) (variadic : Bool) :
    Build TypeRef := do
  let t ← get
  let last := (ins.map TypeRef.type).getLast?
  if variadic && !(last.any fun ty => t.kind ty == .slice) then throw (.variadicNotSlice last)
  else
    intern home (.func (recv.map TypeRef.type) (ins.map TypeRef.type) (outs.map TypeRef.type)
      variadic) (.func ((recv.toList ++ ins).map t.rtype) (outs.map t.rtype) variadic) false []

/-- The universe to which a function type belongs: the receiver's, else the first parameter's,
else the first result's, else `default`. -/
def owner (default : Nat) (recv : Option TypeRef) (ins outs : List TypeRef) : Nat :=
  ((recv.or ins.head?).or outs.head?).elim default TypeRef.home

/-- A new named type that stands for nothing yet. -/
def named (home : Nat) (name : Name) (package : Option String) : Build TypeRef := do
  let id := (← get).named.length
  modify fun t => { t with named := t.named ++ [⟨none, none, []⟩] }
  intern home (.named id name package) (.named id name) true []

/-- Define what a named type stands for. -/
def setUnderlying (r underlying : TypeRef) : Build Unit := do
  match r.type with
  | .named id name _ =>
    let t ← get
    let resolved := t.resolve underlying
    if resolved.type.isNamed || t.holds id (t.rtype resolved) then throw (.invalidRecursive name)
    else if (t.definition? id).isSome then throw (.alreadyDefined name)
    else
      set { t with named := t.named.modify id fun d => d.define resolved (t.rtype resolved) }
  | ty => throw (.notNamed ty)

/-- Receiver of a function type. -/
def receiver? (t : TypeTable) (ty : Ty) : Option Ty :=
  match t.underlying ty with
  | .func recv _ _ _ => recv
  | _ => none

/-- Declare a method of a named type. -/
def addMethod (r : TypeRef) (name : Name) (func : TypeRef) : Build Unit := do
  match r.type with
  | .named id owner _ =>
    let t ← get
    if (receiver? t func.type).isNone then throw (.notMethod func.type)
    else if ((t.methods? r.type).getD []).any fun m => m.name == name then
      throw (.duplicateMethod owner name)
    else
      set { t with named := t.named.modify id fun d =>
        { d with methods := d.methods.concat ⟨name, func.type⟩ } }
  | ty => throw (.notNamed ty)

end Universe

end ScriptCore
