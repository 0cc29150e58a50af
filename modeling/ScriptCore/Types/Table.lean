import ScriptCore.Types.Descriptor

/-!
# Type tables

A table holds what is known about types beyond their trees: for every named type what it stands
for and which methods it has, and for every universe the types built in it.  A universe holds each
type once, as a `TypeRef`, with the descriptor that running code sees of it.  Whether the values of
an array or struct type can be compared is settled when the type is built: a named type that stands
for nothing yet counts as comparable.

What a named type stands for is kept twice, as a type for the compiler and as a descriptor for
running code.  Types are read through the former, descriptors through the latter.

This file reads tables; `ScriptCore.Types.Universe` adds to them.

Main statements: `underlying_of_not_named` (only named types stand for something else) and
`assignable_refl`.
-/

namespace ScriptCore

/-- A type as one universe holds it. -/
structure TypeRef where
  home : Nat
  type : Ty
deriving Repr, DecidableEq, Inhabited

/-- A type built in a universe: its descriptor, whether its values can be compared, and the
universes that hold the types stored inside its values (an array's element, a struct's fields). -/
structure Instance where
  ref : TypeRef
  descriptor : Descriptor
  comparable : Bool
  partHomes : List Nat
deriving Repr, Inhabited

/-- What a named type stands for, as a type and as a descriptor, if it is defined, and its methods
in declaration order. -/
structure Definition where
  underlying : Option TypeRef
  described : Option Descriptor
  methods : List Method
deriving Repr, Inhabited

/-- Say what a named type stands for.  The type and the descriptor are each set once. -/
def Definition.define (d : Definition) (r : TypeRef) (descriptor : Descriptor) : Definition :=
  { d with underlying := d.underlying.or (some r), described := d.described.or (some descriptor) }

/-- Offsets of the fields of a struct, its size and its alignment, in bytes. -/
structure Layout where
  offsets : List UInt64
  size : UInt64
  align : UInt64
deriving Repr, DecidableEq, Inhabited

/-- The types of all universes, the definitions of named types by their numbers, and the struct
layouts that were asked for. -/
structure TypeTable where
  instances : List Instance
  named : List Definition
  layouts : List (TypeRef × Layout)
deriving Repr, Inhabited

namespace TypeTable

/-- The table without types. -/
def empty : TypeTable := ⟨[], [], []⟩

/-- What the named type with number `id` stands for. -/
def definition? (t : TypeTable) (id : Nat) : Option TypeRef :=
  t.named[id]?.bind Definition.underlying

/-- The descriptor of what the named type with number `id` stands for. -/
def described? (t : TypeTable) (id : Nat) : Option Descriptor :=
  t.named[id]?.bind Definition.described

/-- What a defined named type stands for; every other type stands for itself. -/
def resolve (t : TypeTable) (r : TypeRef) : TypeRef :=
  match r.type with
  | .named id _ _ => (t.definition? id).getD r
  | _ => r

/-- The type that a type stands for. -/
def underlying (t : TypeTable) (ty : Ty) : Ty :=
  match ty with
  | .named id _ _ => (t.definition? id).elim ty TypeRef.type
  | _ => ty

/-- Only named types stand for something else. -/
theorem underlying_of_not_named {t : TypeTable} {ty : Ty} (h : ty.isNamed = false) :
    t.underlying ty = ty := by
  cases ty <;> first | rfl | cases h

/-- Kind of a type. -/
def kind (t : TypeTable) (ty : Ty) : Kind :=
  (t.underlying ty).shape

/-- Category of a type. -/
def category (t : TypeTable) (ty : Ty) : Category :=
  (t.kind ty).category

/-- Element of slices, arrays and pointers, value of maps. -/
def elem? (t : TypeTable) (ty : Ty) : Option Ty :=
  match t.underlying ty with
  | .slice e | .pointer e | .array _ e => some e
  | .map _ v => some v
  | _ => none

/-- Key of maps. -/
def key? (t : TypeTable) (ty : Ty) : Option Ty :=
  match t.underlying ty with
  | .map k _ => some k
  | _ => none

/-- Length of arrays. -/
def arrayLen? (t : TypeTable) (ty : Ty) : Option Nat :=
  match t.underlying ty with
  | .array n _ => some n
  | _ => none

/-- Fields of structs; other types have none. -/
def fields (t : TypeTable) (ty : Ty) : List Field :=
  match t.underlying ty with
  | .struct fs => fs
  | _ => []

/-- Position and description of the field with a name. -/
def fieldByName? (t : TypeTable) (ty : Ty) (name : Name) : Option (Nat × Field) :=
  (t.fields ty).zipIdx.findSome? fun (f, i) => if f.name = name then some (i, f) else none

/-- Methods of interfaces; other types have none. -/
def interfaceMethods? (t : TypeTable) (ty : Ty) : Option (List Method) :=
  match t.underlying ty with
  | .interface ms => some ms
  | _ => none

/-- Methods declared for a named type; none for unnamed types. -/
def methods? (t : TypeTable) (ty : Ty) : Option (List Method) :=
  match ty with
  | .named id _ _ => some (t.named[id]?.elim [] Definition.methods)
  | _ => none

/-- Type of the method with a name: a declared one, or one of an interface. -/
def method? (t : TypeTable) (ty : Ty) (name : Name) : Option Ty :=
  let find (ms : List Method) := (ms.find? fun m => m.name == name).map MethodOf.type
  match (t.methods? ty).bind find with
  | some found => some found
  | none => (t.interfaceMethods? ty).bind find

/-- Interface types, named ones included. -/
def isInterface (t : TypeTable) (ty : Ty) : Bool :=
  (t.interfaceMethods? ty).isSome

/-- Two function types agree but for their receivers. -/
def sameSignature (t : TypeTable) (a b : Ty) : Bool :=
  match t.underlying a, t.underlying b with
  | .func _ ps rs v, .func _ ps' rs' v' => ps == ps' && rs == rs' && v == v'
  | _, _ => false

/-- Every method that an interface asks for is provided. -/
def implements (t : TypeTable) (ty iface : Ty) : Bool :=
  match t.interfaceMethods? iface with
  | none => false
  | some required => required.all fun m =>
    (t.method? ty m.name).any fun found => t.sameSignature found m.type

/-- A value of the first type may be used as one of the second: the types are the same, or the
second is an interface that the first implements, or they stand for the same and one of them is a
type literal. -/
def assignable (t : TypeTable) (ty target : Ty) : Bool :=
  ty == target
    || (if t.isInterface target then t.implements ty target
        else (!ty.isDefined || !target.isDefined) && t.underlying ty == t.underlying target)

/-- Every type may be used as itself. -/
theorem assignable_refl (t : TypeTable) (ty : Ty) : t.assignable ty ty = true := by
  simp [assignable]

/-- The entry of a type in its universe. -/
def instance? (t : TypeTable) (r : TypeRef) : Option Instance :=
  t.instances.find? fun i => i.ref == r

/-- Values of a type literal can be compared, as it was settled when the type was built. -/
def isLiteralComparable (t : TypeTable) (r : TypeRef) : Bool :=
  match r.type with
  | .basic _ | .pointer _ | .interface _ => true
  | .array _ _ | .struct _ => (t.instance? r).any Instance.comparable
  | _ => false

mutual

/-- Values of a type of the universe `home` can be compared.  A named type that is not defined
counts as comparable, and an array or struct type that is not built yet as it would if it were. -/
def comparableIn (t : TypeTable) (home : Nat) : Ty → Bool
  | .basic _ | .pointer _ | .interface _ => true
  | .named id _ _ => (t.definition? id).all t.isLiteralComparable
  | .array n e =>
    match t.instance? ⟨home, .array n e⟩ with
    | some i => i.comparable
    | none => t.comparableIn home e
  | .struct fs =>
    match t.instance? ⟨home, .struct fs⟩ with
    | some i => i.comparable
    | none => t.fieldsComparableIn home fs
  | .slice _ | .map _ _ | .func .. => false

/-- Values of all fields can be compared. -/
def fieldsComparableIn (t : TypeTable) (home : Nat) : List (FieldOf Ty) → Bool
  | [] => true
  | ⟨_, ty, _⟩ :: fs => t.comparableIn home ty && t.fieldsComparableIn home fs

end

/-- Values of a type can be compared. -/
def isComparable (t : TypeTable) (r : TypeRef) : Bool :=
  t.comparableIn r.home r.type

/-- The descriptor that a type was built with. -/
def rtype? (t : TypeTable) (r : TypeRef) : Option Descriptor :=
  (t.instance? r).map Instance.descriptor

/-- The descriptor of a type. -/
def rtype (t : TypeTable) (r : TypeRef) : Descriptor :=
  (t.rtype? r).getD r.type.descriptor

/-- Number of types that a universe built. -/
def size (t : TypeTable) (home : Nat) : Nat :=
  t.instances.countP fun i => i.ref.home == home

/-- The first type of a universe with a given descriptor. -/
def ofDescriptor? (t : TypeTable) (home : Nat) (d : Descriptor) : Option TypeRef :=
  (t.instances.find? fun i => i.ref.home == home && i.descriptor == d).map Instance.ref

/-- The descriptor of what a named descriptor stands for, through at most `fuel` definitions. -/
def resolveDescriptorAt (t : TypeTable) : Nat → Descriptor → Descriptor
  | 0, d => d
  | fuel + 1, d =>
    match d with
    | .named id _ => (t.described? id).elim d (t.resolveDescriptorAt fuel)
    | _ => d

/-- The descriptor of what a named descriptor stands for. -/
def resolveDescriptor (t : TypeTable) (d : Descriptor) : Descriptor :=
  t.resolveDescriptorAt t.named.length d

/-- The values of `d` hold a value that `stops` accepts inside themselves, where `stops` answers
for named types. -/
def holdsWith (stops : Nat → Bool) : Descriptor → Bool
  | .named id _ => stops id
  | .array _ e => holdsWith stops e
  | .struct fs => holdsField fs
  | _ => false
where
  /-- The same for one of the fields. -/
  holdsField : List (Name × Descriptor) → Bool
    | [] => false
    | (_, d) :: fs => holdsWith stops d || holdsField fs

/-- `holds` through at most `fuel` definitions. -/
def holdsAt (t : TypeTable) (target : Nat) : Nat → Descriptor → Bool
  | 0 => holdsWith fun id => id == target
  | n + 1 => holdsWith fun id =>
    id == target || (t.described? id).any (t.holdsAt target n)

/-- The values of a type hold a value of the named type `target` inside themselves, through
arrays, struct fields and definitions. -/
def holds (t : TypeTable) (target : Nat) (d : Descriptor) : Bool :=
  t.holdsAt target t.named.length d

end TypeTable

namespace Descriptor

variable (t : TypeTable) (d : Descriptor)

/-- Kind of a descriptor. -/
def kind : Kind := (t.resolveDescriptor d).shape

/-- Text for inspection: the declared name or the kind. -/
def text : String :=
  "RType(" ++ d.name?.getD (d.kind t).text ++ ")"

/-- Element of slices, arrays and pointers, value of maps. -/
def elem? : Option Descriptor :=
  match t.resolveDescriptor d with
  | .slice e | .pointer e | .array _ e => some e
  | .map _ v => some v
  | _ => none

/-- Key of maps. -/
def key? : Option Descriptor :=
  match t.resolveDescriptor d with
  | .map k _ => some k
  | _ => none

/-- Names and descriptors of struct fields. -/
def fields : List (Name × Descriptor) :=
  match t.resolveDescriptor d with
  | .struct fs => fs
  | _ => []

/-- Parameters of functions, the receiver first. -/
def ins : List Descriptor :=
  match t.resolveDescriptor d with
  | .func is _ _ => is
  | _ => []

/-- Results of functions. -/
def outs : List Descriptor :=
  match t.resolveDescriptor d with
  | .func _ os _ => os
  | _ => []

/-- The last parameter collects the remaining arguments. -/
def isVariadic : Bool :=
  match t.resolveDescriptor d with
  | .func _ _ v => v
  | _ => false

end Descriptor

end ScriptCore
