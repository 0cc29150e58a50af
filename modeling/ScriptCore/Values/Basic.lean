import ScriptCore.Types.Table

/-!
# Run-time values

Scalars and structs are values; slices, maps and functions are references.  A slice is a window on
an array of the heap.  Integers of any width are kept in 64 bits and narrowed where they are
stored.  `nil` is the empty slice, map and function.

Main statements: `same_refl_of_no_float` (equality holds of a value and itself when there is no
floating point number in it) and `zero_basic`.
-/

namespace ScriptCore

/-- The window `[start, start + len)` of an array, which may grow up to `start + cap`. -/
structure Slice where
  array : Nat
  start : Nat
  len : Nat
  cap : Nat
deriving Repr, DecidableEq, Inhabited

/-- A run-time value.  Maps and functions are given by their numbers; a function also carries the
name it prints. -/
inductive Value where
  | nil
  | bool (b : Bool)
  | int (i : Int64)
  | uint (u : UInt64)
  | float (x : Float)
  | complex (re im : Float)
  | str (s : String)
  | slice (s : Slice)
  | map (ref : Nat)
  | struct (fields : List Value)
  | func (ref : Nat) (name : Name)
deriving Repr, Inhabited

namespace Value

/-- The value is nil. -/
def isNil : Value → Bool
  | nil => true
  | _ => false

/-- Short name of what a value is. -/
def typeName : Value → String
  | nil => "nil"
  | bool _ => "bool"
  | int _ => "int"
  | uint _ => "uint"
  | float _ => "float64"
  | complex _ _ => "complex128"
  | str _ => "string"
  | slice _ => "slice"
  | map _ => "map"
  | struct _ => "struct"
  | func _ _ => "func"

mutual

/-- Equality of the language: scalars by value, structs field by field, references by what they
refer to.  A floating point number that is not a number equals nothing. -/
def same : Value → Value → Bool
  | nil, nil => true
  | bool a, bool b => a == b
  | int a, int b => a == b
  | uint a, uint b => a == b
  | float a, float b => a == b
  | complex a b, complex c d => a == c && b == d
  | str a, str b => a == b
  | struct a, struct b => sameList a b
  | slice a, slice b => a.array == b.array && a.start == b.start && a.len == b.len
  | map a, map b => a == b
  | func a _, func b _ => a == b
  | _, _ => false

/-- Equality of two lists of values. -/
def sameList : List Value → List Value → Bool
  | [], [] => true
  | a :: as, b :: bs => same a b && sameList as bs
  | _, _ => false

end

mutual

/-- There is no floating point number in the value. -/
def isExact : Value → Bool
  | float _ | complex _ _ => false
  | struct fs => isExactList fs
  | _ => true

/-- There is no floating point number in the values. -/
def isExactList : List Value → Bool
  | [] => true
  | v :: vs => isExact v && isExactList vs

end

mutual

/-- A value without floating point numbers equals itself. -/
theorem same_refl_of_no_float (v : Value) (h : v.isExact = true) : v.same v = true := by
  cases v
  case struct fs => simp only [isExact] at h; simp [same, sameList_refl_of_no_float fs h]
  case float x => cases h
  case complex re im => cases h
  all_goals simp [same]

/-- Values without floating point numbers equal themselves. -/
theorem sameList_refl_of_no_float (vs : List Value) (h : isExactList vs = true) :
    sameList vs vs = true := by
  match vs with
  | [] => rfl
  | v :: vs =>
    simp only [isExactList, Bool.and_eq_true] at h
    simp [sameList, same_refl_of_no_float v h.1, sameList_refl_of_no_float vs h.2]

end

end Value

/-- A field of a struct value, nil beyond the last one. -/
def fieldAt (fields : List Value) (i : Nat) : Value :=
  fields[i]?.getD .nil

/-- Zero of a basic kind, nil for all others. -/
def Kind.zero (k : Kind) : Value :=
  match k.category with
  | .bool => .bool false
  | .int => .int 0
  | .uint => .uint 0
  | .float => .float 0
  | .complex => .complex 0 0
  | .string => .str ""
  | .func | .unknown => .nil

namespace TypeTable

mutual

/-- Zero value of a type, where `named` answers for named types. -/
def zeroWith (named : Nat → Value) : Ty → Value
  | .basic k => k.zero
  | .struct fs => .struct (zeroFields named fs)
  | .named id _ _ => named id
  | _ => .nil

/-- Zero values of the fields of a struct. -/
def zeroFields (named : Nat → Value) : List (FieldOf Ty) → List Value
  | [] => []
  | ⟨_, ty, _⟩ :: fs => zeroWith named ty :: zeroFields named fs

end

/-- Zero value of the named type `id`, through at most `fuel` definitions. -/
def zeroNamed (t : TypeTable) : Nat → Nat → Value
  | 0, _ => .nil
  | fuel + 1, id => (t.definition? id).elim .nil fun r => zeroWith (t.zeroNamed fuel) r.type

/-- The value of a location before anything is stored in it. -/
def zero (t : TypeTable) (ty : Ty) : Value :=
  zeroWith (t.zeroNamed t.named.length) ty

/-- Zero value of a basic type. -/
theorem zero_basic (t : TypeTable) (k : Kind) : t.zero (.basic k) = k.zero := by
  simp [zero, zeroWith]

/-- The value can be stored in a location of the type. -/
def fits (t : TypeTable) (v : Value) (ty : Ty) : Bool :=
  match t.kind ty, v with
  | .interface, _ => true
  | .slice, .slice _ | .slice, .nil => true
  | .map, .map _ | .map, .nil => true
  | .func, .func _ _ | .func, .nil => true
  | .struct, .struct fs => fs.length == (t.fields ty).length
  | k, v =>
    match k.category, v with
    | .bool, .bool _ | .int, .int _ | .uint, .uint _ | .float, .float _
    | .complex, .complex _ _ | .string, .str _ => true
    | _, _ => false

end TypeTable

end ScriptCore
