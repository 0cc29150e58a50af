import ScriptCore.Values.Basic
import ScriptCore.Values.Error

/-!
# Map keys

The form of a value under which a map files it.  Floating point numbers are compared by their
bits, with both zeros filed as one; slices, maps and functions cannot be keys.  Keys are ordered:
first by what they are, then by value, structs field by field.

Main statement: `toValue_ofValue_int`, an integer is filed as itself.
-/

namespace ScriptCore

/-- The key of a comparable value. -/
inductive MapKey where
  | nil
  | bool (b : Bool)
  | int (i : Int64)
  | uint (u : UInt64)
  | float (bits : UInt64)
  | complex (re im : UInt64)
  | str (s : String)
  | struct (fields : List MapKey)
deriving Repr, Inhabited

namespace MapKey

/-- Bits under which a floating point number is filed. -/
def floatBits (x : Float) : UInt64 :=
  if x == 0.0 then 0 else x.toBits

mutual

/-- Key of a value. -/
def ofValue : Value → Except EvalError MapKey
  | .nil => .ok nil
  | .bool b => .ok (bool b)
  | .int i => .ok (int i)
  | .uint u => .ok (uint u)
  | .float x => .ok (float (floatBits x))
  | .complex re im => .ok (complex (floatBits re) (floatBits im))
  | .str s => .ok (str s)
  | .struct fs => do return struct (← ofValues fs)
  | v => .error (.unhashableKey v.typeName)

/-- Keys of the fields of a struct. -/
def ofValues : List Value → Except EvalError (List MapKey)
  | [] => .ok []
  | v :: vs => do
    let k ← ofValue v
    return k :: (← ofValues vs)

end

mutual

/-- The value a key was made from; both zeros come back as the positive one. -/
def toValue : MapKey → Value
  | nil => .nil
  | bool b => .bool b
  | int i => .int i
  | uint u => .uint u
  | float bits => .float (Float.ofBits bits)
  | complex re im => .complex (Float.ofBits re) (Float.ofBits im)
  | str s => .str s
  | struct fs => .struct (toValues fs)

/-- Values of a list of keys. -/
def toValues : List MapKey → List Value
  | [] => []
  | k :: ks => toValue k :: toValues ks

end

/-- An integer is filed as itself. -/
theorem toValue_ofValue_int (i : Int64) : (ofValue (.int i)).map toValue = .ok (.int i) := by
  simp [ofValue, toValue, Except.map]

/-- Position of a key's form in the order. -/
def rank : MapKey → Nat
  | nil => 0
  | bool _ => 1
  | int _ => 2
  | uint _ => 3
  | float _ => 4
  | complex _ _ => 5
  | str _ => 6
  | struct _ => 7

mutual

/-- Order of keys. -/
def order : MapKey → MapKey → Ordering
  | nil, nil => .eq
  | bool a, bool b => compare a b
  | int a, int b => compare a b
  | uint a, uint b => compare a b
  | float a, float b => compare a b
  | complex a b, complex c d => (compare a c).then (compare b d)
  | str a, str b => compare a b
  | struct a, struct b => orderList a b
  | a, b => compare a.rank b.rank

/-- Order of lists of keys: by the first difference, a shorter list before its extensions. -/
def orderList : List MapKey → List MapKey → Ordering
  | [], [] => .eq
  | [], _ :: _ => .lt
  | _ :: _, [] => .gt
  | a :: as, b :: bs => (order a b).then (orderList as bs)

end

end MapKey

end ScriptCore
