import ScriptCore.Types.Basic

/-!
# Runtime descriptors

What running code sees of a type.  The descriptor of a function is one flat list of parameters
with the receiver of a method in front, and the descriptor of a struct does not tell embedded
fields from others.

Main statements: `Descriptor.same_iff` (the comparison decides equality) and
`Ty.descriptor_method` (a method has the descriptor of the plain function).
-/

namespace ScriptCore

/-- Runtime descriptor of a type. -/
inductive Descriptor where
  | basic (kind : Kind)
  | slice (elem : Descriptor)
  | array (len : Nat) (elem : Descriptor)
  | map (key value : Descriptor)
  | pointer (elem : Descriptor)
  | struct (fields : List (Name × Descriptor))
  | interface (methods : List (Name × Descriptor))
  | func (ins outs : List Descriptor) (variadic : Bool)
  | named (id : Nat) (name : Name)
deriving Repr, Inhabited

namespace Descriptor

mutual

/-- Comparison of two descriptors; named ones are compared by their number. -/
def same : Descriptor → Descriptor → Bool
  | basic a, basic b => a == b
  | slice a, slice b => same a b
  | array m a, array n b => m == n && same a b
  | map k v, map k' v' => same k k' && same v v'
  | pointer a, pointer b => same a b
  | struct fs, struct gs => samePairs fs gs
  | interface ms, interface ns => samePairs ms ns
  | func is os v, func is' os' v' => sameList is is' && sameList os os' && v == v'
  | named i n, named j m => i == j && n == m
  | _, _ => false

/-- Comparison of two lists of descriptors. -/
def sameList : List Descriptor → List Descriptor → Bool
  | [], [] => true
  | a :: as, b :: bs => same a b && sameList as bs
  | _, _ => false

/-- Comparison of two lists of descriptors with names. -/
def samePairs : List (Name × Descriptor) → List (Name × Descriptor) → Bool
  | [], [] => true
  | (n, a) :: as, (m, b) :: bs => n == m && same a b && samePairs as bs
  | _, _ => false

end

mutual

/-- The comparison decides equality. -/
theorem same_iff (a b : Descriptor) : same a b = true ↔ a = b := by
  cases a <;> cases b
  case basic.basic a b => simp [same]
  case slice.slice a b => simp [same, same_iff a b]
  case array.array m a n b => simp [same, same_iff a b]
  case map.map k v k' v' => simp [same, same_iff k k', same_iff v v']
  case pointer.pointer a b => simp [same, same_iff a b]
  case struct.struct fs gs => simp [same, samePairs_iff fs gs]
  case interface.interface ms ns => simp [same, samePairs_iff ms ns]
  case func.func is os v is' os' v' =>
    simp [same, sameList_iff is is', sameList_iff os os', and_assoc]
  case named.named i n j m => simp [same]
  all_goals simp [same]

/-- The comparison decides equality of lists. -/
theorem sameList_iff (as bs : List Descriptor) : sameList as bs = true ↔ as = bs := by
  match as, bs with
  | [], [] => simp [sameList]
  | [], _ :: _ => simp [sameList]
  | _ :: _, [] => simp [sameList]
  | a :: as, b :: bs => simp [sameList, same_iff a b, sameList_iff as bs]

/-- The comparison decides equality of lists with names. -/
theorem samePairs_iff (as bs : List (Name × Descriptor)) :
    samePairs as bs = true ↔ as = bs := by
  match as, bs with
  | [], [] => simp [samePairs]
  | [], _ :: _ => simp [samePairs]
  | _ :: _, [] => simp [samePairs]
  | (n, a) :: as, (m, b) :: bs => simp [samePairs, same_iff a b, samePairs_iff as bs]

end

instance : DecidableEq Descriptor := fun a b => decidable_of_iff _ (same_iff a b)

/-- Shape of a descriptor; a named one has none of its own. -/
def shape : Descriptor → Kind
  | basic k => k
  | slice _ => .slice
  | array _ _ => .array
  | map _ _ => .map
  | pointer _ => .pointer
  | struct _ => .struct
  | interface _ => .interface
  | func .. => .func
  | named .. => .invalid

/-- Declared name. -/
def name? : Descriptor → Option Name
  | named _ n => some n
  | _ => none

end Descriptor

namespace Ty

mutual

/-- Descriptor of a type. -/
def descriptor : Ty → Descriptor
  | basic k => .basic k
  | slice e => .slice e.descriptor
  | array n e => .array n e.descriptor
  | map k v => .map k.descriptor v.descriptor
  | pointer e => .pointer e.descriptor
  | struct fs => .struct (fieldDescriptors fs)
  | interface ms => .interface (methodDescriptors ms)
  | func none ps rs v => .func (descriptors ps) (descriptors rs) v
  | func (some r) ps rs v => .func (r.descriptor :: descriptors ps) (descriptors rs) v
  | named id n _ => .named id n

/-- Descriptors of a list of types. -/
def descriptors : List Ty → List Descriptor
  | [] => []
  | t :: ts => t.descriptor :: descriptors ts

/-- Names and descriptors of fields. -/
def fieldDescriptors : List (FieldOf Ty) → List (Name × Descriptor)
  | [] => []
  | ⟨n, t, _⟩ :: fs => (n, t.descriptor) :: fieldDescriptors fs

/-- Names and descriptors of methods. -/
def methodDescriptors : List (MethodOf Ty) → List (Name × Descriptor)
  | [] => []
  | ⟨n, t⟩ :: ms => (n, t.descriptor) :: methodDescriptors ms

end

/-- A method has the descriptor of the function that takes its receiver first. -/
theorem descriptor_method (r : Ty) (ps rs : List Ty) (v : Bool) :
    (func (some r) ps rs v).descriptor = (func none (r :: ps) rs v).descriptor := rfl

/-- A type and its descriptor have the same shape. -/
theorem descriptor_shape (t : Ty) : t.descriptor.shape = t.shape := by
  cases t with
  | func recv _ _ _ => cases recv <;> rfl
  | _ => rfl

end Ty

end ScriptCore
