import ScriptCore.Machine.Basic
import ScriptCore.Values.Operators

/-!
# Evaluation

Operands are evaluated from left to right, each once, and evaluation stops at the first error.
Calls go through the context, so evaluation itself is by recursion on the code.

Main statements: `eval_const`, `eval_both_false` (the second operand of a decided condition is not
evaluated).
-/

namespace ScriptCore

/-- What evaluation needs besides the machine: the types, and how a function value is called. -/
structure Context where
  types : TypeTable
  call : Value → List Value → Run (List Value)

/-- Name of what a value of a category must be. -/
def Category.valueName : Category → String
  | .float => "float64"
  | .complex => "complex128"
  | c => c.text

/-- The value, if it is stored in the way of the category. -/
def Value.expect (c : Category) (v : Value) : Except EvalError Value :=
  match c, v with
  | .bool, .bool _ | .int, .int _ | .uint, .uint _ | .float, .float _
  | .complex, .complex _ _ | .string, .str _ | .func, _ | .unknown, _ => .ok v
  | c, v => .error (.conversion v.typeName c.valueName)

/-- Truth of a condition; what is not a boolean counts as false. -/
def Value.isTrue : Value → Bool
  | .bool b => b
  | _ => false

/-- An index held by a value; values that are no integers count as minus one. -/
def Value.index : Value → Int
  | .int i => i.toInt
  | .uint u => min (Int.ofNat u.toNat) Int64.maxValue.toInt
  | _ => -1

/-- Element of a map, zero if there is none. -/
def mapElement (h : Heap) (m key zero : Value) : Except EvalError Value :=
  match m with
  | .map ref => do return (← h.lookup ref key).getD zero
  | .nil => .ok zero
  | v => .error (.conversion v.typeName "map")

/-- Element of a slice. -/
def sliceElement (h : Heap) (s : Value) (index : Int) : Except EvalError Value :=
  match s with
  | .slice s => h.getElem s index
  | .nil => .error (.indexOutOfRange index 0)
  | v => .error (.conversion v.typeName "slice")

/-- Byte of a string. -/
def byteOf (s : Value) (index : Int) : Except EvalError Value :=
  match s with
  | .str s =>
    let bytes := Utf8.encode s
    match (if 0 ≤ index then bytes[index.toNat]? else none) with
    | some b => .ok (.uint b.toUInt64)
    | none => .error (.indexOutOfRange index bytes.length)
  | v => .error (.conversion v.typeName "string")

/-- Fields of a struct. -/
def structFields : Value → Except EvalError (List Value)
  | .struct fs => .ok fs
  | v => .error (.conversion v.typeName "struct")

/-- A new slice of `len` zeros with room for `cap`. -/
def makeSlice (len cap : Int) (zero : Value) : Run Value :=
  if len < 0 ∨ cap < 0 then Run.fail (.custom "makeslice: len out of range")
  else if cap < len then Run.fail (.custom "makeslice: cap out of range")
  else Run.onHeap fun h =>
    let r := h.makeSlice len.toNat cap.toNat zero
    (.slice r.1, r.2)

/-- A slice longer by some values; nil grows from nothing. -/
def appendTo (base : Value) (values : List Value) : Run Value :=
  match base with
  | .slice s => Run.onHeap fun h =>
    let r := h.append s values
    (.slice r.1, r.2)
  | _ => Run.newSlice values

/-- Remove a key from a map; nothing is removed from nil. -/
def removeKey (m key : Value) : Run (List Value) := do
  match m with
  | .map ref => Run.removeEntry ref key
  | _ => pure ()
  return []

/-- A value that must fit a type; nil stands for the zero value. -/
def ensure (t : TypeTable) (ty : Ty) (zero v : Value) : Except EvalError Value :=
  if v.isNil then .ok zero
  else if t.fits v ty then .ok v
  else .error (.conversion v.typeName ty.text)

/-- Arguments with those from a position on packed into one. -/
def packFrom (position : Option Nat) (values : List Value) : Run (List Value) :=
  match position with
  | none => pure values
  | some n => do return values.take n ++ [← Run.pack (values.drop n)]

mutual

/-- Value of an expression in the record `r`. -/
def eval (x : Context) (r : Nat) : Code.Expr → Run Value
  | .const v => pure v
  | .load depth slot => do Run.loadSlot (← Run.ancestor r depth) slot
  | .expect c e => do Run.check ((← eval x r e).expect c)
  | .unary op k e => do Run.check (unaryValue op k (← eval x r e))
  | .binary op k a b => do
    let va ← eval x r a
    let vb ← eval x r b
    Run.check (binaryValues op k va vb)
  | .both a b => do
    if (← eval x r a).isTrue then eval x r b else return .bool false
  | .either a b => do
    if (← eval x r a).isTrue then return .bool true else eval x r b
  | .first call => do return (← evalCall x r call).headD .nil
  | .convert ty e => do
    let v ← eval x r e
    let m ← get
    let (v, heap) ← Run.check (m.heap.convert x.types v ty)
    set { m with heap }
    return v
  | .length e => do
    let v ← eval x r e
    return .int (Int64.ofNat (((← get).heap.length? v).getD 0))
  | .capacity e => do
    match ← eval x r e with
    | .slice s => return .int (Int64.ofNat s.cap)
    | _ => return .int 0
  | .makeSlice len cap zero => do
    let n := (← eval x r len).index
    let c ← evalIndex? x r n cap
    ScriptCore.makeSlice n c zero
  | .makeMap => do return .map (← Run.onHeap Heap.newMap)
  | .append base elems => do
    let b ← eval x r base
    appendTo b (← evalAll x r elems)
  | .sliceOf elems => do Run.newSlice (← evalAll x r elems)
  | .mapOf entries => do
    let ref ← Run.onHeap Heap.newMap
    evalEntries x r ref entries
    return .map ref
  | .structOf fields => do return .struct (← evalAll x r fields)
  | .mapGet map key zero => do
    let m ← eval x r map
    let k ← eval x r key
    Run.check (mapElement (← get).heap m k zero)
  | .sliceGet slice index => do
    let s ← eval x r slice
    let i ← eval x r index
    Run.check (sliceElement (← get).heap s i.index)
  | .byteAt str index => do
    let s ← eval x r str
    let i ← eval x r index
    Run.check (byteOf s i.index)
  | .field index e => do return fieldAt (← Run.check (structFields (← eval x r e))) index
  | .closure body => Run.newFunction (.closure body r) "func literal"
  | .bindMethod name recv method => do
    let v ← eval x r recv
    match ← eval x r method with
    | .func ref n => Run.newFunction (.bound (.func ref n) v) name
    | other => return other
  | .asIndex e => do return .int (Int64.ofInt (← eval x r e).index)
  | .narrow k e => do return narrowValue k (← eval x r e)
  | .ensure ty zero e => do Run.check (ScriptCore.ensure x.types ty zero (← eval x r e))

/-- Value of an optional index. -/
def evalIndex? (x : Context) (r : Nat) (default : Int) : Option Code.Expr → Run Int
  | none => pure default
  | some e => do return (← eval x r e).index

/-- Values of expressions, from left to right. -/
def evalAll (x : Context) (r : Nat) : List Code.Expr → Run (List Value)
  | [] => pure []
  | e :: es => do
    let v ← eval x r e
    return v :: (← evalAll x r es)

/-- Evaluate the entries of a map one after the other and store them. -/
def evalEntries (x : Context) (r : Nat) (ref : Nat) : List (Code.Expr × Code.Expr) → Run Unit
  | [] => pure ()
  | (k, v) :: rest => do
    let k ← eval x r k
    let v ← eval x r v
    Run.insertEntry ref k v
    evalEntries x r ref rest

/-- Results of a call. -/
def evalCall (x : Context) (r : Nat) : Code.Call → Run (List Value)
  | .direct func none args => do
    let f ← eval x r func
    x.call f (← evalArgs x r args)
  | .direct func (some recv) args => do
    let v ← eval x r recv
    let f ← eval x r func
    x.call f (v :: (← evalArgs x r args))
  | .delete map key => do
    let m ← eval x r map
    let k ← eval x r key
    removeKey m k

/-- Arguments of a call. -/
def evalArgs (x : Context) (r : Nat) : Code.Args → Run (List Value)
  | .list fixed none => evalAll x r fixed
  | .list fixed (some rest) => do
    let vs ← evalAll x r fixed
    return vs ++ [← Run.pack (← evalAll x r rest)]
  | .forward call position => do packFrom position (← evalCall x r call)

end

/-- A constant is its value. -/
theorem eval_const (x : Context) (r : Nat) (v : Value) : eval x r (.const v) = pure v := rfl

/-- A variable that is there has the value in its slot. -/
theorem eval_load {m : Machine} {r depth record : Nat} (h : m.ancestor? r depth = some record)
    (x : Context) (slot : Nat) :
    eval x r (.load depth slot) m = .ok ((m.record record).get slot) m := by
  rw [eval]
  change EStateM.bind _ _ _ = _
  rw [EStateM.bind, Run.ancestor_of_some h]
  rfl

/-- The second operand of a decided conjunction is not evaluated. -/
theorem eval_both_false (x : Context) (r : Nat) (b : Code.Expr) :
    eval x r (.both (.const (.bool false)) b) = pure (.bool false) := rfl

end ScriptCore
