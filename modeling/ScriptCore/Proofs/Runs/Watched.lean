import ScriptCore.Machine.Execute

/-!
# Watched runs

A run under a watch does what the run does, but before it gets at a slot it asks the watch.  The
watch does not admit an access if there is no record so many levels out, if the record has no such
slot, or if it would read a package variable that is still pending.  The watch may also know
beforehand to which body each record will belong.  What it does not admit ends the run with a
failure that it names, and so does a jump to a label without a position, or a record for another
body than was foretold.

A run that equals the watched run whatever this failure is does none of this.

Main statements: `Watch.check_of_admits`, `Watch.admits_of_ancestor`.
-/

namespace ScriptCore

/-- Ways to get at a slot: read it, perhaps to store a changed value, or replace its value. -/
inductive Access where
  | read
  | store
deriving DecidableEq

/-- What a run is watched for. -/
structure Watch where
  /-- Package variables that must not be read. -/
  pending : Nat → Bool
  /-- Bodies to which the records belong, if they are known; record `k + 1` belongs to
  `owners[k]`. -/
  owners : Option (List Code.Body)
  /-- How a run ends that does what it must not do. -/
  refusal : Failure

namespace Watch

variable (w : Watch)

/-- The watch admits that code in the record `r` gets at a slot of the record `depth` levels
out. -/
def admits (a : Access) (m : Machine) (r depth slot : Nat) : Bool :=
  match m.ancestor? r depth with
  | none => false
  | some record =>
    decide (slot < (m.record record).slots.size) &&
      (decide (a = .store) || decide (record ≠ Machine.globals) || !w.pending slot)

/-- Ask before getting at a slot. -/
def check (a : Access) (r depth slot : Nat) : Run Unit := fun m =>
  if w.admits a m r depth slot then .ok () m else .error w.refusal m

/-- Ask before getting at a record, whatever the slot. -/
def checkRecord (r depth : Nat) : Run Unit := fun m =>
  if (m.ancestor? r depth).isSome then .ok () m else .error w.refusal m

open Classical in
/-- Go on if the record belongs to the body, as far as this is known. -/
noncomputable def checkOwner (r : Nat) (body : Code.Body) : Run Unit := fun m =>
  match w.owners with
  | none => .ok () m
  | some owners => if ∃ k, r = k + 1 ∧ owners[k]? = some body then .ok () m else .error w.refusal m

/-- Nothing happens if the record belongs to the body. -/
theorem checkOwner_of_getElem {w : Watch} {k : Nat} {body : Code.Body} {m : Machine}
    (h : ∀ owners, w.owners = some owners → owners[k]? = some body) :
    w.checkOwner (k + 1) body m = .ok () m := by
  unfold checkOwner
  cases howners : w.owners with
  | none => rfl
  | some owners => exact if_pos ⟨k, rfl, h owners howners⟩

/-- Nothing happens if the watch admits it. -/
theorem check_of_admits {w : Watch} {a : Access} {r depth slot : Nat} {m : Machine}
    (h : w.admits a m r depth slot = true) : w.check a r depth slot m = .ok () m :=
  if_pos h

/-- A slot may be replaced where there is one, and read if it is not that of a pending package
variable. -/
theorem admits_of_ancestor {w : Watch} {a : Access} {m : Machine} {r depth slot record : Nat}
    (hrecord : m.ancestor? r depth = some record) (hslot : slot < (m.record record).slots.size)
    (hpending : a = .read → record = Machine.globals → w.pending slot = false) :
    w.admits a m r depth slot = true := by
  unfold admits
  rw [hrecord]
  simp only [hslot, decide_true, Bool.true_and, Bool.or_eq_true, decide_eq_true_eq,
    Bool.not_eq_true']
  by_cases hglobals : record = Machine.globals
  · cases a with
    | read => exact .inr (hpending rfl hglobals)
    | store => exact .inl (.inl rfl)
  · exact .inl (.inr hglobals)

mutual

/-- Value of an expression in the record `r`. -/
def eval (x : Context) (r : Nat) : Code.Expr → Run Value
  | .const v => pure v
  | .load depth slot => do
    w.check .read r depth slot
    Run.loadSlot (← Run.ancestor r depth) slot
  | .expect c e => do Run.check ((← eval x r e).expect c)
  | .unary op k e => do Run.check (unaryValue op k (← eval x r e))
  | .binary op k a b => do
    let va ← eval x r a
    let vb ← eval x r b
    Run.check (binaryValues op k va vb)
  | .both a b => do
    if (← eval x r a).isTrue then eval x r b else return .bool false
  | .either a b => do
    if (← eval x r a).isTrue then return .bool true else eval x r b
  | .first call => do return (← evalCall x r call).headD .nil
  | .convert ty e => do
    let v ← eval x r e
    let m ← get
    let (v, heap) ← Run.check (m.heap.convert x.types v ty)
    set { m with heap }
    return v
  | .length e => do
    let v ← eval x r e
    return .int (Int64.ofNat (((← get).heap.length? v).getD 0))
  | .capacity e => do
    match ← eval x r e with
    | .slice s => return .int (Int64.ofNat s.cap)
    | _ => return .int 0
  | .makeSlice len cap zero => do
    let n := (← eval x r len).index
    let c ← evalIndex? x r n cap
    ScriptCore.makeSlice n c zero
  | .makeMap => do return .map (← Run.onHeap Heap.newMap)
  | .append base elems => do
    let b ← eval x r base
    appendTo b (← evalAll x r elems)
  | .sliceOf elems => do Run.newSlice (← evalAll x r elems)
  | .mapOf entries => do
    let ref ← Run.onHeap Heap.newMap
    evalEntries x r ref entries
    return .map ref
  | .structOf fields => do return .struct (← evalAll x r fields)
  | .mapGet map key zero => do
    let m ← eval x r map
    let k ← eval x r key
    Run.check (mapElement (← get).heap m k zero)
  | .sliceGet slice index => do
    let s ← eval x r slice
    let i ← eval x r index
    Run.check (sliceElement (← get).heap s i.index)
  | .byteAt str index => do
    let s ← eval x r str
    let i ← eval x r index
    Run.check (byteOf s i.index)
  | .field index e => do return fieldAt (← Run.check (structFields (← eval x r e))) index
  | .closure body => Run.newFunction (.closure body r) "func literal"
  | .bindMethod name recv method => do
    let v ← eval x r recv
    match ← eval x r method with
    | .func ref n => Run.newFunction (.bound (.func ref n) v) name
    | other => return other
  | .asIndex e => do return .int (Int64.ofInt (← eval x r e).index)
  | .narrow k e => do return narrowValue k (← eval x r e)
  | .ensure ty zero e => do Run.check (ScriptCore.ensure x.types ty zero (← eval x r e))

/-- Value of an optional index. -/
def evalIndex? (x : Context) (r : Nat) (default : Int) : Option Code.Expr → Run Int
  | none => pure default
  | some e => do return (← eval x r e).index

/-- Values of expressions, from left to right. -/
def evalAll (x : Context) (r : Nat) : List Code.Expr → Run (List Value)
  | [] => pure []
  | e :: es => do
    let v ← eval x r e
    return v :: (← evalAll x r es)

/-- Evaluate the entries of a map one after the other and store them. -/
def evalEntries (x : Context) (r : Nat) (ref : Nat) : List (Code.Expr × Code.Expr) → Run Unit
  | [] => pure ()
  | (k, v) :: rest => do
    let k ← eval x r k
    let v ← eval x r v
    Run.insertEntry ref k v
    evalEntries x r ref rest

/-- Results of a call. -/
def evalCall (x : Context) (r : Nat) : Code.Call → Run (List Value)
  | .direct func none args => do
    let f ← eval x r func
    x.call f (← evalArgs x r args)
  | .direct func (some recv) args => do
    let v ← eval x r recv
    let f ← eval x r func
    x.call f (v :: (← evalArgs x r args))
  | .delete map key => do
    let m ← eval x r map
    let k ← eval x r key
    removeKey m k

/-- Arguments of a call. -/
def evalArgs (x : Context) (r : Nat) : Code.Args → Run (List Value)
  | .list fixed none => evalAll x r fixed
  | .list fixed (some rest) => do
    let vs ← evalAll x r fixed
    return vs ++ [← Run.pack (← evalAll x r rest)]
  | .forward call position => do packFrom position (← evalCall x r call)

end

/-- Value of an optional expression. -/
def evalOption (x : Context) (r : Nat) : Option Code.Expr → Run (Option Value)
  | none => pure none
  | some e => do return some (← w.eval x r e)

/-- Find a location but for its key, given what it is found for.  To change a field is to read the
struct around it. -/
def locate (x : Context) (r : Nat) (a : Access) : Code.Container → Run Target
  | .var depth slot => do
    w.check a r depth slot
    return .slot (← Run.ancestor r depth) slot
  | .map e => do
    match ← w.eval x r e with
    | .map ref => return .map ref
    | .nil => return .nilMap
    | v => Run.fail (.conversion v.typeName "map")
  | .slice e => do
    match ← w.eval x r e with
    | .slice s => return .slice s
    | .nil => return .slice ⟨0, 0, 0, 0⟩
    | v => Run.fail (.conversion v.typeName "slice")
  | .field base key index zero => do
    let b ← locate x r .read base
    let k ← w.evalOption x r key
    return .field b k index zero

/-- Ask before storing values in slots; a value without slot is dropped. -/
def checkEach (r depth : Nat) : List (Option Nat) → Run Unit
  | [] => pure ()
  | none :: slots => checkEach r depth slots
  | some slot :: slots => do
    w.check .store r depth slot
    checkEach r depth slots

/-- Run one instruction in the record `r`. -/
def execute (x : Context) (r : Nat) : Code.Instr → Run Next
  | .eval e => do
    let _ ← w.eval x r e
    return .advance
  | .run call => do
    let _ ← w.evalCall x r call
    return .advance
  | .store container key value => do
    let target ← w.locate x r .store container
    let k ← w.evalOption x r key
    let v ← w.eval x r value
    target.store k v
    return .advance
  | .update container key op kind value zero => do
    let target ← w.locate x r .read container
    let k ← w.evalOption x r key
    let v ← w.eval x r value
    let current ← target.load k zero
    target.store k (← Run.check (binaryValues op kind current v))
    return .advance
  | .setSlots stores => do
    let vs ← w.evalAll x r (stores.map Prod.snd)
    w.checkEach r 0 (stores.map Prod.fst)
    storeEach r (stores.map Prod.fst) vs
    return .advance
  | .spread call depth slots => do
    let vs ← w.evalCall x r call
    w.checkRecord r depth
    w.checkEach r depth slots
    storeEach (← Run.ancestor r depth) slots vs
    return .advance
  | .jump label => return .jump label
  | .branch condition label => do
    if (← w.eval x r condition).isTrue then return .advance else return .jump label
  | .ret values => do return .stop (← w.evalAll x r values)
  | .retCall call => do return .stop (← w.evalCall x r call)

/-- Run a body in the record `r` from a cursor on, for at most `fuel` instructions. -/
def runFrom (x : Context) (body : Code.Body) (r : Nat) : Nat → Cursor → Run Cursor
  | 0, _ => throw .outOfFuel
  | fuel + 1, c => do
    match body.instrs[c.position]? with
    | none => return c
    | some i =>
      match ← w.execute x r i with
      | .advance => runFrom x body r fuel c.advance
      | .jump label =>
        match body.labels[label]? with
        | some (some position) => runFrom x body r fuel (c.moveTo position)
        | _ => throw w.refusal
      | .stop results => return c.setResults results

/-- Call a function value. -/
noncomputable def callValue (p : Setting) : Nat → Value → List Value → Run (List Value)
  | 0, _, _ => throw .outOfFuel
  | fuel + 1, .func ref _, args => do
    match (← get).functions[ref]? with
    | some (.closure body outer) =>
      counted p.limit do
        let r ← Run.newRecord body.slots (some outer) args
        w.checkOwner r body
        let c ← w.runFrom ⟨p.types, callValue p fuel⟩ body r fuel .start
        return c.results
    | some (.host index) =>
      match p.hosts[index]? with
      | some body => body (callValue p fuel) args
      | none => Run.fail .nilFuncCall
    | some (.bound method recv) => callValue p fuel method (recv :: args)
    | none => Run.fail .nilFuncCall
  | _ + 1, _, _ => Run.fail .nilFuncCall

end Watch

end ScriptCore
