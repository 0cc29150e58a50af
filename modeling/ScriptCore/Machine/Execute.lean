import ScriptCore.Machine.Cursor
import ScriptCore.Machine.Location

/-!
# Execution

An instruction runs to completion and says where the run goes on.  A body is a loop over its
instructions; a call of a function value runs a body in a new record, asks the host, or calls a
method.  Both loops are limited by fuel; the rest of the machine does not know of it.

Bodies being executed are counted.  A call that would exceed the limit is refused, and whatever
way a body ends its count is given back.

Deep recursion continues on a new stack from time to time; `onFreshStack_eq` says that this is
not a difference.

Main statements: `onFreshStack_eq`, `counted_depth` (the count is given back), and
`callValue_nil` (nil cannot be called).
-/

namespace ScriptCore

/-- Where a run goes on after an instruction. -/
inductive Next where
  | advance
  | jump (label : Nat)
  | stop (results : List Value)

/-- Store values in slots of a record; a value without slot is dropped. -/
def storeEach (r : Nat) : List (Option Nat) → List Value → Run Unit
  | some s :: slots, v :: vs => do
    Run.storeSlot r s v
    storeEach r slots vs
  | none :: slots, _ :: vs => storeEach r slots vs
  | _, _ => pure ()

/-- Run one instruction in the record `r`. -/
def execute (x : Context) (r : Nat) : Code.Instr → Run Next
  | .eval e => do
    let _ ← eval x r e
    return .advance
  | .run call => do
    let _ ← evalCall x r call
    return .advance
  | .store container key value => do
    let target ← locate x r container
    let k ← evalOption x r key
    let v ← eval x r value
    target.store k v
    return .advance
  | .update container key op kind value zero => do
    let target ← locate x r container
    let k ← evalOption x r key
    let v ← eval x r value
    let current ← target.load k zero
    target.store k (← Run.check (binaryValues op kind current v))
    return .advance
  | .setSlots stores => do
    let vs ← evalAll x r (stores.map Prod.snd)
    storeEach r (stores.map Prod.fst) vs
    return .advance
  | .spread call depth slots => do
    let vs ← evalCall x r call
    storeEach (← Run.ancestor r depth) slots vs
    return .advance
  | .jump label => return .jump label
  | .branch condition label => do
    if (← eval x r condition).isTrue then return .advance else return .jump label
  | .ret values => do return .stop (← evalAll x r values)
  | .retCall call => do return .stop (← evalCall x r call)

/-- Run a body in the record `r` from a cursor on, for at most `fuel` instructions. -/
def runFrom (x : Context) (body : Code.Body) (r : Nat) : Nat → Cursor → Run Cursor
  | 0, _ => throw .outOfFuel
  | fuel + 1, c => do
    match body.instrs[c.position]? with
    | none => return c
    | some i =>
      match ← execute x r i with
      | .advance => runFrom x body r fuel c.advance
      | .jump label => runFrom x body r fuel (c.moveTo (body.labels.target label))
      | .stop results => return c.setResults results

/-- A host function: what it does with its arguments, given how to call a function value. -/
abbrev HostBody := (Value → List Value → Run (List Value)) → List Value → Run (List Value)

/-- What does not change while a program runs: its types, the bodies of host functions and the
limit on nested calls. -/
structure Setting where
  types : TypeTable
  hosts : Array HostBody
  limit : Option Nat

/-- Run a computation on a stack of its own. -/
def onFreshStack {α : Type} (run : Run α) : Run α :=
  fun m => (Task.spawn (fun _ => run m) .dedicated).get

/-- A stack of its own makes no difference to a computation. -/
theorem onFreshStack_eq {α : Type} (run : Run α) : onFreshStack run = run := rfl

/-- Number of nested calls that share one stack. -/
def callsPerStack : Nat := 100

/-- Count a body while it runs; refused when as many run already as the limit allows. -/
def counted {α : Type} (limit : Option Nat) (run : Run α) : Run α := fun m =>
  let inside := { m with depth := m.depth + 1 }
  if limit.any fun l => decide (l ≤ m.depth) then
    .error (.error (.callDepthExceeded (limit.getD 0))) m
  else
    match (if inside.depth % callsPerStack = 0 then onFreshStack run else run) inside with
    | .ok a m' => .ok a { m' with depth := m'.depth - 1 }
    | .error e m' => .error e { m' with depth := m'.depth - 1 }

/-- The count is given back whatever way a body ends, if the body itself keeps it. -/
theorem counted_depth {α : Type} {limit : Option Nat} {run : Run α}
    (h : ∀ m, (Run.after run m).depth = m.depth) (m : Machine) :
    (Run.after (counted limit run) m).depth = m.depth := by
  unfold Run.after counted
  simp only [onFreshStack_eq, ite_self]
  have hr := h { m with depth := m.depth + 1 }
  unfold Run.after at hr
  by_cases hl : limit.any (fun l => decide (l ≤ m.depth)) = true
  · simp [hl]
  · simp only [hl, Bool.false_eq_true, if_false]
    cases hrun : run { m with depth := m.depth + 1 } <;> simp_all

/-- Call a function value. -/
def callValue (p : Setting) : Nat → Value → List Value → Run (List Value)
  | 0, _, _ => throw .outOfFuel
  | fuel + 1, .func ref _, args => do
    match (← get).functions[ref]? with
    | some (.closure body outer) =>
      counted p.limit do
        let r ← Run.newRecord body.slots (some outer) args
        let c ← runFrom ⟨p.types, callValue p fuel⟩ body r fuel .start
        return c.results
    | some (.host index) =>
      match p.hosts[index]? with
      | some body => body (callValue p fuel) args
      | none => Run.fail .nilFuncCall
    | some (.bound method recv) => callValue p fuel method (recv :: args)
    | none => Run.fail .nilFuncCall
  | _ + 1, _, _ => Run.fail .nilFuncCall

/-- Nil cannot be called. -/
theorem callValue_nil (p : Setting) (fuel : Nat) (args : List Value) :
    callValue p (fuel + 1) .nil args = Run.fail .nilFuncCall := rfl

end ScriptCore
