import ScriptCore.Compile.Assignment

/-!
# Control flow and bodies

Conditions and loops become jumps between positions of the flat code of a body.  A label is made
before the first jump to it and bound where it belongs.  The receiver and the parameters take the
first slots of a body and named results the next ones; falling off the end of a body returns the
named results, or else zero values.

Main statements: `branchOut_outside` (there is no `break` or `continue` outside a loop) and
`jumpUnless_none` (an absent condition needs no code).
-/

namespace ScriptCore.Compile

/-- Run a step with a block of its own for the names it declares. -/
def withBlock {α : Type} (content : Compile α) : Compile α := do
  updateFrame Frame.nested
  let a ← content
  updateFrame Frame.unnested
  return a

/-- Compile in a block of its own. -/
def inBlock (content : Emit Unit) : Emit Unit := fun k =>
  withBlock (content k)

/-- Code for a condition. -/
def condition (test : Compile Operand) : Compile Code.Expr := do
  let op ← test
  let (e, ty) ← rule fun t => op.valueOf t
  if e.category = .bool then return e.expr else fail (.nonBoolCondition ty)

/-- Jump to a label unless the condition holds; without a condition, never. -/
def jumpUnless (test : Option (Compile Operand)) (label : Nat) : Emit Unit := do
  match test with
  | none => pure ()
  | some test => Emit.one (.branch (← condition test) label)

/-- An absent condition needs no code. -/
theorem jumpUnless_none (label : Nat) : jumpUnless none label = pure () := rfl

/-- A step that may be absent. -/
def optional (step : Option (Emit Unit)) : Emit Unit :=
  step.getD (pure ())

/-- A conditional statement. -/
def ifThenElse (test : Compile Operand) (body : Emit Unit) (otherwise : Option (Emit Unit)) :
    Emit Unit := do
  let test ← condition test
  let skip ← Emit.newLabel
  Emit.one (.branch test skip)
  inBlock body
  match otherwise with
  | none => Emit.place skip
  | some otherwise =>
    let done ← Emit.newLabel
    Emit.one (.jump done)
    Emit.place skip
    otherwise
    Emit.place done

/-- A loop. -/
def loop (init : Option (Emit Unit)) (test : Option (Compile Operand))
    (post : Option (Emit Unit)) (body : Emit Unit) : Emit Unit :=
  inBlock do
    optional init
    let top ← Emit.newLabel
    Emit.place top
    let exit ← Emit.newLabel
    let next ← Emit.newLabel
    jumpUnless test exit
    modify fun k => k.enterLoop ⟨exit, next⟩
    inBlock body
    modify fun k => k.leaveLoop
    Emit.place next
    optional post
    Emit.one (.jump top)
    Emit.place exit

/-- `break` and `continue`: go to a label of the innermost loop. -/
def branchOut (keyword : String) (label : LoopLabels → Nat) : Emit Unit := fun k =>
  match k.loops with
  | [] => fail (.branchOutsideLoop keyword)
  | l :: _ => Emit.one (.jump (label l)) k

/-- There is no `break` or `continue` outside a loop. -/
theorem branchOut_outside {k : Assembly} (h : k.loops = []) (keyword : String)
    (label : LoopLabels → Nat) :
    branchOut keyword label k = fail (.branchOutsideLoop keyword) := by
  simp [branchOut, h]

/-- Values in slots of the current body. -/
def loads (slots : List Nat) : List Code.Expr :=
  slots.map fun s => .load 0 s

/-- Return without values: the named results, if there are any. -/
def returnNothing : Compile Code.Instr := do
  let f := (← get).frame
  match f.namedResults with
  | some slots => return .ret (loads slots)
  | none =>
    if f.results.isEmpty then return .ret [] else fail (.valueCount f.results.length 0)

/-- Return the results of a call. -/
def returnResults (value : Compile Operand) : Compile Code.Instr := do
  let want := (← get).frame.results
  match ← value with
  | .term _ => fail (.valueCount want.length 1)
  | .results call types =>
    if types.length ≠ want.length then fail (.valueCount want.length types.length)
    rule fun t => (types.zip want).forM fun p => Term.requireAssignable t p.1 p.2
    return .retCall call

/-- Compile operands as values of the given types. -/
def convertEach : List (Compile Operand) → List Ty → Compile (List Code.Expr)
  | value :: values, ty :: types => do
    let e ← converted value ty
    return e :: (← convertEach values types)
  | _, _ => return []

/-- Return as many values as there are results. -/
def returnEach (values : List (Compile Operand)) : Compile Code.Instr := do
  let want := (← get).frame.results
  if values.length ≠ want.length then fail (.valueCount want.length values.length)
  return .ret (← convertEach values want)

/-- A return statement. -/
def returnStmt (values : List (Compile Operand)) : Compile Code.Instr := do
  match values with
  | [] => returnNothing
  | [value] =>
    if (← get).frame.results.length = 1 then returnEach [value] else returnResults value
  | values => returnEach values

/-- Slot of a parameter or result; without a name, or with the blank one, it has only a slot. -/
def bindSlot (name : Option Name) (ty : Ty) : Compile Nat :=
  match name with
  | some name => if name = blank then alloc else declareLocal name ty
  | none => alloc

/-- Slots of parameters or results, in order. -/
def bindSlots : List (Option Name × Ty) → Compile (List Nat)
  | [] => return []
  | (name, ty) :: rest => do
    let slot ← bindSlot name ty
    return slot :: (← bindSlots rest)

/-- Named results start at zero. -/
def bindResultSlots (results : List (Option Name × Ty)) : Compile (List Code.Instr) := do
  if results.any fun r => r.1.isSome then
    let slots ← bindSlots results
    let t ← types
    updateFrame fun f => { f with namedResults := some slots }
    return [.setSlots ((slots.zip results).map fun (s, r) => (some s, .const (t.zero r.2)))]
  else return []

/-- What the end of a body returns. -/
def implicitReturn (t : TypeTable) (f : Frame) : Code.Instr :=
  match f.namedResults with
  | some slots => .ret (loads slots)
  | none => .ret (f.results.map fun ty => .const (t.zero ty))

/-- Slots for the receiver, the parameters and the results, and the code a body begins with. -/
def enterBody (recv : Option (Option Name × Ty)) (h : Heading) : Compile (List Code.Instr) := do
  updateFrame fun f => { f with results := h.resultTypes }
  let _ ← bindSlots (recv.toList ++ h.params)
  bindResultSlots h.results

/-- The code a body ends with. -/
def leaveBody : Compile Code.Instr := do
  return implicitReturn (← types) (← get).frame

/-- The body of a function, in a frame of its own. -/
def bodyOf (recv : Option (Option Name × Ty)) (h : Heading) (content : Emit Unit) :
    Emit Unit := do
  Emit.all (← enterBody recv h)
  inBlock content
  Emit.one (← leaveBody)

/-- A function literal. -/
def funcLit (heading : Compile Heading) (content : Emit Unit) : Compile Operand := do
  let h ← heading
  let ty ← headingType none h
  let body ← inFrame true (assembled (bodyOf none h content))
  return .term (.reference (.closure body) ty)

end ScriptCore.Compile
