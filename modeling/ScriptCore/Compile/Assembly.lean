import ScriptCore.Code.Basic

/-!
# Assembly

The code of a body while it is put together: the instructions so far, the labels made so far, and
the labels of the loops around the current position.

Main statements: `pushAll_nil` and `pushAll_cons` (instructions are added one after the other).
-/

namespace ScriptCore

/-- Labels of a loop: where `break` and `continue` go. -/
structure LoopLabels where
  exit : Nat
  next : Nat
deriving Repr, DecidableEq, Inhabited

/-- The code of a body that is being compiled.  The innermost loop comes first. -/
structure Assembly where
  code : Array Code.Instr
  labels : Labels
  loops : List LoopLabels
deriving Inhabited

namespace Assembly

/-- No code. -/
def empty : Assembly := ⟨#[], [], []⟩

/-- Add an instruction. -/
def push (k : Assembly) (i : Code.Instr) : Assembly :=
  { k with code := k.code.push i }

/-- Add instructions in order. -/
def pushAll (k : Assembly) (is : List Code.Instr) : Assembly :=
  is.foldl push k

/-- A new label. -/
def newLabel (k : Assembly) : Nat × Assembly :=
  (k.labels.length, { k with labels := k.labels ++ [none] })

/-- Bind a label to the position of the next instruction. -/
def place (k : Assembly) (label : Nat) : Assembly :=
  { k with labels := k.labels.bind label k.code.size }

/-- Enter a loop. -/
def enterLoop (k : Assembly) (loop : LoopLabels) : Assembly :=
  { k with loops := loop :: k.loops }

/-- Leave the innermost loop. -/
def leaveLoop (k : Assembly) : Assembly :=
  { k with loops := k.loops.tail }

/-- The finished body. -/
def body (k : Assembly) (slots : Nat) : Code.Body :=
  .mk k.code k.labels slots

/-- Nothing is added. -/
@[simp] theorem pushAll_nil (k : Assembly) : k.pushAll [] = k := rfl

/-- The first instruction is added first. -/
@[simp] theorem pushAll_cons (k : Assembly) (i : Code.Instr) (is : List Code.Instr) :
    k.pushAll (i :: is) = (k.push i).pushAll is := rfl

end Assembly

end ScriptCore
