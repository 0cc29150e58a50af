import ScriptCore.Registers.Stream

/-!
# Lowering of register expressions

Lowering computes every inner node of an expression into a register of its own.  Temporaries take
the lowest number that is free and are released as soon as the instruction that consumes them is
written, so the stream shows exactly how long each register lives.  A temporary of the right kind
becomes the destination of the instruction that consumes it.

An error keeps what was written before it.

Main statements: `alloc_live` (an allocated register is live), `lower_leaf` (a leaf needs no
instruction).
-/

namespace ScriptCore.Registers

/-- The code written so far and, for every register number seen, whether it is in use. -/
structure Lowering where
  code : Stream
  inUse : List Bool
deriving Repr, DecidableEq, Inhabited

/-- A lowered expression and the temporary that holds it, if there is one. -/
structure Lowered where
  operand : Operand
  temp : Option Reg
deriving Repr, DecidableEq, Inhabited

/-- Steps of lowering; a failing step keeps the state it reached. -/
abbrev Lower := ExceptT CodeError (StateM Lowering)

namespace Lowering

/-- No code and no registers. -/
def empty : Lowering := ⟨.empty, []⟩

/-- Number of registers in use. -/
def live (s : Lowering) : Nat :=
  s.inUse.count true

/-- The register is in use. -/
def isLive (s : Lowering) (id : Nat) : Bool :=
  s.inUse[id]?.getD false

/-- The lowest free number. -/
def lowestFree (s : Lowering) : Nat :=
  s.inUse.idxOf false

/-- Write an instruction. -/
def push (s : Lowering) (i : Instr) : Lowering :=
  { s with code := s.code.push i }

/-- Allocate the lowest free register. -/
def alloc (s : Lowering) (kind : Kind) : Reg × Lowering :=
  let id := s.lowestFree
  let inUse := if id < s.inUse.length then s.inUse.set id true else s.inUse ++ [true]
  (⟨id, kind⟩, { code := s.code.push (.alloc ⟨id, kind⟩), inUse })

/-- Release a register; nothing happens to one that is not in use. -/
def free (s : Lowering) (reg : Reg) : Lowering :=
  if s.isLive reg.id then
    { code := s.code.push (.free reg), inUse := s.inUse.set reg.id false }
  else s

/-- The lowest free number is at most the number of registers seen. -/
theorem lowestFree_le (s : Lowering) : s.lowestFree ≤ s.inUse.length :=
  List.idxOf_le_length

/-- An allocated register is live. -/
theorem alloc_live (s : Lowering) (kind : Kind) :
    (s.alloc kind).2.isLive (s.alloc kind).1.id = true := by
  have h := s.lowestFree_le
  simp only [alloc, isLive]
  split
  · next hlt => simp [hlt]
  · next hlt =>
    have : s.lowestFree = s.inUse.length := by omega
    simp [this]

/-- A released register is free. -/
theorem free_not_live (s : Lowering) (reg : Reg) : (s.free reg).isLive reg.id = false := by
  unfold free
  split
  · next h =>
    simp only [isLive, List.getElem?_set_self']
    cases s.inUse[reg.id]? <;> rfl
  · next h => simpa using h

end Lowering

/-- Write an instruction. -/
def emit (i : Instr) : Lower Unit :=
  modify fun s => s.push i

/-- Allocate the lowest free register. -/
def alloc (kind : Kind) : Lower Reg :=
  modifyGet fun s => s.alloc kind

/-- Release a register. -/
def free (reg : Reg) : Lower Unit :=
  modify fun s => s.free reg

/-- Release the temporary of a lowered operand unless it is `keep`. -/
def release (x : Lowered) (keep : Option Reg) : Lower Unit :=
  match x.temp with
  | some temp => if some temp = keep then pure () else free temp
  | none => pure ()

/-- Refuse an operation that is not defined on a kind. -/
def require (ok : Bool) (op : String) (kind : Kind) : Lower Unit :=
  if ok then pure () else throw (.unsupportedKind op kind)

/-- The first of the temporaries that has the given kind, or else a new register. -/
def destination (temps : List Lowered) (kind : Kind) : Lower Reg :=
  match (temps.filterMap Lowered.temp).find? fun t => t.kind == kind with
  | some temp => pure temp
  | none => alloc kind

/-- Lower an expression to an operand, computing its inner nodes into temporaries. -/
def lower : Expr → Lower Lowered
  | .imm c => pure ⟨.imm c, none⟩
  | .reg r => pure ⟨.reg r.id, none⟩
  | .unary op x => do
    require (op.accepts x.kind) op.text x.kind
    let a ← lower x
    let dst ← destination [a] (Expr.unary op x).kind
    emit (.unary op a.operand dst.id)
    release a (some dst)
    return ⟨.reg dst.id, some dst⟩
  | .binary op x y => do
    require (accepts op x.kind) (mnemonic op) x.kind
    let a ← lower x
    let b ← lower y
    let dst ← destination [a, b] (Expr.binary op x y).kind
    emit (.binary op a.operand b.operand dst.id)
    release a (some dst)
    release b (some dst)
    return ⟨.reg dst.id, some dst⟩

/-- Compute an expression into a register, its topmost operation directly. -/
def assign (e : Expr) (dst : Reg) : Lower Unit :=
  match e with
  | .imm c => emit (.update .assign (.imm c) (.reg dst.id))
  | .reg r => emit (.update .assign (.reg r.id) (.reg dst.id))
  | .unary op x => do
    require (op.accepts x.kind) op.text x.kind
    let a ← lower x
    emit (.unary op a.operand dst.id)
    release a none
  | .binary op x y => do
    require (accepts op x.kind) (mnemonic op) x.kind
    let a ← lower x
    let b ← lower y
    emit (.binary op a.operand b.operand dst.id)
    release a none
    release b none

/-- Change a register in place. -/
def adjust (op : Adjust) (dst : Reg) : Lower Unit := do
  require (op.accepts dst.kind) op.text dst.kind
  emit (.adjust op (.reg dst.id))

/-- Update a register by an expression. -/
def update (op : Update) (src : Expr) (dst : Reg) : Lower Unit :=
  if op = .assign then assign src dst
  else do
    require (op.accepts dst.kind) op.text dst.kind
    let a ← lower src
    emit (.update op a.operand (.reg dst.id))
    release a none

/-- A leaf needs no instruction and no temporary. -/
theorem lower_leaf {e : Expr} {o : Operand} (h : e.operand = .ok o) (s : Lowering) :
    (lower e).run.run s = (.ok ⟨o, none⟩, s) := by
  cases e <;> simp_all [Expr.operand, lower] <;> cases h <;> rfl

end ScriptCore.Registers
