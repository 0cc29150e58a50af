import ScriptCore.Compile.StraightLine
import ScriptCore.Values.Operators

/-!
# Execution of register code

What the instructions of a stream mean.  A computing or updating instruction computes what the
operators on values compute, at the kind of its destination; an assignment copies; an immediate
denotes its bits, reduced to its kind.  An allocation gives a register its kind, and neither it nor
a release changes what a register holds.

Only integers are kept in registers, so that immediates and steps are given a meaning at integer
kinds.

Main statements: `runAll_append` and `instrs?_pushAll` (what is read back from a stream is what was
written to it, but for instructions without effect).
-/

namespace ScriptCore.Registers

namespace Kind

/-- The kind of the values in a register. -/
def scalar : Kind → ScriptCore.Kind
  | bool => .bool
  | int => .int | int8 => .int8 | int16 => .int16 | int32 => .int32 | int64 => .int64
  | uint => .uint | uint8 => .uint8 | uint16 => .uint16 | uint32 => .uint32 | uint64 => .uint64
  | uintptr => .uintptr
  | float32 => .float32 | float64 => .float64
  | ptr => .pointer

/-- The value of a kind that is congruent to an integer. -/
def cast (k : Kind) (i : Int) : Value :=
  if k.isSigned then .int (narrowInt k.scalar (Int64.ofInt i))
  else .uint (narrowUint k.scalar (UInt64.ofInt i))

end Kind

/-- Bits of an immediate, reduced to its kind. -/
def Imm.value (c : Imm) : Value :=
  if c.kind.isSigned then .int (narrowInt c.kind.scalar c.bits.toInt64)
  else .uint (narrowUint c.kind.scalar c.bits)

/-- The operator that a unary computation applies. -/
def Unary.operator : Unary → UnaryOp
  | neg => .neg
  | not => .not
  | bitNot => .bitNot

/-- Registers while code runs: what they are and what they hold. -/
structure File where
  kinds : Nat → Kind
  values : Nat → Value

namespace File

/-- The registers with a value in one of them. -/
def set (f : File) (id : Nat) (v : Value) : File :=
  { f with values := fun i => if i = id then v else f.values i }

/-- The registers with a kind for one of them. -/
def alloc (f : File) (reg : Reg) : File :=
  { f with kinds := fun i => if i = reg.id then reg.kind else f.kinds i }

/-- The kind at which a register is computed. -/
def scalar (f : File) (id : Nat) : ScriptCore.Kind :=
  (f.kinds id).scalar

/-- A register holds what was put into it. -/
@[simp] theorem set_self (f : File) (id : Nat) (v : Value) : (f.set id v).values id = v := by
  simp [set]

/-- The other registers hold what they held. -/
theorem set_ne (f : File) {id other : Nat} (h : other ≠ id) (v : Value) :
    (f.set id v).values other = f.values other := by
  simp [set, h]

/-- A value changes no kind. -/
@[simp] theorem set_kinds (f : File) (id : Nat) (v : Value) : (f.set id v).kinds = f.kinds := rfl

/-- What a register holds is put into it. -/
@[simp] theorem set_values (f : File) (id : Nat) : f.set id (f.values id) = f := by
  have h : (fun i => if i = id then f.values id else f.values i) = f.values := by
    funext i
    by_cases hi : i = id <;> simp [hi]
  rw [set, h]

/-- An allocation changes no value. -/
@[simp] theorem alloc_values (f : File) (reg : Reg) : (f.alloc reg).values = f.values := rfl

/-- A register has the kind it was allocated with. -/
@[simp] theorem alloc_self (f : File) (reg : Reg) : (f.alloc reg).kinds reg.id = reg.kind := by
  simp [alloc]

/-- The other registers have the kinds they had. -/
theorem alloc_ne (f : File) {reg : Reg} {other : Nat} (h : other ≠ reg.id) :
    (f.alloc reg).kinds other = f.kinds other := by
  simp [alloc, h]

end File

/-- Value of an operand. -/
def Operand.value (f : File) : Operand → Value
  | reg id => f.values id
  | imm c => c.value

/-- A change of one register in place. -/
def Adjust.run (op : Adjust) (id : Nat) (f : File) : Except EvalError File :=
  match op with
  | nop => .ok f
  | zero => .ok (f.set id ((f.kinds id).cast 0))
  | inc => do
    return f.set id (← binaryValues .add (f.scalar id) (f.values id) ((f.kinds id).cast 1))
  | dec => do
    return f.set id (← binaryValues .sub (f.scalar id) (f.values id) ((f.kinds id).cast 1))

/-- An update of a register by a value. -/
def Update.run (op : Update) (v : Value) (id : Nat) (f : File) : Except EvalError File :=
  match op.op with
  | none => .ok (f.set id v)
  | some o => do return f.set id (← binaryValues o (f.scalar id) (f.values id) v)

/-- Run an instruction.  Nothing can be stored in an immediate. -/
def Instr.run (f : File) : Instr → Except EvalError File
  | unary op src dst => do
    return f.set dst (← unaryValue op.operator (f.scalar dst) (src.value f))
  | binary op a b dst => do
    return f.set dst (← binaryValues op (f.scalar dst) (a.value f) (b.value f))
  | adjust op (.reg dst) => op.run dst f
  | update op src (.reg dst) => op.run (src.value f) dst f
  | adjust _ (.imm _) | update _ _ (.imm _) => .ok f
  | alloc reg => .ok (f.alloc reg)
  | free _ => .ok f

/-- Run instructions in order. -/
def runAll : List Instr → File → Except EvalError File
  | [], f => .ok f
  | i :: is, f => do runAll is (← i.run f)

/-- Instructions run one part after the other. -/
theorem runAll_append (is js : List Instr) (f : File) :
    runAll (is ++ js) f = (runAll is f >>= runAll js) := by
  induction is generalizing f with
  | nil => rfl
  | cons i is ih =>
      simp only [List.cons_append, runAll, bind_assoc]
      exact bind_congr fun f' => ih f'

/-! ### Streams -/

/-- Instructions without effect leave the registers alone. -/
theorem Instr.run_void {i : Instr} (h : i.isVoid = true) (f : File) : i.run f = .ok f := by
  cases i with
  | adjust op dst => cases op <;> first | (cases dst <;> rfl) | cases h
  | update op src dst =>
      cases op <;> try cases h
      have heq : src = dst := by simpa [isVoid] using h
      subst heq
      cases src with
      | reg id => simp [run, Update.run, Update.op, Operand.value]
      | imm c => rfl
  | _ => cases h

/-- Instructions without effect can be left out. -/
theorem runAll_filter (is : List Instr) (f : File) :
    runAll (is.filter fun i => !i.isVoid) f = runAll is f := by
  induction is generalizing f with
  | nil => rfl
  | cons i is ih =>
      cases hvoid : i.isVoid with
      | true =>
          rw [List.filter_cons_of_neg (by simp [hvoid]), ih, runAll, Instr.run_void hvoid]
          rfl
      | false =>
          rw [List.filter_cons_of_pos (by simp [hvoid]), runAll, runAll]
          exact bind_congr fun f' => ih f'

/-- Add instructions at the end of a stream. -/
def Stream.pushAll (s : Stream) (is : List Instr) : Stream :=
  is.foldl push s

/-- One part after the other is added. -/
theorem Stream.pushAll_append (s : Stream) (is js : List Instr) :
    s.pushAll (is ++ js) = (s.pushAll is).pushAll js :=
  List.foldl_append

/-- The tokens of a stream to which instructions are added. -/
theorem Stream.pushAll_tokens (s : Stream) (is : List Instr) :
    (s.pushAll is).tokens =
      s.tokens ++ (is.filter fun i => !i.isVoid).flatMap Instr.encode := by
  induction is generalizing s with
  | nil => simp [pushAll]
  | cons i is ih =>
      rw [pushAll, List.foldl_cons, ← pushAll, ih]
      cases hvoid : i.isVoid with
      | true => simp [push, hvoid]
      | false => simp [push_tokens hvoid, hvoid]

/-- **What was written is read back**, but for instructions without effect. -/
theorem Stream.instrs?_pushAll (is : List Instr) :
    (empty.pushAll is).instrs? = some (is.filter fun i => !i.isVoid) := by
  rw [instrs?, pushAll_tokens, empty, List.nil_append, decode_flatMap_encode]

end ScriptCore.Registers
