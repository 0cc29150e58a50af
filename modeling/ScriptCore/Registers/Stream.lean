import ScriptCore.Registers.Expr

/-!
# Token streams

Register code is kept as a flat list of tokens: the head of each instruction followed by its
operands.  `encode` writes one instruction, `decode` reads a stream back.  An instruction without
effect, `nop` or an assignment of an operand to itself, is not written at all.

Main statements: `decode_encode_append` (a written instruction is read back, whatever follows),
`decode_flatMap_encode` (so is a whole list of them) and `Stream.unary_error` (an operand that is
not lowered is refused).
-/

namespace ScriptCore.Registers

/-- A token of the stream. -/
inductive Token where
  | unary (op : Unary)
  | binary (op : BinaryOp)
  | adjust (op : Adjust)
  | update (op : Update)
  | alloc
  | free
  | reg (id : Nat)
  | kind (k : Kind)
  | imm (c : Imm)
deriving Repr, DecidableEq, Inhabited

/-- Token of an operand. -/
def Operand.token : Operand → Token
  | .reg id => .reg id
  | .imm c => .imm c

/-- Operand of a token. -/
def Token.operand? : Token → Option Operand
  | .reg id => some (.reg id)
  | .imm c => some (.imm c)
  | _ => none

/-- An operand is read back from its token. -/
@[simp] theorem Operand.operand?_token (o : Operand) : o.token.operand? = some o := by
  cases o <;> rfl

/-- Tokens of an instruction. -/
def Instr.encode : Instr → List Token
  | unary op src dst => [.unary op, src.token, .reg dst]
  | binary op a b dst => [.binary op, a.token, b.token, .reg dst]
  | adjust op dst => [.adjust op, dst.token]
  | update op src dst => [.update op, src.token, dst.token]
  | alloc reg => [.alloc, .reg reg.id, .kind reg.kind]
  | free reg => [.free, .reg reg.id, .kind reg.kind]

/-- Instructions of a list of tokens, if every instruction is complete. -/
def decode : List Token → Option (List Instr)
  | [] => some []
  | .unary op :: src :: .reg dst :: rest => do
    let src ← src.operand?
    return .unary op src dst :: (← decode rest)
  | .binary op :: a :: b :: .reg dst :: rest => do
    let a ← a.operand?
    let b ← b.operand?
    return .binary op a b dst :: (← decode rest)
  | .adjust op :: dst :: rest => do
    let dst ← dst.operand?
    return .adjust op dst :: (← decode rest)
  | .update op :: src :: dst :: rest => do
    let src ← src.operand?
    let dst ← dst.operand?
    return .update op src dst :: (← decode rest)
  | .alloc :: .reg id :: .kind k :: rest => do
    return .alloc ⟨id, k⟩ :: (← decode rest)
  | .free :: .reg id :: .kind k :: rest => do
    return .free ⟨id, k⟩ :: (← decode rest)
  | _ => none

/-- A written instruction is read back, whatever follows. -/
theorem decode_encode_append (i : Instr) (rest : List Token) :
    decode (i.encode ++ rest) = (decode rest).map (i :: ·) := by
  cases i <;> simp [Instr.encode, decode] <;> cases decode rest <;> rfl

/-- A stream made of instructions is read back as these. -/
theorem decode_flatMap_encode (is : List Instr) : decode (is.flatMap Instr.encode) = some is := by
  induction is with
  | nil => rfl
  | cons i is ih => simp [List.flatMap_cons, decode_encode_append, ih]

/-- Instructions that change nothing and are not written. -/
def Instr.isVoid : Instr → Bool
  | adjust .nop _ => true
  | update .assign src dst => src == dst
  | _ => false

/-- A stream of tokens. -/
structure Stream where
  tokens : List Token
deriving Repr, DecidableEq, Inhabited

namespace Stream

/-- The stream without instructions. -/
def empty : Stream := ⟨[]⟩

/-- Number of tokens. -/
def size (s : Stream) : Nat :=
  s.tokens.length

/-- Add an instruction at the end, unless it is void. -/
def push (s : Stream) (i : Instr) : Stream :=
  if i.isVoid then s else ⟨s.tokens ++ i.encode⟩

/-- Instructions of the stream. -/
def instrs? (s : Stream) : Option (List Instr) :=
  decode s.tokens

/-- One line for each instruction. -/
def text (s : Stream) : String :=
  match s.instrs? with
  | some is => String.join (is.map fun i => i.text ++ "\n")
  | none => ""

/-- Add `dst = op src`. -/
def unary (s : Stream) (op : Unary) (src : Expr) (dst : Reg) : Except CodeError Stream := do
  return s.push (.unary op (← src.operand) dst.id)

/-- Add `dst = a op b`. -/
def binary (s : Stream) (op : BinaryOp) (a b : Expr) (dst : Reg) : Except CodeError Stream := do
  return s.push (.binary op (← a.operand) (← b.operand) dst.id)

/-- Add a change of `dst`. -/
def adjust (s : Stream) (op : Adjust) (dst : Expr) : Except CodeError Stream := do
  return s.push (.adjust op (← dst.operand))

/-- Add an update of `dst` by `src`. -/
def update (s : Stream) (op : Update) (src dst : Expr) : Except CodeError Stream := do
  return s.push (.update op (← src.operand) (← dst.operand))

/-- Pushing an instruction that is not void adds its tokens at the end. -/
theorem push_tokens {s : Stream} {i : Instr} (h : i.isVoid = false) :
    (s.push i).tokens = s.tokens ++ i.encode := by
  simp [push, h]

/-- An operand that is not lowered is refused. -/
theorem unary_error (s : Stream) (op : Unary) (u : Unary) (x : Expr) (dst : Reg) :
    s.unary op (.unary u x) dst = .error (.notLowered (.unary u x)) := rfl

end Stream

end ScriptCore.Registers
