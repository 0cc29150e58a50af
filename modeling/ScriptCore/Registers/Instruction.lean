import ScriptCore.Syntax.Basic
import ScriptCore.Registers.Kind

/-!
# Register instructions

A computing instruction writes a result into a destination register; an updating instruction
changes its destination in place; and two more mark where the life of a register begins and ends.

Main statement: `Update.ofOp?_eq_some_iff`, the updates that apply an operator are exactly the
compound forms of arithmetic and shift operators.
-/

namespace ScriptCore.Registers

/-- Unary computations. -/
inductive Unary where
  | neg | not | bitNot
deriving Repr, DecidableEq, Inhabited

namespace Unary

/-- All unary computations. -/
def all : List Unary := [neg, not, bitNot]

/-- Mnemonic. -/
def text : Unary → String
  | neg => "neg" | not => "not" | bitNot => "bitnot"

/-- The kinds of operands it is defined on. -/
def accepts : Unary → Kind → Bool
  | neg, k => k.isNumeric
  | not, k => k == .bool
  | bitNot, k => k.isInteger

end Unary

/-- Mnemonic of a binary computation. -/
def mnemonic : BinaryOp → String
  | .add => "add" | .sub => "sub" | .mul => "mul" | .div => "quo" | .rem => "rem"
  | .and => "and" | .or => "or" | .xor => "xor" | .andNot => "andnot"
  | .shl => "shl" | .shr => "shr" | .logAnd => "land" | .logOr => "lor"
  | .eq => "eql" | .notEq => "neq" | .lt => "lss" | .ltEq => "leq" | .gt => "gtr" | .gtEq => "geq"

/-- The kinds of left operands a binary computation is defined on. -/
def accepts : BinaryOp → Kind → Bool
  | .add, k | .sub, k | .mul, k | .div, k | .lt, k | .ltEq, k | .gt, k | .gtEq, k => k.isNumeric
  | .rem, k | .and, k | .or, k | .xor, k | .andNot, k | .shl, k | .shr, k => k.isInteger
  | .logAnd, k | .logOr, k => k == .bool
  | .eq, _ | .notEq, _ => true

/-- Changes of one register in place. -/
inductive Adjust where
  | nop | zero | inc | dec
deriving Repr, DecidableEq, Inhabited

namespace Adjust

/-- All changes of one register. -/
def all : List Adjust := [nop, zero, inc, dec]

/-- Mnemonic. -/
def text : Adjust → String
  | nop => "nop" | zero => "zero" | inc => "inc" | dec => "dec"

/-- The kinds of registers it is defined on. -/
def accepts : Adjust → Kind → Bool
  | nop, _ | zero, _ => true
  | inc, k | dec, k => k.isNumeric

end Adjust

/-- Changes of a register by a second operand: assignment, or an operator applied in place. -/
inductive Update where
  | assign
  | add | sub | mul | div | rem | and | or | xor | andNot | shl | shr
deriving Repr, DecidableEq, Inhabited

namespace Update

/-- All updates. -/
def all : List Update :=
  [assign, add, sub, mul, div, rem, and, or, xor, andNot, shl, shr]

/-- The operator an update applies; assignment applies none. -/
def op : Update → Option BinaryOp
  | assign => none
  | add => some .add | sub => some .sub | mul => some .mul | div => some .div | rem => some .rem
  | and => some .and | or => some .or | xor => some .xor | andNot => some .andNot
  | shl => some .shl | shr => some .shr

/-- The update that applies an operator in place; comparisons and logical operators have none. -/
def ofOp? : BinaryOp → Option Update
  | .add => some add | .sub => some sub | .mul => some mul | .div => some div | .rem => some rem
  | .and => some and | .or => some or | .xor => some xor | .andNot => some andNot
  | .shl => some shl | .shr => some shr
  | _ => none

/-- Mnemonic. -/
def text (u : Update) : String :=
  match u.op with
  | none => "assign"
  | some op => mnemonic op ++ "_assign"

/-- The kinds of registers it is defined on. -/
def accepts (u : Update) (k : Kind) : Bool :=
  u.op.elim true fun op => Registers.accepts op k

/-- An update applies an operator exactly when it is that operator's update. -/
theorem ofOp?_eq_some_iff {o : BinaryOp} {u : Update} : ofOp? o = some u ↔ u.op = some o := by
  cases o <;> cases u <;> decide

end Update

/-- Operand of an instruction. -/
inductive Operand where
  | reg (id : Nat)
  | imm (c : Imm)
deriving Repr, DecidableEq, Inhabited

/-- Text of an operand. -/
def Operand.text : Operand → String
  | .reg id => regText id
  | .imm c => c.text

/-- An instruction. -/
inductive Instr where
  | unary (op : Unary) (src : Operand) (dst : Nat)
  | binary (op : BinaryOp) (a b : Operand) (dst : Nat)
  | adjust (op : Adjust) (dst : Operand)
  | update (op : Update) (src dst : Operand)
  | alloc (reg : Reg)
  | free (reg : Reg)
deriving Repr, DecidableEq, Inhabited

/-- Name of a form of instruction. -/
def Instr.form : Instr → String
  | unary _ _ _ => "Op1" | binary _ _ _ _ => "Op2" | adjust _ _ => "Inst1" | update _ _ _ => "Inst2"
  | alloc _ => "Alloc" | free _ => "Free"

/-- Text of an instruction. -/
def Instr.text : Instr → String
  | unary op src dst => op.text ++ " " ++ src.text ++ " -> " ++ regText dst
  | binary op a b dst => mnemonic op ++ " " ++ a.text ++ ", " ++ b.text ++ " -> " ++ regText dst
  | adjust op dst => op.text ++ " " ++ dst.text
  | update op src dst => op.text ++ " " ++ src.text ++ " -> " ++ dst.text
  | alloc reg => "alloc " ++ reg.text
  | free reg => "free " ++ reg.text

end ScriptCore.Registers
