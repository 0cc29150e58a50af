import ScriptCore.Registers.Instruction

/-!
# Register expressions

Trees of unary and binary computations over immediates and registers.  Only the leaves can be
operands of an instruction; a larger tree has to be lowered first.

Main statement: `operand_eq_ok_iff`, exactly the leaves are operands.
-/

namespace ScriptCore.Registers

/-- An expression over registers. -/
inductive Expr where
  | imm (c : Imm)
  | reg (r : Reg)
  | unary (op : Unary) (x : Expr)
  | binary (op : BinaryOp) (x y : Expr)
deriving Repr, DecidableEq, Inhabited

/-- Errors of emitting and lowering. -/
inductive CodeError where
  | notLowered (e : Expr)
  | unsupportedKind (op : String) (kind : Kind)
deriving Repr, DecidableEq

namespace Expr

/-- Kind of the value: comparisons give a boolean, everything else the kind of its first
operand. -/
def kind : Expr → Kind
  | imm c => c.kind
  | reg r => r.kind
  | unary _ x => x.kind
  | binary op x _ => if op.isComparison then .bool else x.kind

/-- Immediates and registers. -/
def isLeaf : Expr → Bool
  | imm _ | reg _ => true
  | unary _ _ | binary _ _ _ => false

/-- Text of an expression, with every computation in parentheses. -/
def text : Expr → String
  | imm c => c.text
  | reg r => regText r.id
  | unary op x => "(" ++ op.text ++ " " ++ x.text ++ ")"
  | binary op x y => "(" ++ mnemonic op ++ " " ++ x.text ++ " " ++ y.text ++ ")"

/-- A leaf as the operand of an instruction. -/
def operand : Expr → Except CodeError Operand
  | imm c => .ok (.imm c)
  | reg r => .ok (.reg r.id)
  | e => .error (.notLowered e)

/-- Exactly the leaves are operands. -/
theorem operand_eq_ok_iff (e : Expr) : (∃ o, e.operand = .ok o) ↔ e.isLeaf = true := by
  cases e <;> simp [operand, isLeaf]

end Expr

/-- Wording of an error. -/
def CodeError.message : CodeError → String
  | notLowered e => "cannot assemble " ++ e.text ++ ": must be compiled first"
  | unsupportedKind op kind => op ++ " is not supported on " ++ kind.text

end ScriptCore.Registers
