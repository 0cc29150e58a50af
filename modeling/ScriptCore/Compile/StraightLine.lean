import ScriptCore.Registers.Lowering
import ScriptCore.Syntax.Tree
import ScriptCore.Types.Kind

/-!
# Straight-line integer functions as register code

A function can be turned into register code if all its parameters, results and variables are
integers and its body is a straight line of definitions, assignments, updates and steps, which may
end in a return.  The parameters take the first registers, in order, and the results the next ones.
Results that could be read before they are written start at zero.  Every register with a name is
released at the end.

A function that does not have this form is no error; it simply has no register code.

Main statements: `kindOf_paren` (parentheses do not matter) and `ofKind?_isInteger` (only integers
are kept in registers).
-/

namespace ScriptCore.StraightLine

/-- Register kind for an integer kind. -/
def ofKind? : ScriptCore.Kind → Option Registers.Kind
  | .int => some .int | .int8 => some .int8 | .int16 => some .int16
  | .int32 => some .int32 | .int64 => some .int64
  | .uint => some .uint | .uint8 => some .uint8 | .uint16 => some .uint16
  | .uint32 => some .uint32 | .uint64 => some .uint64 | .uintptr => some .uintptr
  | _ => none

/-- Only integers are kept in registers. -/
theorem ofKind?_isInteger {k : ScriptCore.Kind} {r : Registers.Kind} (h : ofKind? k = some r) :
    r.isInteger = true := by
  cases k <;> first | (cases h; rfl) | cases h

/-- Register kinds of all types of a list. -/
def ofKinds? (kinds : List ScriptCore.Kind) : Option (List Registers.Kind) :=
  kinds.mapM ofKind?

/-- Registers of variables, and all registers that were bound, in order. -/
structure Variables where
  registers : List (Name × Registers.Reg)
  bound : List Registers.Reg

/-- Steps that write register code or find that a function has none. -/
abbrev Straight := OptionT (StateT Variables Registers.Lower)

/-- Write register code. -/
def write {α : Type} (step : Registers.Lower α) : Straight α :=
  fun v => do return (some (← step), v)

/-- The function has no register code. -/
def refuse {α : Type} : Straight α := failure

/-- Go on if there is a value. -/
def need {α : Type} : Option α → Straight α
  | some a => pure a
  | none => refuse

/-- The register of a variable. -/
def register? (registers : List (Name × Registers.Reg)) (name : Name) : Option Registers.Reg :=
  registers.lookup name

/-- A new register, which a name stands for unless it is blank. -/
def bind (name : Option Name) (kind : Registers.Kind) : Straight Registers.Reg := do
  let reg ← write (Registers.alloc kind)
  modify fun v =>
    { registers := match name with
        | some n => if n = blank then v.registers else (n, reg) :: v.registers
        | none => v.registers
      bound := v.bound ++ [reg] }
  return reg

/-- New registers for parameters or results. -/
def bindEach : List Param → List Registers.Kind → Straight (List Registers.Reg)
  | p :: ps, k :: ks => do
    let reg ← bind p.name k
    return reg :: (← bindEach ps ks)
  | _, _ => return []

/-- The variable that an expression is. -/
def localOf? (registers : List (Name × Registers.Reg)) : Expr → Option Registers.Reg
  | .node _ (.ident name) => register? registers name
  | .node _ (.paren e) => localOf? registers e
  | _ => none

/-- The kinds of variables. -/
def kindsIn (registers : List (Name × Registers.Reg)) (name : Name) : Option Registers.Kind :=
  (register? registers name).map Registers.Reg.kind

/-- The kind that an expression has by itself; constants have none. -/
def kindOf (kinds : Name → Option Registers.Kind) : Expr → Option Registers.Kind
  | .node _ (.ident name) => kinds name
  | .node _ (.paren e) => kindOf kinds e
  | .node _ (.unary _ e) => kindOf kinds e
  | .node _ (.binary op a b) =>
    if op.isShift then kindOf kinds a else (kindOf kinds a).or (kindOf kinds b)
  | _ => none

/-- Parentheses do not matter. -/
theorem kindOf_paren (kinds : Name → Option Registers.Kind) (span : Span) (e : Expr) :
    kindOf kinds (.node span (.paren e)) = kindOf kinds e := by
  simp [kindOf]

/-- Operators that register code has on integers. -/
def isArithmetic (op : BinaryOp) : Bool :=
  op.isIntArith || op.isShift

/-- An integer constant of a kind, if it fits 64 bits. -/
def constant? (kind : Registers.Kind) (i : Int) : Option Registers.Imm :=
  if kind.isSigned then
    if Int64.minValue.toInt ≤ i ∧ i ≤ Int64.maxValue.toInt then some (.int (Int64.ofInt i) kind)
    else none
  else if 0 ≤ i ∧ i < UInt64.size then some (.uint (UInt64.ofInt i) kind)
  else none

/-- An expression of a kind as a register expression. -/
def exprOf? (registers : List (Name × Registers.Reg)) (kind : Registers.Kind) :
    Expr → Option Registers.Expr
  | .node _ (.ident name) =>
    match register? registers name with
    | some reg => if reg.kind = kind then some (.reg reg) else none
    | none => none
  | .node _ (.int i) => (constant? kind i).map .imm
  | .node _ (.paren e) => exprOf? registers kind e
  | .node _ (.unary op e) =>
    match op with
    | .plus => exprOf? registers kind e
    | .neg => (exprOf? registers kind e).map (.unary .neg)
    | .bitNot => (exprOf? registers kind e).map (.unary .bitNot)
    | .not => none
  | .node _ (.binary op a b) =>
    if isArithmetic op then
      match exprOf? registers kind a,
        exprOf? registers
          (if op.isShift then (kindOf (kindsIn registers) b).getD .uint else kind) b with
      | some x, some y => some (.binary op x y)
      | _, _ => none
    else none
  | _ => none

/-- Compute an expression into a register. -/
def assign (reg : Registers.Reg) (value : Expr) : Straight Unit := do
  let e ← need (exprOf? (← get).registers reg.kind value)
  write (Registers.assign e reg)

/-- Define a variable, or assign to it if it is known. -/
def define (name : Name) (value : Expr) : Straight Unit := do
  if name = blank then refuse
  let registers := (← get).registers
  match register? registers name with
  | some reg => assign reg value
  | none =>
    let kind := (kindOf (kindsIn registers) value).getD .int
    let e ← need (exprOf? registers kind value)
    let reg ← bind (some name) kind
    write (Registers.assign e reg)

/-- A statement of a straight line. -/
def statement : StmtKind → Straight Unit
  | .define [name] [value] => define name value
  | .assign [target] [value] => do
    assign (← need (localOf? (← get).registers target)) value
  | .opAssign op target value => do
    let registers := (← get).registers
    let reg ← need (localOf? registers target)
    let inst ← need (Registers.Update.ofOp? op)
    let kind :=
      if op.isShift then (kindOf (kindsIn registers) value).getD .uint else reg.kind
    let e ← need (exprOf? registers kind value)
    write (Registers.update inst e reg)
  | .incDec target increment => do
    let reg ← need (localOf? (← get).registers target)
    write (Registers.adjust (if increment then .inc else .dec) reg)
  | _ => refuse

/-- Compute values into the registers of results. -/
def assignEach : List Registers.Reg → List Expr → Straight Unit
  | reg :: regs, value :: values => do
    assign reg value
    assignEach regs values
  | _, _ => pure ()

/-- A return at the end of a straight line. -/
def returnValues (results : List Registers.Reg) (values : List Expr) : Straight Unit := do
  if values.isEmpty then return ()
  if values.length ≠ results.length then refuse
  assignEach results values

/-- The statements of a body, the last of which may be a return. -/
def statements (results : List Registers.Reg) : List Stmt → Straight Unit
  | [] => pure ()
  | [.node _ (.return values)] => returnValues results values
  | .node _ kind :: rest => do
    statement kind
    statements results rest

/-- The last statement returns values. -/
def endsInValues (stmts : List Stmt) : Bool :=
  match stmts.getLast? with
  | some (.node _ (.return values)) => !values.isEmpty
  | _ => false

/-- Compute zero into registers. -/
def zeroEach (regs : List Registers.Reg) : Straight Unit :=
  regs.forM fun reg => write (Registers.assign (.imm (.zero reg.kind)) reg)

/-- Register code of a function whose parameters and results have the given kinds. -/
def function (sig : Sig) (params results : List Registers.Kind) (stmts : List Stmt) :
    Straight Unit := do
  let _ ← bindEach sig.params params
  let outs ← bindEach sig.results results
  if (sig.results.any fun r => r.name.isSome) || !endsInValues stmts then zeroEach outs
  statements outs stmts
  for reg in (← get).bound do
    write (Registers.free reg)

/-- Register code of a function with parameters and results of the given kinds, if it has some. -/
def ofFunc? (decl : FuncDecl) (params results : List ScriptCore.Kind) :
    Except Registers.CodeError (Option Registers.Stream) :=
  match decl.body, ofKinds? params, ofKinds? results with
  | some body, some ps, some rs =>
    if decl.sig.variadic then .ok none
    else
      match ((function decl.sig ps rs body.stmts).run ⟨[], []⟩).run.run .empty with
      | (.ok (some _, _), s) => .ok (some s.code)
      | (.ok (none, _), _) => .ok none
      | (.error e, _) => .error e
  | _, _, _ => .ok none

end ScriptCore.StraightLine
