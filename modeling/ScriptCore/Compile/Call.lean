import ScriptCore.Compile.Selection

/-!
# Calls

Calls of functions, methods and function values, conversions, and the builtin functions.  All
arguments of a call are compiled before any of them is checked against its parameter.  The results
of a call that does not have exactly one can be the arguments of another.

Main statements: `Signature.accepts_fixed` (a function that is not variadic takes exactly as many
arguments as it has parameters) and `conversion_count`.
-/

namespace ScriptCore

namespace Signature

/-- Number of parameters that take one argument each. -/
def fixed (s : Signature) : Nat :=
  if s.variadic then s.params.length - 1 else s.params.length

/-- The function can be called with this many arguments. -/
def accepts (s : Signature) (count : Nat) : Bool :=
  if s.variadic then decide (s.fixed ≤ count) else count == s.fixed

/-- Type that argument `i` must have. -/
def argumentType? (s : Signature) (t : TypeTable) (i : Nat) : Option Ty :=
  if i < s.fixed then s.params[i]?
  else if s.variadic then s.params.getLast?.bind t.elem?
  else none

/-- Position from which arguments are packed into one. -/
def packFrom (s : Signature) : Option Nat :=
  if s.variadic then some s.fixed else none

/-- A function that is not variadic takes exactly as many arguments as it has parameters. -/
theorem accepts_fixed {s : Signature} (h : s.variadic = false) (count : Nat) :
    s.accepts count = true ↔ count = s.params.length := by
  simp [accepts, fixed, h]

end Signature

namespace Compile

/-- Run steps from left to right. -/
def sequence {α : Type} : List (Compile α) → Compile (List α)
  | [] => return []
  | step :: rest => do
    let a ← step
    return a :: (← sequence rest)

/-- Apply a rule to every argument and the type it must have. -/
def eachArgument {α β : Type} (t : TypeTable) (name : String) (s : Signature) (count : Nat)
    (f : α → Ty → Except Fault β) : Nat → List α → Except Fault (List β)
  | _, [] => .ok []
  | i, a :: rest =>
    match s.argumentType? t i with
    | none => .error (.argCount name s.params.length count)
    | some ty => do
      let b ← f a ty
      return b :: (← eachArgument t name s count f (i + 1) rest)

/-- Arguments of a call from compiled operands. -/
def argumentsOf (t : TypeTable) (name : String) (s : Signature) (ops : List Operand) :
    Except Fault Code.Args :=
  let refused (count : Nat) : Fault := .argCount name s.params.length count
  match ops with
  | [.results call types] => do
    unless s.accepts types.length do throw (refused types.length)
    let _ ← eachArgument t name s types.length (Term.requireAssignable t) 0 types
    return .forward call s.packFrom
  | ops => do
    unless s.accepts ops.length do throw (refused ops.length)
    let exprs ← eachArgument t name s ops.length (fun op ty => op.valueFor t ty) 0 ops
    let exprs := exprs.map Code.Typed.expr
    return match s.packFrom with
      | none => .list exprs none
      | some n => .list (exprs.take n) (some (exprs.drop n))

/-- Call of a function, with a receiver or without. -/
def directCall (name : String) (func : Code.Expr) (s : Signature) (recv : Option Code.Expr)
    (args : List (Compile Operand)) : Compile Operand := do
  let ops ← sequence args
  let args ← rule fun t => argumentsOf t name s ops
  return .ofCall (← types) (.direct func recv args) s.results

/-- Call of a function value. -/
def callOperand (callee : Operand) (args : List (Compile Operand)) : Compile Operand := do
  let (e, ty) ← rule fun t => callee.valueOf t
  let s ← calledSignature ty
  directCall "function value" e.expr s none args

/-- Categories whose constants stay constants when they are converted. -/
def isScalar : Category → Bool
  | .func | .unknown => false
  | _ => true

/-- A converted constant; an integer converted to a string is the string of one code point. -/
def convertedConst (t : TypeTable) (c : Constant) (ty : Ty) : Except Fault Term := do
  match c, t.category ty with
  | .int i, .string => return .const (.str (codePointText i)) (some ty)
  | c, _ => return .const (← c.represent t ty) (some ty)

/-- A converted term. -/
def convertedTerm (t : TypeTable) (x : Term) (ty : Ty) : Except Fault Term :=
  match x with
  | .const c _ =>
    if !c.isNil && isScalar (t.category ty) then convertedConst t c ty
    else do return .code (← x.valueFor t ty) ty
  | .code e _ => .ok (.ofExpr t (.convert ty e.expr) ty)

/-- A conversion. -/
def conversion (ty : Ty) (args : List (Compile Operand)) : Compile Operand := do
  match args with
  | [arg] =>
    let x ← check (← arg).single
    return .term (← rule fun t => convertedTerm t x ty)
  | args => fail (.argCount ty.text 1 args.length)

/-- A conversion takes one argument. -/
theorem conversion_count {ty : Ty} {args : List (Compile Operand)} (h : args.length ≠ 1) :
    conversion ty args = fail (.argCount ty.text 1 args.length) := by
  match args with
  | [] => rfl
  | [_] => simp at h
  | _ :: _ :: _ => rfl

/-- `len` and `cap`; the length of a constant string is constant. -/
def lengthOf (t : TypeTable) (b : Builtin) (op : Operand) : Except Fault Term :=
  match b, op with
  | .len, .term (.const (.str s) _) =>
    .ok (.const (.int s.utf8ByteSize) (some (.basic .int)))
  | b, op => do
    let (e, ty) ← op.valueOf t
    match b, t.kind ty with
    | .len, .string | .len, .slice | .len, .map =>
      return .code ⟨.int, .length e.expr⟩ (.basic .int)
    | .cap, .slice => return .code ⟨.int, .capacity e.expr⟩ (.basic .int)
    | b, _ => throw (.invalidOperation b.name ty.text)

/-- `len(x)` and `cap(x)`. -/
def lengthCall (b : Builtin) (args : List (Compile Operand)) : Compile Operand := do
  match args with
  | [arg] =>
    let op ← arg
    return .term (← rule fun t => lengthOf t b op)
  | args => fail (.argCount b.name 1 args.length)

/-- Compile an operand as an index. -/
def indexed (operand : Compile Operand) : Compile Code.Expr := do
  let op ← operand
  rule fun t => indexOperand t op

/-- A new slice or map of the type `ty`. -/
def made (t : TypeTable) (ty : Ty) (sizes : List Code.Expr) : Except Fault Code.Expr :=
  match t.kind ty with
  | .slice =>
    let zero := (t.elem? ty).elim Value.nil t.zero
    match sizes with
    | [len] => .ok (.makeSlice len none zero)
    | [len, cap] => .ok (.makeSlice len (some cap) zero)
    | _ => .error (.argCount "make" 2 (sizes.length + 1))
  | .map =>
    if sizes.length ≤ 1 then .ok .makeMap else .error (.argCount "make" 2 (sizes.length + 1))
  | _ => .error (.invalidOperation "make" ty.text)

/-- `make(T, sizes...)`; `type?` is the type that the first argument names. -/
def makeCall (type? : Compile (Option Ty)) (args : List (Compile Operand)) : Compile Operand := do
  match args with
  | [] => fail (.argCount "make" 1 0)
  | _ :: sizes =>
    match ← type? with
    | none => fail (.notAType "make argument")
    | some ty =>
      let sizes ← sequence (sizes.map indexed)
      return .term (.reference (← rule fun t => made t ty sizes) ty)

/-- `append(s, elems...)`. -/
def appendCall (args : List (Compile Operand)) : Compile Operand := do
  match args with
  | [] => fail (.argCount "append" 1 0)
  | base :: elems =>
    let b ← base
    let (e, ty) ← rule fun t => b.valueOf t
    let t ← types
    match t.kind ty, t.elem? ty with
    | .slice, some elem =>
      let vs ← sequence (elems.map fun v => converted v elem)
      return .term (.reference (.append e.expr vs) ty)
    | _, _ => fail (.invalidOperation "append" ty.text)

/-- `delete(m, k)`. -/
def deleteCall (args : List (Compile Operand)) : Compile Operand := do
  match args with
  | [map, key] =>
    let m ← map
    let (e, ty) ← rule fun t => m.valueOf t
    let t ← types
    match t.kind ty, t.key? ty with
    | .map, some keyType =>
      let k ← converted key keyType
      return .results (.delete e.expr k) []
    | _, _ => fail (.invalidOperation "delete" ty.text)
  | args => fail (.argCount "delete" 2 args.length)

/-- Call of a builtin function; `type?` is the type that the first argument names. -/
def builtinCall (b : Builtin) (type? : Compile (Option Ty)) (args : List (Compile Operand)) :
    Compile Operand :=
  match b with
  | .len | .cap => lengthCall b args
  | .make => makeCall type? args
  | .append => appendCall args
  | .delete => deleteCall args

/-- What is called, by its form: a name, a selector whose base may be a name, or any other
expression. -/
inductive Callee where
  | name (name : Name)
  | selector (baseName : Option Name) (base : Compile Operand) (field : Name)
  | other

/-- Call of a selector: a member of a package, a method, or a function value in a field. -/
def selectorCall (baseName : Option Name) (base : Compile Operand) (field : Name)
    (whole : Compile Operand) (args : List (Compile Operand)) : Compile Operand := do
  match ← packageMember? baseName field with
  | some _ => callOperand (← whole) args
  | none =>
    let b ← base
    let (e, ty) ← rule fun t => b.valueOf t
    match (← get).method? ty field with
    | some m =>
      let s ← calledSignature m.type
      let depth := (← get).globalsDepth
      directCall field (.load depth m.slot) s (some e.expr) args
    | none => callOperand (← select e.expr ty field) args

/-- A call.  `type?` and `whole` are the type that the callee names and the callee as an operand,
`firstType?` is the type that the first argument names. -/
def call (type? : Compile (Option Ty)) (callee : Callee) (whole : Compile Operand)
    (firstType? : Compile (Option Ty)) (args : List (Compile Operand)) : Compile Operand := do
  match ← type? with
  | some ty => conversion ty args
  | none =>
    match callee with
    | .name name =>
      match (← get).resolve name with
      | some (.builtin b) => builtinCall b firstType? args
      | some (.func depth slot ty) =>
        let s ← calledSignature ty
        directCall name (.load depth slot) s none args
      | _ => callOperand (← whole) args
    | .selector baseName base field => selectorCall baseName base field whole args
    | .other => callOperand (← whole) args

/-- Code for what a name means, as an operand. -/
def identifier (name : Name) : Compile Operand := do
  match ← resolve name with
  | .var depth slot ty | .func depth slot ty =>
    return .term (.ofExpr (← types) (.load depth slot) ty)
  | .const c ty => return .term (.const c ty)
  | .host f => return hostOperand f
  | .type _ | .package _ | .builtin _ => fail (.notAnExpression name)

end Compile

end ScriptCore
