import ScriptCore.Compile.Call
import ScriptCore.Machine.Eval
import ScriptCore.Proofs.Control.Simulation

/-!
# Plans of evaluation

What code does with the operands of an expression, as a plan: steps that are taken one after the
other, each of which runs an operand, adds a value, or works on the values at hand.  The steps are
data.  None of them contains code of an operand, so an operand is run where the plan says so and
nowhere else.  Only a plan that decides by its first value may leave out the rest.

Code that is built from parts has the plan of its parts, one after the other, and then one step that
works on their values.

Main statements: `Step.runAll_append`, `Parts.run` and `Parts.operands`.
-/

namespace ScriptCore

/-- The operand is a constant, which is not evaluated when the program runs. -/
def Operand.isConst : Operand → Bool
  | .term (.const _ _) => true
  | _ => false

/-- Run the code of an operand in the record `r`; nothing is run for a constant. -/
def Operand.run (x : Context) (r : Nat) : Operand → Run (List Value)
  | .term (.const _ _) => return []
  | .term (.code e _) => do return [← eval x r e.expr]
  | .results call _ => evalCall x r call

namespace Evaluation

/-- What can be done with values at hand. -/
inductive Action where
  | expect (category : Category)
  | unary (op : UnaryOp) (kind : Kind)
  | binary (op : BinaryOp) (kind : Kind)
  | convert (type : Ty)
  | length
  | capacity
  | makeSlice (zero : Value)
  | makeMap
  | append
  | newSlice
  /-- Store a value under a key in a map, which stays at hand. -/
  | insert
  | newStruct
  | mapGet (zero : Value)
  | sliceGet
  | byteAt
  | field (index : Nat)
  | closure (body : Code.Body)
  | bindMethod (name : Name)
  /-- The last value as an index. -/
  | asIndex
  | first
  | call (position : Option Nat)
  /-- Call a method; the receiver comes before the function. -/
  | callMethod (position : Option Nat)
  | delete

/-- A step of a plan with operands in `α`. -/
inductive Step (α : Type) where
  | operand (o : α)
  | value (v : Value)
  /-- The value of a variable, such as that of a function or method of the package. -/
  | load (depth slot : Nat)
  | apply (action : Action)

/-- A plan: steps one after the other, or steps whose value decides whether others follow.  They
follow if the value is `expected`. -/
inductive Plan (α : Type) where
  | all (steps : List (Step α))
  | decide (expected : Bool) (first second : List (Step α))

section Runs

variable {α : Type} (x : Context) (r : Nat) (perform : α → Run (List Value))

/-- Do something with values at hand. -/
def Action.run : Action → List Value → Run (List Value)
  | .expect c, [v] => do return [← Run.check (v.expect c)]
  | .unary op k, [v] => do return [← Run.check (unaryValue op k v)]
  | .binary op k, [a, b] => do return [← Run.check (binaryValues op k a b)]
  | .convert ty, [v] => do return [← eval x r (.convert ty (.const v))]
  | .length, [v] => do return [← eval x r (.length (.const v))]
  | .capacity, [v] => do return [← eval x r (.capacity (.const v))]
  | .makeSlice zero, [len] => do return [← ScriptCore.makeSlice len.index len.index zero]
  | .makeSlice zero, [len, cap] => do return [← ScriptCore.makeSlice len.index cap.index zero]
  | .makeMap, [] => do return [.map (← Run.onHeap Heap.newMap)]
  | .append, base :: elems => do return [← appendTo base elems]
  | .newSlice, elems => do return [← Run.newSlice elems]
  | .insert, [.map ref, k, v] => do
    Run.insertEntry ref k v
    return [.map ref]
  | .newStruct, fields => return [.struct fields]
  | .mapGet zero, [m, k] => do return [← Run.check (mapElement (← get).heap m k zero)]
  | .sliceGet, [s, i] => do return [← Run.check (sliceElement (← get).heap s i.index)]
  | .byteAt, [s, i] => do return [← Run.check (byteOf s i.index)]
  | .field index, [v] => do return [fieldAt (← Run.check (structFields v)) index]
  | .closure body, [] => do return [← Run.newFunction (.closure body r) "func literal"]
  | .bindMethod name, [recv, method] => do
    return [← eval x r (.bindMethod name (.const recv) (.const method))]
  | .asIndex, vs => return vs.dropLast ++ (vs.getLast?.map fun v => .int (.ofInt v.index)).toList
  | .first, vs => return [vs.headD .nil]
  | .call position, f :: args => do x.call f (← packFrom position args)
  | .callMethod position, recv :: f :: args => do x.call f (recv :: (← packFrom position args))
  | .delete, [m, k] => removeKey m k
  | _, vs => return vs

/-- Take a step with values at hand, where `perform` runs an operand. -/
def Step.run : Step α → List Value → Run (List Value)
  | .operand o, vs => do return vs ++ (← perform o)
  | .value v, vs => return vs ++ [v]
  | .load depth slot, vs => do return vs ++ [← Run.loadSlot (← Run.ancestor r depth) slot]
  | .apply action, vs => action.run x r vs

/-- Take steps one after the other. -/
def Step.runAll : List (Step α) → List Value → Run (List Value)
  | [], vs => return vs
  | s :: rest, vs => do runAll rest (← s.run x r perform vs)

/-- Carry out a plan. -/
def Plan.run : Plan α → Run (List Value)
  | .all steps => Step.runAll x r perform steps []
  | .decide expected first second => do
    let vs ← Step.runAll x r perform first []
    if (vs.headD .nil).isTrue = expected then Step.runAll x r perform second []
    else return [.bool (!expected)]

end Runs

namespace Step

variable {α : Type}

/-- The operand that a step runs, if it runs one. -/
def operand? : Step α → Option α
  | .operand o => some o
  | _ => none

/-- The operands that steps run, in the order of the steps. -/
def operands (steps : List (Step α)) : List α :=
  steps.filterMap operand?

@[simp] theorem operands_nil : operands ([] : List (Step α)) = [] := rfl

@[simp] theorem operands_operand (o : α) (rest : List (Step α)) :
    operands (.operand o :: rest) = o :: operands rest := rfl

@[simp] theorem operands_value (v : Value) (rest : List (Step α)) :
    operands (.value v :: rest) = operands rest := rfl

@[simp] theorem operands_load (depth slot : Nat) (rest : List (Step α)) :
    operands (.load depth slot :: rest) = operands rest := rfl

@[simp] theorem operands_apply (a : Action) (rest : List (Step α)) :
    operands (.apply a :: rest) = operands rest := rfl

@[simp] theorem operands_append (first second : List (Step α)) :
    operands (first ++ second) = operands first ++ operands second :=
  List.filterMap_append

/-- An action at the end runs no operand. -/
@[simp] theorem operands_concat_apply (steps : List (Step α)) (a : Action) :
    operands (steps ++ [.apply a]) = operands steps := by
  rw [operands_append, operands_apply, operands_nil, List.append_nil]

variable {x : Context} {r : Nat} {perform : α → Run (List Value)}

/-- Steps after steps. -/
theorem runAll_append (first second : List (Step α)) (vs : List Value) :
    runAll x r perform (first ++ second) vs =
      (runAll x r perform first vs >>= runAll x r perform second) := by
  induction first generalizing vs with
  | nil => exact (pure_bind vs _).symm
  | cons s rest ih => simp only [List.cons_append, runAll, bind_assoc, ih]

/-- A single step. -/
@[simp] theorem runAll_single (s : Step α) (vs : List Value) :
    runAll x r perform [s] vs = s.run x r perform vs := by
  simp only [runAll, bind_pure]

/-- Steps that end well have run every operand that occurs in them. -/
theorem runAll_visits {steps : List (Step α)} {vs us : List Value} {m m' : Machine}
    (h : runAll x r perform steps vs m = .ok us m') {o : α} (ho : o ∈ operands steps) :
    ∃ m₁ ws m₂, perform o m₁ = .ok ws m₂ := by
  induction steps generalizing vs m with
  | nil => cases ho
  | cons s rest ih =>
      rw [runAll] at h
      obtain ⟨ws, m₁, hstep, hrest⟩ := run_bind_ok h
      cases s with
      | operand o' =>
          rw [operands_operand, List.mem_cons] at ho
          rcases ho with rfl | ho
          · obtain ⟨ws', m₂, hrun, -⟩ := run_bind_ok hstep
            exact ⟨m, ws', m₂, hrun⟩
          · exact ih hrest ho
      | value v | load depth slot | apply a => exact ih hrest ho

end Step

/-- The operands that a plan runs, in the order in which it runs them. -/
def Plan.operands {α : Type} : Plan α → List α
  | .all steps => Step.operands steps
  | .decide _ first second => Step.operands first ++ Step.operands second

/-- The value with which a plan goes on, if it decides by one. -/
def Plan.decider? {α : Type} : Plan α → Option Bool
  | .all _ => none
  | .decide expected _ _ => some expected

/-! ### Code built from operands -/

/-- Steps that stand for code that is used as the value of an operand. -/
inductive Part : Operand → Code.Expr → List (Step Operand) → Prop
  | const (c : Constant) (type : Option Ty) (v : Value) :
      Part (.term (.const c type)) (.const v) [.value v]
  | code (e : Code.Typed) (type : Ty) :
      Part (.term (.code e type)) e.expr [.operand (.term (.code e type))]
  | index (e : Code.Typed) (type : Ty) :
      Part (.term (.code e type)) (.asIndex e.expr)
        [.operand (.term (.code e type)), .apply .asIndex]

/-- Steps that stand for code that is used as the values of operands, in their order.  Fixed values
may come in between. -/
inductive Parts : List Operand → List Code.Expr → List (Step Operand) → Prop
  | nil : Parts [] [] []
  | fixed (v : Value) {ops : List Operand} {es : List Code.Expr} {rest : List (Step Operand)} :
      Parts ops es rest → Parts ops (.const v :: es) (.value v :: rest)
  | cons {op : Operand} {e : Code.Expr} {steps : List (Step Operand)} {ops : List Operand}
      {es : List Code.Expr} {rest : List (Step Operand)} :
      Part op e steps → Parts ops es rest → Parts (op :: ops) (e :: es) (steps ++ rest)

/-- Operands that are evaluated when the program runs. -/
def evaluated (ops : List Operand) : List Operand :=
  ops.filter fun op => !op.isConst

@[simp] theorem evaluated_append (ops ops' : List Operand) :
    evaluated (ops ++ ops') = evaluated ops ++ evaluated ops' :=
  List.filter_append ..

/-- Operands one by one. -/
theorem evaluated_cons (op : Operand) (ops : List Operand) :
    evaluated (op :: ops) = evaluated [op] ++ evaluated ops :=
  evaluated_append [op] ops

section

variable {x : Context} {r : Nat} {op : Operand} {e : Code.Expr} {steps rest : List (Step Operand)}
  {ops ops' : List Operand} {es es' : List Code.Expr}

/-- The steps of a part add the value of its code. -/
theorem Part.run (h : Part op e steps) (vs : List Value) :
    Step.runAll x r (Operand.run x r) steps vs = do return vs ++ [← eval x r e] := by
  cases h with
  | const c type v =>
      rw [Step.runAll_single, eval_const, pure_bind]
      rfl
  | code e type => simp only [Step.runAll_single, Step.run, Operand.run, bind_assoc, pure_bind]
  | index e type =>
      simp only [Step.runAll, Step.run, Action.run, Operand.run, eval, bind_assoc, pure_bind,
        List.dropLast_concat, List.getLast?_concat, Option.map_some, Option.toList_some]

/-- The steps of a part run its operand, unless that is a constant. -/
theorem Part.operands (h : Part op e steps) : Step.operands steps = evaluated [op] := by
  cases h <;> rfl

/-- **The steps of parts** add the values of their code. -/
theorem Parts.run (h : Parts ops es steps) (vs : List Value) :
    Step.runAll x r (Operand.run x r) steps vs = do return vs ++ (← evalAll x r es) := by
  induction h generalizing vs with
  | nil => simp only [Step.runAll, evalAll, pure_bind, List.append_nil]
  | fixed v _ ih =>
      simp only [Step.runAll, Step.run, evalAll, eval_const, pure_bind, bind_assoc, ih,
        List.append_assoc, List.singleton_append]
  | cons hpart _ ih =>
      simp only [Step.runAll_append, hpart.run, evalAll, pure_bind, bind_assoc, ih,
        List.append_assoc, List.singleton_append]

/-- **The steps of parts** run their operands in order, each once, but for constants. -/
theorem Parts.operands (h : Parts ops es steps) : Step.operands steps = evaluated ops := by
  induction h with
  | nil => rfl
  | fixed v _ ih => rw [Step.operands_value, ih]
  | cons hpart _ ih => rw [Step.operands_append, hpart.operands, ih, ← evaluated_cons]

/-- One part. -/
theorem Part.parts (h : Part op e steps) : Parts [op] [e] steps := by
  have hparts := Parts.cons h .nil
  rwa [List.append_nil] at hparts

/-- Parts and more parts. -/
theorem Parts.append (h : Parts ops es steps) (h' : Parts ops' es' rest) :
    Parts (ops ++ ops') (es ++ es') (steps ++ rest) := by
  induction h with
  | nil => exact h'
  | fixed v _ ih => exact .fixed v ih
  | cons hpart _ ih =>
      rw [List.append_assoc]
      exact .cons hpart ih

/-- Fixed values alone. -/
theorem Parts.of_fixed (vs : List Value) :
    Parts [] (vs.map Code.Expr.const) (vs.map Step.value) := by
  induction vs with
  | nil => exact .nil
  | cons v vs ih => exact .fixed v ih

end

end Evaluation

end ScriptCore
