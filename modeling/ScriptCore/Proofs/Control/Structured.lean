import ScriptCore.Machine.Execute

/-!
# Structured control flow

What a body does, told by its syntax and not by positions and labels.  Simple statements are the
instructions they compile to, and everything else is a tree: sequences, conditionals and loops with
`break` and `continue`.  A tree is run by recursion on it; only loops need fuel, which bounds the
rounds of every loop, and a run that exceeds it times out.  What is evaluated is logged together
with the machine it is evaluated on.

A body falls off its end when its tree does, and then returns its named results or zero values.

Main statement: `Routine.run_stable`, more rounds make no difference to a run that has not timed
out.
-/

namespace ScriptCore

/-- One evaluation: a simple statement or a condition. -/
inductive Evaluation where
  | act (i : Code.Instr)
  | test (e : Code.Expr)

/-- Evaluations in order, each with the machine it starts on. -/
abbrev Log := List (Evaluation × Machine)

/-- Statements without labels: simple statements, sequences, conditionals and loops; `leave` and
`next` stand for `break` and `continue`. -/
inductive Tree where
  | act (is : List Code.Instr)
  | seq (first rest : Tree)
  | ifThen (test : Code.Expr) (body : Tree)
  | ifElse (test : Code.Expr) (body otherwise : Tree)
  | loop (init : Tree) (test : Option Code.Expr) (post body : Tree)
  | leave
  | next
deriving Inhabited

/-- How a statement ends. -/
inductive Outcome where
  | normal
  | left
  | continued
  | returned (values : List Value)
  | failed (f : Failure)
  | timeout

/-- A run of a statement: how it ends, on which machine, and what it evaluates. -/
structure Result where
  outcome : Outcome
  machine : Machine
  log : Log

namespace Result

/-- The same run with some evaluations before it. -/
def after (log : Log) (a : Result) : Result :=
  { a with log := log ++ a.log }

/-- A run that goes on if it ends normally. -/
def andThen (a : Result) (f : Machine → Result) : Result :=
  match a.outcome with
  | .normal => (f a.machine).after a.log
  | _ => a

end Result

section
variable (x : Context) (r : Nat)

/-- Simple statements one after the other.  They do not jump. -/
def actAll : List Code.Instr → Machine → Result
  | [], m => ⟨.normal, m, []⟩
  | i :: is, m =>
    match execute x r i m with
    | .ok (.stop vs) m' => ⟨.returned vs, m', [(.act i, m)]⟩
    | .ok _ m' => (actAll is m').after [(.act i, m)]
    | .error f m' => ⟨.failed f, m', [(.act i, m)]⟩

/-- A condition and what follows from it. -/
def decideOn (e : Code.Expr) (yes no : Machine → Result) (m : Machine) : Result :=
  match eval x r e m with
  | .ok v m' => (if v.isTrue then yes m' else no m').after [(.test e, m)]
  | .error f m' => ⟨.failed f, m', [(.test e, m)]⟩

/-- The condition of a loop; without one the loop goes on. -/
def decideOn? (test : Option Code.Expr) (yes no : Machine → Result) (m : Machine) : Result :=
  match test with
  | none => yes m
  | some e => decideOn x r e yes no m

/-- Rounds of a loop: test, body, post statement and again.  `continue` goes on with the post
statement, `break` ends the loop. -/
def rounds (test : Option Code.Expr) (body post : Machine → Result) : Nat → Machine → Result
  | 0, m => ⟨.timeout, m, []⟩
  | fuel + 1, m =>
    decideOn? x r test
      (fun m =>
        let b := body m
        match b.outcome with
        | .normal | .continued =>
          ((post b.machine).andThen (rounds test body post fuel)).after b.log
        | .left => { b with outcome := .normal }
        | _ => b)
      (fun m => ⟨.normal, m, []⟩) m

/-- Run a statement, with at most `fuel` rounds of every loop. -/
def Tree.exec (fuel : Nat) : Tree → Machine → Result
  | .act is, m => actAll x r is m
  | .seq first rest, m => (exec fuel first m).andThen (exec fuel rest)
  | .ifThen e body, m => decideOn x r e (exec fuel body) (fun m => ⟨.normal, m, []⟩) m
  | .ifElse e body otherwise, m => decideOn x r e (exec fuel body) (exec fuel otherwise) m
  | .loop init test post body, m =>
    (exec fuel init m).andThen (rounds x r test (exec fuel body) (exec fuel post) fuel)
  | .leave, m => ⟨.left, m, []⟩
  | .next, m => ⟨.continued, m, []⟩

end

/-- What falling off the end of a body returns: what the named results hold, or zero values. -/
inductive Ending where
  | named (slots : List Nat)
  | zeros (values : List Value)

namespace Ending

/-- The values that are returned from the record `r`. -/
def values (r : Nat) (m : Machine) : Ending → List Value
  | named slots => slots.map (m.record r).get
  | zeros values => values

/-- The instruction that returns them. -/
def instr : Ending → Code.Instr
  | named slots => .ret (slots.map fun s => .load 0 s)
  | zeros values => .ret (values.map .const)

end Ending

/-- A body without labels: what it begins with, its statements, and what falling off its end
returns. -/
structure Routine where
  entry : List Code.Instr
  body : Tree
  ending : Ending

namespace Routine

/-- Run a body in the record `r`. -/
def run (x : Context) (r fuel : Nat) (p : Routine) (m : Machine) : Result :=
  ((actAll x r p.entry m).andThen (p.body.exec x r fuel)).andThen fun m =>
    ⟨.returned (p.ending.values r m), m, [(.act p.ending.instr, m)]⟩

end Routine

/-! ### More rounds -/

section
variable {x : Context} {r : Nat}

namespace Result

/-- The second run is the first one unless that has timed out. -/
def Below (a b : Result) : Prop :=
  a.outcome ≠ .timeout → b = a

/-- Evaluations before two runs. -/
theorem Below.after {a b : Result} (h : a.Below b) (log : Log) :
    (a.after log).Below (b.after log) := by
  intro hne
  rw [h hne]

/-- Two runs that go on. -/
theorem Below.andThen {a b : Result} {f g : Machine → Result} (h : a.Below b)
    (hf : ∀ m, (f m).Below (g m)) : (a.andThen f).Below (b.andThen g) := by
  intro hne
  have hab : b = a := by
    refine h fun htimeout => hne ?_
    simp only [Result.andThen, htimeout]
  subst hab
  unfold Result.andThen at hne ⊢
  split at hne
  · exact (hf b.machine).after b.log hne
  · rfl

end Result

/-- Two ways on from a condition. -/
theorem decideOn_below {e : Code.Expr} {yes yes' no no' : Machine → Result}
    (hyes : ∀ m, (yes m).Below (yes' m)) (hno : ∀ m, (no m).Below (no' m)) (m : Machine) :
    (decideOn x r e yes no m).Below (decideOn x r e yes' no' m) := by
  unfold decideOn
  cases eval x r e m with
  | error f m' => exact fun _ => rfl
  | ok v m' =>
      dsimp only
      split
      · exact (hyes m').after _
      · exact (hno m').after _

/-- Two ways on from the condition of a loop. -/
theorem decideOn?_below {test : Option Code.Expr} {yes yes' no no' : Machine → Result}
    (hyes : ∀ m, (yes m).Below (yes' m)) (hno : ∀ m, (no m).Below (no' m)) (m : Machine) :
    (decideOn? x r test yes no m).Below (decideOn? x r test yes' no' m) := by
  cases test with
  | none => exact hyes m
  | some e => exact decideOn_below hyes hno m

/-- More rounds of a loop. -/
theorem rounds_below {test : Option Code.Expr} {body body' post post' : Machine → Result}
    (hbody : ∀ m, (body m).Below (body' m)) (hpost : ∀ m, (post m).Below (post' m)) (n k : Nat)
    (m : Machine) :
    (rounds x r test body post n m).Below (rounds x r test body' post' (n + k) m) := by
  induction n generalizing m with
  | zero => exact fun hne => absurd rfl hne
  | succ n ih =>
      rw [Nat.add_right_comm, rounds, rounds]
      refine decideOn?_below (fun m' hne => ?_) (fun m' _ => rfl) m
      have hb : body' m' = body m' := by
        refine hbody m' fun htimeout => hne ?_
        simp only [htimeout]
      have hrest (m : Machine) := (hpost m).andThen (f := rounds x r test body post n) ih
      rw [hb]
      dsimp only at hne ⊢
      split at hne
      · exact (hrest _).after _ hne
      · exact (hrest _).after _ hne
      · rfl
      · rfl

/-- More rounds make no difference to a statement that has not timed out. -/
theorem Tree.exec_below (t : Tree) (fuel k : Nat) (m : Machine) :
    (t.exec x r fuel m).Below (t.exec x r (fuel + k) m) := by
  induction t generalizing m with
  | act is => exact fun _ => rfl
  | seq first rest ihFirst ihRest => exact (ihFirst m).andThen ihRest
  | ifThen e body ih => exact decideOn_below ih (fun _ _ => rfl) m
  | ifElse e body otherwise ihBody ihOtherwise => exact decideOn_below ihBody ihOtherwise m
  | loop init test post body ihInit ihPost ihBody =>
      exact (ihInit m).andThen (rounds_below ihBody ihPost fuel k)
  | leave => exact fun _ => rfl
  | next => exact fun _ => rfl

/-- **More rounds make no difference to a body that has not timed out.** -/
theorem Routine.run_stable (p : Routine) (fuel k : Nat) (m : Machine)
    (h : (p.run x r fuel m).outcome ≠ .timeout) :
    p.run x r (fuel + k) m = p.run x r fuel m := by
  refine Result.Below.andThen ?_ (fun _ _ => rfl) h
  exact Result.Below.andThen (fun _ => rfl) (p.body.exec_below fuel k)

end

end ScriptCore
