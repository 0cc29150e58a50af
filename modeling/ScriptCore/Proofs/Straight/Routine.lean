import ScriptCore.Proofs.Straight.Return

/-!
# Bodies without jumps

A body that consists of plain instructions is walked through once: every instruction goes on with
the next one, so that a walk with more fuel than there are instructions has come to an end.
Statements of a straight line are written down as such a body, and the run of the body is the run of
the statements, whatever the fuel.

Main statement: `Routine.results_eq`.
-/

namespace ScriptCore

variable {x : Context} {r : Nat}

/-- A walk that goes on has passed one instruction for each unit of fuel. -/
theorem walk_passed {body : Code.Body} (hplain : Code.Plain body.instrs.toList)
    (hsize : body.instrs.size ≤ Labels.unbound) (n p : Nat) (m : Machine)
    (hp : p ≤ body.instrs.size) {q : Nat} (hq : (walk x body r n p m).status = .running q) :
    p + n ≤ body.instrs.size := by
  induction n generalizing p m with
  | zero => exact hp
  | succ n ih =>
      rw [walk] at hq
      cases hi : body.instrs[p]? with
      | none =>
          rw [hi] at hq
          cases hq
      | some i =>
          have hlt := (Array.getElem?_eq_some_iff.1 hi).1
          have hmin : min (p + 1) Labels.unbound = p + 1 := by omega
          simp only [hi, hmin] at hq
          cases hrun : execute x r i m with
          | error f m' =>
              rw [hrun] at hq
              cases hq
          | ok next m' =>
              rw [hrun] at hq
              cases next with
              | advance =>
                  have hrest := ih (p + 1) m' hlt hq
                  omega
              | jump label =>
                  have hmem : i ∈ body.instrs.toList :=
                    Array.mem_toList_iff.2 (Array.mem_of_getElem? hi)
                  exact absurd hrun (execute_plain (hplain i hmem))
              | stop vs => cases hq

/-- A walk through plain instructions comes to an end. -/
theorem walk_plain_ends {body : Code.Body} (hplain : Code.Plain body.instrs.toList)
    (hsize : body.instrs.size ≤ Labels.unbound) {fuel : Nat} (hfuel : body.instrs.size < fuel)
    (m : Machine) (q : Nat) : (walk x body r fuel 0 m).status ≠ .running q := by
  intro hq
  have hpassed := walk_passed hplain hsize fuel 0 m (Nat.zero_le _) hq
  omega

/-! ### Statements of a straight line -/

namespace Tree

/-- Simple statements in order. -/
def isStraight : Tree → Bool
  | .act _ => true
  | .seq first rest => first.isStraight && rest.isStraight
  | _ => false

end Tree

/-- Instructions are added at the end of the code. -/
theorem Assembly.pushAll_code (k : Assembly) (is : List Code.Instr) :
    (k.pushAll is).code.toList = k.code.toList ++ is := by
  induction is generalizing k with
  | nil => simp
  | cons i is ih => simp [ih, push]

/-- A straight line is written down without jumps. -/
theorem Tree.write_plain {inLoop : Bool} {t : Tree} (hstraight : t.isStraight = true)
    (hwell : t.WellFormed inLoop) {k : Assembly} (hk : Code.Plain k.code.toList) :
    Code.Plain (t.write k).code.toList := by
  induction t generalizing k with
  | act is =>
      rw [write, Assembly.pushAll_code]
      exact hk.append hwell
  | seq first rest ihFirst ihRest =>
      rw [isStraight, Bool.and_eq_true] at hstraight
      exact ihRest hstraight.2 hwell.2 (ihFirst hstraight.1 hwell.1 hk)
  | _ => cases hstraight

namespace Routine

variable {p : Routine}

/-- A routine of a straight line is written down without jumps. -/
theorem write_plain (hentry : Code.Plain p.entry) (hwell : p.body.WellFormed false)
    (hstraight : p.body.isStraight = true) : Code.Plain (p.write .empty).code.toList := by
  have hbefore : Code.Plain (Assembly.empty.pushAll p.entry).code.toList := by
    rw [Assembly.pushAll_code]
    exact Code.Plain.nil.append hentry
  have hend : p.ending.instr.isPlain = true := by
    cases p.ending <;> rfl
  rw [write, Assembly.push, Array.toList_push]
  exact (Tree.write_plain hstraight hwell hbefore).append (.one hend)

end Routine

/-- What the statements of a body return or fail with, as results of a run. -/
def Outcome.results : Outcome → Except Failure (List Value)
  | returned vs => .ok vs
  | failed f => .error f
  | _ => .error .outOfFuel

/-- A run goes on with what a step gives. -/
theorem Run.bind_result {α β : Type} {a : Run α} {b : α} {m m' : Machine} (h : a m = .ok b m')
    (f : α → Run β) : (a >>= f) m = f b m' := by
  simp only [bind, EStateM.bind, h]

/-- The results of a run, or why it has none. -/
def Run.results {α : Type} (run : Run α) (m : Machine) : Except Failure α :=
  match run m with
  | .ok a _ => .ok a
  | .error f _ => .error f

namespace Routine

variable {p : Routine}

/-- **A straight line gives what its statements give**, in every run of its code that has more fuel
than the code has instructions. -/
theorem results_eq (hentry : Code.Plain p.entry) (hwell : p.body.WellFormed false)
    (hstraight : p.body.isStraight = true) {slots : Nat}
    (hsize : ((p.write .empty).body slots).instrs.size ≤ Labels.unbound) {fuel : Nat}
    (hfuel : ((p.write .empty).body slots).instrs.size < fuel) {m : Machine}
    (hends : (p.run x r 0 m).outcome ≠ .timeout) :
    Run.results (do
      return (← runFrom x ((p.write .empty).body slots) r fuel .start).results) m =
        (p.run x r 0 m).outcome.results := by
  have hplain : Code.Plain ((p.write .empty).body slots).instrs.toList :=
    write_plain hentry hwell hstraight
  have hrealizes := run_realizes (x := x) (r := r) hentry hwell hsize 0 m
  rcases hrealizes.ends_or_goes (p.run_ne_normal 0 m) with ⟨st, hst, hwalk⟩ | ⟨htimeout, -⟩
  · have heq := hwalk.eq_walk (walk_plain_ends hplain hsize hfuel m)
    rw [Run.results, runFrom_eq_walk fuel rfl m, show Cursor.start.position = 0 from rfl, heq]
    cases ho : (p.run x r 0 m).outcome <;> rw [ho] at hst <;> cases hst <;> rfl
  · exact absurd htimeout hends

end Routine

/-! ### Calls -/

/-- The machine in which a body runs that is called with arguments. -/
def Machine.calling (m : Machine) (body : Code.Body) (outer : Nat) (args : List Value) : Machine :=
  { m with
    depth := m.depth + 1
    records := m.records.push (.new body.slots (some outer) args) }

/-- A body that is counted gives what it gives. -/
theorem results_counted {α : Type} {limit : Option Nat} {m : Machine}
    (hlimit : limit.any (fun l => decide (l ≤ m.depth)) = false) (run : Run α) :
    Run.results (counted limit run) m = Run.results run { m with depth := m.depth + 1 } := by
  unfold Run.results counted
  simp only [onFreshStack_eq, ite_self, hlimit, Bool.false_eq_true, if_false]
  cases run { m with depth := m.depth + 1 } <;> rfl

/-- A call of a function gives what its body gives in a record of its own. -/
theorem callValue_closure {p : Setting} {m : Machine} {ref outer : Nat} {body : Code.Body}
    (hfunction : m.functions[ref]? = some (.closure body outer))
    (hlimit : p.limit.any (fun l => decide (l ≤ m.depth)) = false) (fuel : Nat) (name : Name)
    (args : List Value) :
    Run.results (callValue p (fuel + 1) (.func ref name) args) m =
      Run.results (do return (← runFrom ⟨p.types, callValue p fuel⟩ body m.records.size fuel
        .start).results) (m.calling body outer args) := by
  have hcall : callValue p (fuel + 1) (.func ref name) args m = counted p.limit (do
      let r ← Run.newRecord body.slots (some outer) args
      let c ← runFrom ⟨p.types, callValue p fuel⟩ body r fuel .start
      return c.results) m := by
    rw [callValue, Run.get_bind, hfunction]
  have hresults := results_counted hlimit (do
    let r ← Run.newRecord body.slots (some outer) args
    let c ← runFrom ⟨p.types, callValue p fuel⟩ body r fuel .start
    return c.results)
  rw [Run.results, ← hcall] at hresults
  exact hresults

end ScriptCore
