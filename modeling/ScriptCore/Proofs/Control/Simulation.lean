import ScriptCore.Proofs.Control.Walk
import ScriptCore.Proofs.Control.WellFormed

/-!
# The code of a body does what its syntax says

A statement that stands in a body is walked through just as it is run by its structure: a normal end
arrives behind it, `break` and `continue` arrive where the labels of the innermost loop are, returns
and failures end the walk, and a run that times out after some number of rounds is a walk of at
least as many instructions (`Realizes`).  The last point carries over divergence.

Main statement: `Tree.Placed.realizes`.
-/

namespace ScriptCore

/-- A walk from `p` does what a statement does that stands between `p` and `q` and runs to the
result `a`.  A run that times out goes on for at least `fuel` instructions. -/
def Realizes (x : Context) (body : Code.Body) (r fuel : Nat) (loop : Option LoopLabels) (p q : Nat)
    (m : Machine) (a : Result) : Prop :=
  match a.outcome with
  | .normal => ∃ n, Goes x body r n p m q a.machine a.log
  | .left => ∃ l n, loop = some l ∧
      Goes x body r n p m (body.labels.target l.exit) a.machine a.log
  | .continued => ∃ l n, loop = some l ∧
      Goes x body r n p m (body.labels.target l.next) a.machine a.log
  | .returned vs => Ends x body r p m ⟨.returned vs, a.machine, a.log⟩
  | .failed f => Ends x body r p m ⟨.failed f, a.machine, a.log⟩
  | .timeout => ∃ n s, fuel ≤ n ∧ Goes x body r n p m s a.machine a.log

variable {x : Context} {body : Code.Body} {r fuel : Nat} {loop : Option LoopLabels}
  {p q s : Nat} {m : Machine} {a : Result}

namespace Realizes

/-- A walk that reaches the start of another. -/
theorem after {n : Nat} {m' : Machine} {log : Log} (h : Goes x body r n p m s m' log)
    (h' : Realizes x body r fuel loop s q m' a) :
    Realizes x body r (n + fuel) loop p q m (a.after log) := by
  obtain ⟨outcome, machine, rest⟩ := a
  cases outcome with
  | normal =>
      obtain ⟨k, hk⟩ := h'
      exact ⟨n + k, h.trans hk⟩
  | left =>
      obtain ⟨l, k, hl, hk⟩ := h'
      exact ⟨l, n + k, hl, h.trans hk⟩
  | continued =>
      obtain ⟨l, k, hl, hk⟩ := h'
      exact ⟨l, n + k, hl, h.trans hk⟩
  | returned vs => exact Ends.after h h'
  | failed f => exact Ends.after h h'
  | timeout =>
      obtain ⟨k, t, hle, hk⟩ := h'
      exact ⟨n + k, t, Nat.add_le_add_left hle n, h.trans hk⟩

/-- Less fuel asks for less. -/
theorem mono {fuel' : Nat} (hle : fuel ≤ fuel') (h : Realizes x body r fuel' loop p q m a) :
    Realizes x body r fuel loop p q m a := by
  obtain ⟨outcome, machine, log⟩ := a
  cases outcome with
  | timeout =>
      obtain ⟨k, t, hk, hgoes⟩ := h
      exact ⟨k, t, Nat.le_trans hle hk, hgoes⟩
  | _ => exact h

/-- Nothing is done. -/
theorem normal (p : Nat) (m : Machine) :
    Realizes x body r fuel loop p p m ⟨.normal, m, []⟩ :=
  ⟨0, .refl p m⟩

/-- One statement after another. -/
theorem andThen {f : Machine → Result} (h : Realizes x body r fuel loop p s m a)
    (hf : ∀ m', Realizes x body r fuel loop s q m' (f m')) :
    Realizes x body r fuel loop p q m (a.andThen f) := by
  obtain ⟨outcome, machine, log⟩ := a
  cases outcome with
  | normal =>
      obtain ⟨n, hn⟩ := h
      exact (after hn (hf machine)).mono (Nat.le_add_left fuel n)
  | _ => exact h

end Realizes

/-! ### Instructions -/

/-- What a step gives comes from its parts. -/
theorem run_bind_ok {α β : Type} {a : Run α} {f : α → Run β} {b : β} {m m' : Machine}
    (h : (a >>= f) m = .ok b m') : ∃ v m₁, a m = .ok v m₁ ∧ f v m₁ = .ok b m' := by
  simp only [bind, EStateM.bind] at h
  cases ha : a m with
  | error e m₁ => simp [ha] at h
  | ok v m₁ =>
      rw [ha] at h
      exact ⟨v, m₁, rfl, h⟩

/-- Plain instructions do not jump. -/
theorem execute_plain {i : Code.Instr} (hplain : i.isPlain = true) {label : Nat} {m' : Machine} :
    execute x r i m ≠ .ok (.jump label) m' := by
  intro h
  cases i with
  | jump l => cases hplain
  | branch e l => cases hplain
  | eval e =>
      obtain ⟨_, _, -, h⟩ := run_bind_ok h
      cases h
  | run call =>
      obtain ⟨_, _, -, h⟩ := run_bind_ok h
      cases h
  | store container key value =>
      obtain ⟨_, _, -, h⟩ := run_bind_ok h
      obtain ⟨_, _, -, h⟩ := run_bind_ok h
      obtain ⟨_, _, -, h⟩ := run_bind_ok h
      obtain ⟨_, _, -, h⟩ := run_bind_ok h
      cases h
  | update container key op kind value zero =>
      obtain ⟨_, _, -, h⟩ := run_bind_ok h
      obtain ⟨_, _, -, h⟩ := run_bind_ok h
      obtain ⟨_, _, -, h⟩ := run_bind_ok h
      obtain ⟨_, _, -, h⟩ := run_bind_ok h
      obtain ⟨_, _, -, h⟩ := run_bind_ok h
      obtain ⟨_, _, -, h⟩ := run_bind_ok h
      cases h
  | setSlots stores =>
      obtain ⟨_, _, -, h⟩ := run_bind_ok h
      obtain ⟨_, _, -, h⟩ := run_bind_ok h
      cases h
  | spread call depth slots =>
      obtain ⟨_, _, -, h⟩ := run_bind_ok h
      obtain ⟨_, _, -, h⟩ := run_bind_ok h
      obtain ⟨_, _, -, h⟩ := run_bind_ok h
      cases h
  | ret values =>
      obtain ⟨_, _, -, h⟩ := run_bind_ok h
      cases h
  | retCall call =>
      obtain ⟨_, _, -, h⟩ := run_bind_ok h
      cases h

/-- Plain instructions are evaluated. -/
theorem evaluated_plain {i : Code.Instr} (hplain : i.isPlain = true) (m : Machine) :
    i.evaluated m = [(.act i, m)] := by
  cases i <;> first | rfl | cases hplain

/-- Simple statements are walked through one by one. -/
theorem actAll_realizes (hsize : body.instrs.size ≤ Labels.unbound) {is : List Code.Instr}
    (hplain : ∀ i ∈ is, i.isPlain = true) (hholds : body.Holds p is) :
    Realizes x body r fuel loop p (p + is.length) m (actAll x r is m) := by
  induction is generalizing p m with
  | nil => exact .normal p m
  | cons i is ih =>
      have hi : body.instrs[p]? = some i := hholds 0 i rfl
      have hiplain := hplain i (by simp)
      have hrest : body.Holds (p + 1) is := by
        intro j i' hi'
        rw [Nat.add_right_comm, Nat.add_assoc]
        exact hholds (j + 1) i' hi'
      have hih := fun m => ih (p := p + 1) (m := m) (fun j hj => hplain j (by simp [hj])) hrest
      rw [List.length_cons, Nat.add_comm is.length, ← Nat.add_assoc]
      unfold actAll
      cases hrun : execute x r i m with
      | error f m' =>
          have hend := Ends.fail hi hrun
          rwa [evaluated_plain hiplain] at hend
      | ok next m' =>
          cases next with
          | advance =>
              have hgoes := Goes.advance hi hsize hrun
              rw [evaluated_plain hiplain] at hgoes
              exact (Realizes.after hgoes (hih m')).mono (Nat.le_add_left fuel 1)
          | jump label => exact absurd hrun (execute_plain hiplain)
          | stop vs =>
              have hend := Ends.stop hi hrun
              rwa [evaluated_plain hiplain] at hend

/-- A condition is walked through by its branch. -/
theorem decideOn_realizes (hsize : body.instrs.size ≤ Labels.unbound) {e : Code.Expr} {label : Nat}
    (hbranch : body.instrs[p]? = some (.branch e label)) {yes no : Machine → Result}
    (hyes : ∀ m', Realizes x body r fuel loop (p + 1) q m' (yes m'))
    (hno : ∀ m', Realizes x body r fuel loop (body.labels.target label) q m' (no m')) :
    Realizes x body r fuel loop p q m (decideOn x r e yes no m) := by
  unfold decideOn
  cases heval : eval x r e m with
  | error f m' =>
      have hrun : execute x r (.branch e label) m = .error f m' := by
        simp only [execute, bind, EStateM.bind, heval]
      exact Ends.fail hbranch hrun
  | ok v m' =>
      by_cases htrue : v.isTrue = true
      · have hrun : execute x r (.branch e label) m = .ok .advance m' := by
          simp only [execute, bind, EStateM.bind, heval, htrue, if_true]
          rfl
        have hgoes := Goes.advance hbranch hsize hrun
        simp only [htrue, if_true]
        exact (Realizes.after hgoes (hyes m')).mono (Nat.le_add_left fuel 1)
      · have hrun : execute x r (.branch e label) m = .ok (.jump label) m' := by
          simp only [execute, bind, EStateM.bind, heval, htrue]
          rfl
        have hgoes := Goes.jumps hbranch hrun
        simp only [htrue]
        exact (Realizes.after hgoes (hno m')).mono (Nat.le_add_left fuel 1)

/-! ### Loops and conditionals -/

namespace Realizes

/-- A normal end that a jump goes on from. -/
theorem jumping {label : Nat} (h : Realizes x body r fuel loop p s m a)
    (hjump : body.instrs[s]? = some (.jump label)) :
    Realizes x body r fuel loop p (body.labels.target label) m a := by
  obtain ⟨outcome, machine, log⟩ := a
  cases outcome with
  | normal =>
      obtain ⟨n, hn⟩ := h
      have hgoes := hn.trans (.jump hjump machine)
      rw [List.append_nil] at hgoes
      exact ⟨n + 1, hgoes⟩
  | _ => exact h

/-- Only `break` and `continue` ask for the labels of the loop, and only a normal end for where it
arrives. -/
theorem elsewhere {other : Option LoopLabels} (h : Realizes x body r fuel loop p q m a)
    (hnormal : a.outcome ≠ .normal) (hleft : a.outcome ≠ .left)
    (hcontinued : a.outcome ≠ .continued) : Realizes x body r fuel other p s m a := by
  obtain ⟨outcome, machine, log⟩ := a
  cases outcome with
  | normal => exact absurd rfl hnormal
  | left => exact absurd rfl hleft
  | continued => exact absurd rfl hcontinued
  | _ => exact h

end Realizes

/-- The condition of a loop is walked through by its branch, if there is one. -/
theorem decideOn?_realizes (hsize : body.instrs.size ≤ Labels.unbound) {test : Option Code.Expr}
    {b label : Nat}
    (htest : match test with
      | none => b = p
      | some e => body.instrs[p]? = some (.branch e label) ∧ b = p + 1)
    {yes no : Machine → Result} (hyes : ∀ m', Realizes x body r fuel loop b q m' (yes m'))
    (hno : ∀ m', Realizes x body r fuel loop (body.labels.target label) q m' (no m')) :
    Realizes x body r fuel loop p q m (decideOn? x r test yes no m) := by
  cases test with
  | none =>
      subst htest
      exact hyes m
  | some e =>
      obtain ⟨hbranch, rfl⟩ := htest
      exact decideOn_realizes hsize hbranch hyes hno

/-- **The rounds of a loop** are walked through from the label at its top to the label at its exit.
Every round but the last one takes a jump back to the top, so that as many rounds are at least as
many instructions. -/
theorem rounds_realizes (hsize : body.instrs.size ≤ Labels.unbound) {test : Option Code.Expr}
    {top exit again b c d : Nat} {bodyRun postRun : Machine → Result}
    (htest : match test with
      | none => b = body.labels.target top
      | some e => body.instrs[body.labels.target top]? = some (.branch e exit) ∧
          b = body.labels.target top + 1)
    (hbody : ∀ m, Realizes x body r fuel (some ⟨exit, again⟩) b c m (bodyRun m))
    (hagain : body.labels.target again = c)
    (hpost : ∀ m, Realizes x body r fuel loop c d m (postRun m))
    (hjump : body.instrs[d]? = some (.jump top)) (n : Nat) (hn : n ≤ fuel) (m : Machine) :
    Realizes x body r n loop (body.labels.target top) (body.labels.target exit) m
      (rounds x r test bodyRun postRun n m) := by
  induction n generalizing m with
  | zero => exact ⟨0, _, Nat.le_refl 0, .refl _ m⟩
  | succ n ih =>
      have hback (m : Machine) : Realizes x body r (n + 1) loop c (body.labels.target exit) m
          ((postRun m).andThen (rounds x r test bodyRun postRun n)) := by
        refine ((hpost m).mono hn).andThen fun m' => ?_
        have hround := Realizes.after (Goes.jump hjump m') (ih (Nat.le_of_succ_le hn) m')
        rwa [Nat.add_comm] at hround
      rw [rounds]
      refine decideOn?_realizes hsize htest (fun m' => ?_) fun m' => .normal _ m'
      have hb := hbody m'
      dsimp only
      split
      · rename_i houtcome
        simp only [Realizes, houtcome] at hb
        obtain ⟨k, hk⟩ := hb
        exact (Realizes.after hk (hback _)).mono (Nat.le_add_left _ k)
      · rename_i houtcome
        simp only [Realizes, houtcome] at hb
        obtain ⟨l, k, hl, hk⟩ := hb
        cases hl
        rw [hagain] at hk
        exact (Realizes.after hk (hback _)).mono (Nat.le_add_left _ k)
      · rename_i houtcome
        simp only [Realizes, houtcome] at hb
        obtain ⟨l, k, hl, hk⟩ := hb
        cases hl
        exact ⟨k, hk⟩
      · rename_i hnormal hcontinued hleft
        exact (hb.mono hn).elsewhere hnormal hleft hcontinued

/-- **A statement that stands in a body is walked through as it is run**, whatever the machine, and
by at least as many instructions as a run that times out was given rounds. -/
theorem Tree.Placed.realizes (hsize : body.instrs.size ≤ Labels.unbound) {t : Tree}
    (h : t.Placed body loop p q) (m : Machine) :
    Realizes x body r fuel loop p q m (t.exec x r fuel m) := by
  induction h generalizing m with
  | act plain holds => exact actAll_realizes hsize plain holds
  | seq _ _ ihFirst ihRest => exact (ihFirst m).andThen ihRest
  | ifThen branch _ skip_at ih =>
      refine decideOn_realizes hsize branch ih fun m' => ?_
      rw [skip_at]
      exact .normal _ m'
  | ifElse branch _ jump skip_at _ done_at ihBody ihOther =>
      refine decideOn_realizes hsize branch (fun m' => ?_) fun m' => ?_
      · rw [← done_at]
        exact (ihBody m').jumping jump
      · rw [skip_at]
        exact ihOther m'
  | loop _ top_at test_placed _ again_at _ jump exit_at ihInit ihBody ihPost =>
      refine (ihInit m).andThen fun m' => ?_
      subst top_at
      rw [← exit_at]
      exact rounds_realizes hsize test_placed ihBody again_at ihPost jump fuel (Nat.le_refl fuel) m'
  | leave jump => exact ⟨_, 1, rfl, .jump jump m⟩
  | next jump => exact ⟨_, 1, rfl, .jump jump m⟩

end ScriptCore
