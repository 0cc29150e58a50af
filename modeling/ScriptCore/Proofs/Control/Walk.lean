import ScriptCore.Proofs.Control.Placed

/-!
# Walks through a body

The run of a body, instruction by instruction, with a log of what is evaluated.  Jumps evaluate
nothing, and a branch evaluates its condition.  A walk that has ended stays ended, whatever fuel is
left, and walks can be put together: `Goes` says that one position is reached from another.

Main statements: `runFrom_eq_walk` (a walk is the run of the body), `walk_add` and `Goes.trans`.
-/

namespace ScriptCore

/-- How far a walk has come: to a position, or to its end. -/
inductive Status where
  | running (position : Nat)
  | returned (values : List Value)
  | failed (f : Failure)

/-- A walk: how far it has come, on which machine, and what has been evaluated. -/
structure Walk where
  status : Status
  machine : Machine
  log : Log

namespace Walk

/-- The same walk with some evaluations before it. -/
def after (log : Log) (w : Walk) : Walk :=
  { w with log := log ++ w.log }

/-- A walk that goes on from where it has come to, unless it has ended. -/
def andThen (w : Walk) (f : Nat → Machine → Walk) : Walk :=
  match w.status with
  | .running p => (f p w.machine).after w.log
  | _ => w

/-- What the walk gives as a run of the body; one that goes on has run out of fuel. -/
def run (w : Walk) : EStateM.Result Failure Machine (List Value) :=
  match w.status with
  | .running _ => .error .outOfFuel w.machine
  | .returned vs => .ok vs w.machine
  | .failed f => .error f w.machine

/-- Nothing before a walk. -/
@[simp] theorem after_nil (w : Walk) : w.after [] = w := rfl

/-- Evaluations before others. -/
@[simp] theorem after_after (a b : Log) (w : Walk) : (w.after b).after a = w.after (a ++ b) := by
  simp [after]

/-- Evaluations before a walk do not count for what it gives. -/
@[simp] theorem after_run (log : Log) (w : Walk) : (w.after log).run = w.run := rfl

/-- Evaluations before a walk that goes on. -/
theorem after_andThen (log : Log) (w : Walk) (f : Nat → Machine → Walk) :
    (w.after log).andThen f = (w.andThen f).after log := by
  obtain ⟨status, machine, rest⟩ := w
  cases status with
  | running p => exact (after_after log rest _).symm
  | _ => rfl

end Walk

/-- What an instruction evaluates on a machine. -/
def Code.Instr.evaluated (m : Machine) : Code.Instr → Log
  | .jump _ => []
  | .branch e _ => [(.test e, m)]
  | i => [(.act i, m)]

section
variable (x : Context) (body : Code.Body) (r : Nat)

/-- Walk through a body from a position on, for at most `fuel` instructions. -/
def walk : Nat → Nat → Machine → Walk
  | 0, p, m => ⟨.running p, m, []⟩
  | fuel + 1, p, m =>
    match body.instrs[p]? with
    | none => ⟨.returned [], m, []⟩
    | some i =>
      match execute x r i m with
      | .ok .advance m' => (walk fuel (min (p + 1) Labels.unbound) m').after (i.evaluated m)
      | .ok (.jump label) m' => (walk fuel (body.labels.target label) m').after (i.evaluated m)
      | .ok (.stop vs) m' => ⟨.returned vs, m', i.evaluated m⟩
      | .error f m' => ⟨.failed f, m', i.evaluated m⟩

/-- A position is reached from another in `n` instructions. -/
def Goes (n p : Nat) (m : Machine) (q : Nat) (m' : Machine) (log : Log) : Prop :=
  ∀ fuel, walk x body r (n + fuel) p m = (walk x body r fuel q m').after log

/-- A walk ends. -/
def Ends (p : Nat) (m : Machine) (w : Walk) : Prop :=
  ∃ n, ∀ fuel, walk x body r (n + fuel) p m = w

end

variable {x : Context} {body : Code.Body} {r : Nat}

/-- **A walk is the run of the body** with the same fuel, except that it keeps a log. -/
theorem runFrom_eq_walk (fuel : Nat) {c : Cursor} (hresults : c.results = []) (m : Machine) :
    (do return (← runFrom x body r fuel c).results : Run (List Value)) m =
      (walk x body r fuel c.position m).run := by
  induction fuel generalizing c m with
  | zero => rfl
  | succ fuel ih =>
      simp only [bind, EStateM.bind, pure, EStateM.pure] at ih ⊢
      rw [runFrom, walk]
      cases hi : body.instrs[c.position]? with
      | none =>
          simp only [pure, EStateM.pure]
          rw [hresults]
          rfl
      | some i =>
          simp only [bind, EStateM.bind, pure]
          cases hrun : execute x r i m with
          | error f m' => rfl
          | ok next m' =>
              cases next with
              | advance => exact ih (c := c.advance) hresults m'
              | jump label => exact ih (c := c.moveTo (body.labels.target label)) hresults m'
              | stop vs => rfl

/-- **A walk goes on from where it has come to**, and one that has ended stays as it is. -/
theorem walk_add (n k p : Nat) (m : Machine) :
    walk x body r (n + k) p m = (walk x body r n p m).andThen (walk x body r k) := by
  induction n generalizing p m with
  | zero => rw [Nat.zero_add]; rfl
  | succ n ih =>
      rw [Nat.add_right_comm, walk, walk]
      cases body.instrs[p]? with
      | none => rfl
      | some i =>
          dsimp only
          cases execute x r i m with
          | error f m' => rfl
          | ok next m' =>
              cases next with
              | advance => rw [Walk.after_andThen, ← ih]
              | jump label => rw [Walk.after_andThen, ← ih]
              | stop vs => rfl

/-- What has been evaluated stays evaluated. -/
theorem walk_log_prefix (n k p : Nat) (m : Machine) :
    (walk x body r n p m).log <+: (walk x body r (n + k) p m).log := by
  rw [walk_add]
  unfold Walk.andThen
  split
  · exact List.prefix_append _ _
  · exact List.prefix_rfl

namespace Goes

variable {n p q s : Nat} {m m' m'' : Machine} {log log' : Log}

/-- No instruction. -/
protected theorem refl (p : Nat) (m : Machine) : Goes x body r 0 p m p m [] := by
  intro fuel
  rw [Nat.zero_add, Walk.after_nil]

/-- One way after another. -/
protected theorem trans {k : Nat} (h : Goes x body r n p m q m' log)
    (h' : Goes x body r k q m' s m'' log') : Goes x body r (n + k) p m s m'' (log ++ log') := by
  intro fuel
  rw [Nat.add_assoc, h, h', Walk.after_after]

/-- One instruction that goes on at the next position. -/
theorem advance {i : Code.Instr} (hi : body.instrs[p]? = some i)
    (hsize : body.instrs.size ≤ Labels.unbound) (hrun : execute x r i m = .ok .advance m') :
    Goes x body r 1 p m (p + 1) m' (i.evaluated m) := by
  intro fuel
  have hlt := (Array.getElem?_eq_some_iff.1 hi).1
  have hmin : min (p + 1) Labels.unbound = p + 1 := by omega
  rw [Nat.add_comm, walk, hi]
  simp only [hrun, hmin]

/-- One instruction that goes on at a label. -/
theorem jumps {i : Code.Instr} {label : Nat} (hi : body.instrs[p]? = some i)
    (hrun : execute x r i m = .ok (.jump label) m') :
    Goes x body r 1 p m (body.labels.target label) m' (i.evaluated m) := by
  intro fuel
  rw [Nat.add_comm, walk, hi]
  simp only [hrun]

/-- An unconditional jump. -/
theorem jump {label : Nat} (hi : body.instrs[p]? = some (.jump label)) (m : Machine) :
    Goes x body r 1 p m (body.labels.target label) m [] :=
  jumps hi rfl

/-- What is reached is where the walk is. -/
theorem walk_eq (h : Goes x body r n p m q m' log) :
    walk x body r n p m = ⟨.running q, m', log⟩ := by
  have h₀ := h 0
  simpa [walk, Walk.after] using h₀

/-- On the way to a position a walk goes on. -/
theorem running (h : Goes x body r n p m q m' log) {k : Nat} (hk : k ≤ n) :
    ∃ s, (walk x body r k p m).status = .running s := by
  obtain ⟨j, rfl⟩ := Nat.exists_eq_add_of_le hk
  have heq := h.walk_eq
  rw [walk_add] at heq
  unfold Walk.andThen at heq
  split at heq
  · rename_i s hs
    exact ⟨s, hs⟩
  · exact ⟨q, by rw [heq]⟩

end Goes

namespace Ends

variable {n p q : Nat} {m m' : Machine} {log : Log} {w : Walk}

/-- A walk that reaches the start of one that ends. -/
theorem after (h : Goes x body r n p m q m' log) (h' : Ends x body r q m' w) :
    Ends x body r p m (w.after log) := by
  obtain ⟨k, hk⟩ := h'
  refine ⟨n + k, fun fuel => ?_⟩
  rw [Nat.add_assoc, h, hk]

/-- A walk ends in one way. -/
theorem eq_walk (h : Ends x body r p m w) {n : Nat}
    (hend : ∀ q, (walk x body r n p m).status ≠ .running q) : walk x body r n p m = w := by
  obtain ⟨k, hk⟩ := h
  have hn := hk n
  rw [Nat.add_comm, walk_add] at hn
  rw [← hn]
  unfold Walk.andThen
  split
  · rename_i q hq
    exact absurd hq (hend q)
  · rfl

/-- An instruction that returns. -/
theorem stop {i : Code.Instr} {vs : List Value} (hi : body.instrs[p]? = some i)
    (hrun : execute x r i m = .ok (.stop vs) m') :
    Ends x body r p m ⟨.returned vs, m', i.evaluated m⟩ := by
  refine ⟨1, fun fuel => ?_⟩
  rw [Nat.add_comm, walk, hi]
  simp only [hrun]

/-- An instruction that fails. -/
theorem fail {i : Code.Instr} {f : Failure} (hi : body.instrs[p]? = some i)
    (hrun : execute x r i m = .error f m') :
    Ends x body r p m ⟨.failed f, m', i.evaluated m⟩ := by
  refine ⟨1, fun fuel => ?_⟩
  rw [Nat.add_comm, walk, hi]
  simp only [hrun]

end Ends

end ScriptCore
