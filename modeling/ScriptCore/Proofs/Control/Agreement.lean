import ScriptCore.Proofs.Control.Simulation

/-!
# Compiled control flow is structured control flow

The code of a body, run from its first instruction on any machine, evaluates what its statements
evaluate, in the same order and on the same machines; it returns the same values or fails in the
same way, and goes on for ever exactly when they do.  Statements are those of the syntax, elaborated
by the same compiler in the same state, so that there is code for a body exactly when there are
statements.

Main statement: `compiled_agrees`.
-/

namespace ScriptCore

section
variable (x : Context) (r : Nat)

/-- The code of a body does on a machine what its statements do.  Both have fuel: for `runFrom` it
bounds the number of instructions, and for statements the number of rounds of every loop. -/
structure Routine.Agrees (p : Routine) (body : Code.Body) (m : Machine) : Prop where
  /-- The walk is the run of the body. -/
  walks : ∀ fuel, (do return (← runFrom x body r fuel .start).results : Run (List Value)) m =
    (walk x body r fuel 0 m).run
  /-- The statements return, fail or time out. -/
  ends : ∀ fuel, (∃ vs, (p.run x r fuel m).outcome = .returned vs) ∨
    (∃ f, (p.run x r fuel m).outcome = .failed f) ∨ (p.run x r fuel m).outcome = .timeout
  /-- They return the same values after the same evaluations. -/
  returns : ∀ vs m' log, (∃ fuel, p.run x r fuel m = ⟨.returned vs, m', log⟩) ↔
    ∃ fuel, walk x body r fuel 0 m = ⟨.returned vs, m', log⟩
  /-- They fail in the same way after the same evaluations. -/
  fails : ∀ f m' log, (∃ fuel, p.run x r fuel m = ⟨.failed f, m', log⟩) ↔
    ∃ fuel, walk x body r fuel 0 m = ⟨.failed f, m', log⟩
  /-- They go on for ever together. -/
  diverges : (∀ fuel, (p.run x r fuel m).outcome = .timeout) ↔
    ∀ fuel, ∃ q, (walk x body r fuel 0 m).status = .running q
  /-- What the statements evaluate is evaluated by the code. -/
  evaluates : ∀ fuel, ∃ n, (p.run x r fuel m).log <+: (walk x body r n 0 m).log
  /-- What the code evaluates is evaluated by the statements. -/
  evaluated : ∀ n, ∃ fuel, (walk x body r n 0 m).log <+: (p.run x r fuel m).log

end

variable {x : Context} {r : Nat}

/-! ### The end of a body -/

/-- The values of variables of the record. -/
theorem evalAll_loads (slots : List Nat) (m : Machine) :
    evalAll x r (slots.map fun s => .load 0 s) m = .ok (slots.map (m.record r).get) m := by
  induction slots with
  | nil => rfl
  | cons s slots ih =>
      have hload : eval x r (.load 0 s) m = .ok ((m.record r).get s) m := by
        rw [eval]
        rfl
      simp only [List.map_cons, evalAll, bind, EStateM.bind, hload, ih]
      rfl

/-- The values of constants. -/
theorem evalAll_consts (values : List Value) (m : Machine) :
    evalAll x r (values.map .const) m = .ok values m := by
  induction values with
  | nil => rfl
  | cons v values ih =>
      have hconst : eval x r (.const v) m = .ok v m := by
        rw [eval]
        rfl
      simp only [List.map_cons, evalAll, bind, EStateM.bind, hconst, ih]
      rfl

/-- The last instruction of a body returns what falling off its end returns. -/
theorem Ending.execute_instr (e : Ending) (m : Machine) :
    execute x r e.instr m = .ok (.stop (e.values r m)) m := by
  cases e with
  | named slots =>
      simp only [instr, execute, bind, EStateM.bind, evalAll_loads]
      rfl
  | zeros values =>
      simp only [instr, execute, bind, EStateM.bind, evalAll_consts]
      rfl

/-- The last instruction of a body is evaluated. -/
theorem Ending.evaluated_instr (e : Ending) (m : Machine) :
    e.instr.evaluated m = [(.act e.instr, m)] := by
  cases e <;> rfl

namespace Routine

variable {p : Routine}

/-- The statements of a body do not fall off its end. -/
theorem run_ne_normal (p : Routine) (fuel : Nat) (m : Machine) :
    (p.run x r fuel m).outcome ≠ .normal := by
  unfold run Result.andThen
  split
  · exact Outcome.noConfusion
  · assumption

/-- What a body is written as stands in it. -/
theorem write_within (p : Routine) (slots : Nat) :
    (p.write .empty).Within ((p.write .empty).body slots) :=
  ⟨fun _ _ h => h, fun _ _ h => h⟩

/-- A body that is written down is walked through as its statements are run. -/
theorem run_realizes (hentry : Code.Plain p.entry) (hwell : p.body.WellFormed false)
    {slots : Nat} (hsize : ((p.write .empty).body slots).instrs.size ≤ Labels.unbound)
    (fuel : Nat) (m : Machine) :
    Realizes x ((p.write .empty).body slots) r fuel none 0 (p.write .empty).code.size m
      (p.run x r fuel m) := by
  have hwritten : ((p.body.write (Assembly.empty.pushAll p.entry)).push p.ending.instr).Within
      ((p.write .empty).body slots) := p.write_within slots
  have hloops : (Assembly.empty.pushAll p.entry).loops = [] := Assembly.pushAll_loops _ _
  have htree := p.body.write_placed (by rwa [hloops]) hwritten.of_push
  rw [hloops] at htree
  have hbefore := hwritten.of_push.of_grows (p.body.write_grows (.refl _))
  have hfirst : Realizes x ((p.write .empty).body slots) r fuel none 0
      (Assembly.empty.code.size + p.entry.length) m (actAll x r p.entry m) :=
    actAll_realizes hsize hentry hbefore.holds
  rw [← Assembly.pushAll_size] at hfirst
  refine (hfirst.andThen fun m' => htree.realizes hsize m').andThen fun m' => ?_
  have hend := Ends.stop hwritten.push_at (p.ending.execute_instr (x := x) (r := r) m')
  rwa [Ending.evaluated_instr] at hend

end Routine

/-! ### The end of a run -/

/-- How a walk ends that does what a statement does, if the statement ends it. -/
def Outcome.status? : Outcome → Option Status
  | returned vs => some (.returned vs)
  | failed f => some (.failed f)
  | _ => none

/-- A walk that is ended does not go on. -/
theorem Outcome.status?_ne_running {o : Outcome} {st : Status} (h : o.status? = some st) (q : Nat) :
    st ≠ .running q := by
  rintro rfl
  cases o <;> cases h

/-- How a walk ends tells how the statement ends. -/
theorem Outcome.eq_of_status? {o o' : Outcome} {st : Status} (h : o.status? = some st)
    (h' : o'.status? = some st) : o = o' := by
  cases o <;> cases h <;> cases o' <;> cases h' <;> rfl

/-- Outside of loops, a walk that does not arrive behind a statement ends or goes on for long. -/
theorem Realizes.ends_or_goes {body : Code.Body} {fuel p q : Nat} {m : Machine} {a : Result}
    (h : Realizes x body r fuel none p q m a) (hnormal : a.outcome ≠ .normal) :
    (∃ st, a.outcome.status? = some st ∧ Ends x body r p m ⟨st, a.machine, a.log⟩) ∨
      a.outcome = .timeout ∧ ∃ n s, fuel ≤ n ∧ Goes x body r n p m s a.machine a.log := by
  obtain ⟨outcome, machine, log⟩ := a
  cases outcome with
  | normal => exact absurd rfl hnormal
  | left =>
      obtain ⟨l, n, hl, -⟩ := h
      cases hl
  | continued =>
      obtain ⟨l, n, hl, -⟩ := h
      cases hl
  | returned vs => exact .inl ⟨_, rfl, h⟩
  | failed f => exact .inl ⟨_, rfl, h⟩
  | timeout => exact .inr ⟨rfl, h⟩

/-- Every run of the statements of a body ends as a walk does, or times out while a walk goes on
for as long. -/
def Routine.Followed (x : Context) (r : Nat) (p : Routine) (body : Code.Body) (m : Machine) :
    Prop :=
  ∀ fuel, (∃ st, (p.run x r fuel m).outcome.status? = some st ∧
      Ends x body r 0 m ⟨st, (p.run x r fuel m).machine, (p.run x r fuel m).log⟩) ∨
    (p.run x r fuel m).outcome = .timeout ∧ ∃ n s, fuel ≤ n ∧
      Goes x body r n 0 m s (p.run x r fuel m).machine (p.run x r fuel m).log

namespace Routine.Followed

variable {p : Routine} {body : Code.Body} {m : Machine}

/-- A run ends in one way as long as a walk does. -/
theorem ends_iff (h : p.Followed x r body m) {o : Outcome} {st : Status}
    (hst : o.status? = some st) (m' : Machine) (log : Log) :
    (∃ fuel, p.run x r fuel m = ⟨o, m', log⟩) ↔
      ∃ fuel, walk x body r fuel 0 m = ⟨st, m', log⟩ := by
  constructor
  · rintro ⟨fuel, hrun⟩
    rcases h fuel with ⟨st', hst', n, hn⟩ | ⟨htimeout, -⟩
    · rw [hrun] at hst' hn
      obtain rfl : st = st' := Option.some.inj (hst.symm.trans hst')
      exact ⟨n + 0, hn 0⟩
    · rw [hrun] at htimeout
      subst htimeout
      cases hst
  · rintro ⟨n, hwalk⟩
    have hend (q : Nat) : (walk x body r n 0 m).status ≠ .running q := by
      rw [hwalk]
      exact Outcome.status?_ne_running hst q
    refine ⟨n, ?_⟩
    rcases h n with ⟨st', hst', hends⟩ | ⟨-, k, s, hle, hgoes⟩
    · have heq := hends.eq_walk hend
      rw [hwalk, Walk.mk.injEq] at heq
      obtain ⟨rfl, rfl, rfl⟩ := heq
      rw [Outcome.eq_of_status? hst hst']
    · obtain ⟨q, hq⟩ := hgoes.running hle
      exact absurd hq (hend q)

/-- A run times out for ever as long as a walk goes on for ever. -/
theorem diverges_iff (h : p.Followed x r body m) :
    (∀ fuel, (p.run x r fuel m).outcome = .timeout) ↔
      ∀ fuel, ∃ q, (walk x body r fuel 0 m).status = .running q := by
  constructor
  · intro htimeout fuel
    rcases h fuel with ⟨st, hst, -⟩ | ⟨-, n, s, hle, hgoes⟩
    · rw [htimeout] at hst
      cases hst
    · exact hgoes.running hle
  · intro hrunning fuel
    rcases h fuel with ⟨st, hst, n, hn⟩ | ⟨htimeout, -⟩
    · obtain ⟨q, hq⟩ := hrunning (n + 0)
      rw [hn] at hq
      exact absurd hq (Outcome.status?_ne_running hst q)
    · exact htimeout

/-- What a run has evaluated is what a walk has. -/
theorem log_eq (h : p.Followed x r body m) (fuel : Nat) :
    ∃ n, fuel ≤ n ∧ (walk x body r n 0 m).log = (p.run x r fuel m).log := by
  rcases h fuel with ⟨st, -, n, hn⟩ | ⟨-, n, s, hle, hgoes⟩
  · exact ⟨n + fuel, Nat.le_add_left fuel n, by rw [hn]⟩
  · exact ⟨n, hle, by rw [hgoes.walk_eq]⟩

/-- A run returns, fails or times out. -/
theorem outcome (h : p.Followed x r body m) (fuel : Nat) :
    (∃ vs, (p.run x r fuel m).outcome = .returned vs) ∨
      (∃ f, (p.run x r fuel m).outcome = .failed f) ∨ (p.run x r fuel m).outcome = .timeout := by
  rcases h fuel with ⟨st, hst, -⟩ | ⟨htimeout, -⟩
  · cases ho : (p.run x r fuel m).outcome with
    | returned vs => exact .inl ⟨vs, rfl⟩
    | failed f => exact .inr (.inl ⟨f, rfl⟩)
    | _ =>
        rw [ho] at hst
        cases hst
  · exact .inr (.inr htimeout)

/-- The walk and the statements agree. -/
theorem agrees (h : p.Followed x r body m) : p.Agrees x r body m where
  walks fuel := runFrom_eq_walk fuel rfl m
  ends := h.outcome
  returns _ := h.ends_iff rfl
  fails _ := h.ends_iff rfl
  diverges := h.diverges_iff
  evaluates fuel := by
    obtain ⟨n, -, hn⟩ := h.log_eq fuel
    exact ⟨n, hn ▸ List.prefix_rfl⟩
  evaluated n := by
    obtain ⟨k, hle, hk⟩ := h.log_eq n
    obtain ⟨j, rfl⟩ := Nat.exists_eq_add_of_le hle
    exact ⟨n, hk ▸ walk_log_prefix n j 0 m⟩

end Routine.Followed

/-! ### Compilation -/

/-- The state in which a step in a frame of its own begins. -/
def Compiler.entered (c : Compiler) (nested : Bool) : Compiler :=
  { c with frame := .empty, enclosing := if nested then c.frame :: c.enclosing else [] }

namespace Compile

variable {α : Type} {nested : Bool} {c c' : Compiler}

/-- A step in a frame of its own gives what it gives from the state that has the frame. -/
theorem inFrame_eq (nested : Bool) (step : Compile α) (c : Compiler) :
    inFrame nested step c = (step (c.entered nested)).map fun r =>
      (r.1, { r.2 with frame := c.frame, enclosing := c.enclosing }) := by
  change (step (c.entered nested)).bind (fun r => .ok
    (r.1, { r.2 with frame := c.frame, enclosing := c.enclosing })) = _
  cases step (c.entered nested) <;> rfl

/-- The code of a body is its statements written down. -/
theorem routine_of_body {recv : Option (Option Name × Ty)} {h : Heading} {content : Block}
    {body : Code.Body}
    (hcompile : inFrame nested (assembled (bodyOf recv h (block content))) c = .ok (body, c')) :
    ∃ p c₁, routine recv h content (c.entered nested) = .ok (p, c₁) ∧
      body = (p.write .empty).body c₁.frame.slots ∧
      c' = { c₁ with frame := c.frame, enclosing := c.enclosing } := by
  rw [assembled_bodyOf, inFrame_eq] at hcompile
  have hsplit : ((do
      let p ← routine recv h content
      return (p.write .empty).body (← get).frame.slots) : Compile Code.Body) (c.entered nested) =
      (routine recv h content (c.entered nested)).map fun r =>
        ((r.1.write .empty).body r.2.frame.slots, r.2) := by
    change (routine recv h content (c.entered nested)).bind _ = _
    cases routine recv h content (c.entered nested) <;> rfl
  rw [hsplit] at hcompile
  cases hroutine : routine recv h content (c.entered nested) with
  | error e =>
      rw [hroutine] at hcompile
      cases hcompile
  | ok r =>
      rw [hroutine] at hcompile
      cases hcompile
      exact ⟨r.1, r.2, rfl, rfl, rfl⟩

/-- **The code of a body does what its statements do**, for every body that compiles, from every
state of the compiler, in every setting and on every machine.  No body has more instructions than
there are positions. -/
theorem compiled_agrees {recv : Option (Option Name × Ty)} {h : Heading} {content : Block}
    {body : Code.Body}
    (hcompile : inFrame nested (assembled (bodyOf recv h (block content))) c = .ok (body, c'))
    (hsize : body.instrs.size ≤ Labels.unbound) :
    ∃ p, inFrame nested (routine recv h content) c = .ok (p, c') ∧
      ∀ x r m, p.Agrees x r body m := by
  obtain ⟨p, c₁, hroutine, rfl, rfl⟩ := routine_of_body hcompile
  obtain ⟨hentry, htree⟩ := routine_wellFormed recv h content (c.entered nested) _ hroutine
  refine ⟨p, ?_, fun x i m => Routine.Followed.agrees fun fuel =>
    (Routine.run_realizes hentry htree hsize fuel m).ends_or_goes (p.run_ne_normal fuel m)⟩
  rw [inFrame_eq, hroutine]
  rfl

/-- A body that leaves a loop in the first round: `for { if true { break } }`. -/
def breakingLoop : Block :=
  .mk [.node default (.loop none none none (.mk [.node default (.cond (.node default (.bool true))
    (.mk [.node default .break] default) none)] default))] default

/-- The code of `breakingLoop`.  The labels are those of the top of the loop, of its exit, of its
next round and of what follows the conditional statement. -/
def breakingCode : Code.Body :=
  .mk #[.branch (.const (.bool true)) 3, .jump 1, .jump 0, .ret []]
    [some 0, some 3, some 2, some 2] 0

/-- The code of a loop that is left does what its statements do. -/
theorem breakingCode_agrees :
    inFrame false (assembled (bodyOf none ⟨[], [], false⟩ (block breakingLoop)))
        (.start default ⟨[], [], 0⟩ false) =
      .ok (breakingCode, .start default ⟨[], [], 0⟩ false) ∧
    breakingCode.instrs.size ≤ Labels.unbound ∧
    ∃ p, inFrame false (routine none ⟨[], [], false⟩ breakingLoop)
        (.start default ⟨[], [], 0⟩ false) = .ok (p, .start default ⟨[], [], 0⟩ false) ∧
      ∀ x r m, p.Agrees x r breakingCode m := by
  have hcompile : inFrame false (assembled (bodyOf none ⟨[], [], false⟩ (block breakingLoop)))
      (.start default ⟨[], [], 0⟩ false) =
        .ok (breakingCode, .start default ⟨[], [], 0⟩ false) := rfl
  have hsize : breakingCode.instrs.size ≤ Labels.unbound := by decide
  exact ⟨hcompile, hsize, compiled_agrees hcompile hsize⟩

end Compile

end ScriptCore
