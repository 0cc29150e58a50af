import ScriptCore.Proofs.Runs.Counting
import ScriptCore.Proofs.Runs.Programs

/-!
# The limit on nested calls

The machine counts the bodies of functions that run.  A call raises the count, and whatever way the
body ends the count goes down again: at a return, after an error that comes from many calls further
in, and when a host function fails that was called or that called back.

To say that the count is right there has to be something else to compare it with.  An audited run is
told which bodies are active, as a list that a call hands on to the body it runs.  It looks at the
count before and after every instruction, every call and every action on the program, and ends with
a refusal of its own if the count is not the number of active bodies.  Whether a body may run it
tells from the list and not from the count: the call is refused exactly if as many bodies are active
as the limit allows.

If an audited run does what the run does, whatever the refusal is, then the count was right all
along, and calls are refused exactly at the limit.

The code that initializes the package variables is no body of a function and is not counted.

Main statements: `Audit.callValue_alike` and `Program.depth_exact`.
-/

namespace ScriptCore

open Code

/-! ### Audited runs -/

namespace Audit

variable {α : Type} (refusal : Failure)

/-- Run something while `n` bodies should be counted, and refuse if another number is counted before
it or after it, whatever way it ends. -/
def hold (n : Nat) (run : Run α) : Run α := fun m =>
  if m.depth ≠ n then .error refusal m
  else if (Run.after run m).depth ≠ n then .error refusal (Run.after run m)
  else run m

/-- Run a body in the record `r` from a cursor on, for at most `fuel` instructions. -/
def runFrom (x : Context) (active : List Body) (body : Body) (r : Nat) : Nat → Cursor → Run Cursor
  | 0, _ => throw .outOfFuel
  | fuel + 1, c => do
    match body.instrs[c.position]? with
    | none => return c
    | some i =>
      match ← hold refusal active.length (execute x r i) with
      | .advance => runFrom x active body r fuel c.advance
      | .jump label => runFrom x active body r fuel (c.moveTo (body.labels.target label))
      | .stop results => return c.setResults results

/-- Call a function value while the given bodies are active. -/
def callValue (p : Setting) : Nat → List Body → Value → List Value → Run (List Value)
  | 0, _, _, _ => throw .outOfFuel
  | fuel + 1, active, .func ref _, args => hold refusal active.length do
    match (← get).functions[ref]? with
    | some (.closure body outer) =>
      if p.limit = some active.length then Run.fail (.callDepthExceeded active.length)
      else counted none do
        let r ← Run.newRecord body.slots (some outer) args
        let inside := body :: active
        let c ← runFrom refusal ⟨p.types, callValue p fuel inside⟩ inside body r fuel .start
        return c.results
    | some (.host index) =>
      match p.hosts[index]? with
      | some body => body (callValue p fuel active) args
      | none => Run.fail .nilFuncCall
    | some (.bound method recv) => callValue p fuel active method (recv :: args)
    | none => Run.fail .nilFuncCall
  | _ + 1, _, _, _ => Run.fail .nilFuncCall

section
variable (p : Program)

/-- Call the function in a slot of the package. -/
def callSlot (slot : Nat) (args : List Value) : Run (List Value) := do
  callValue refusal p.setting Program.fuel [] (← Run.loadSlot Machine.globals slot) args

/-- Call the functions in slots of the package, one after the other. -/
def callSlots : List Nat → Run Unit
  | [] => pure ()
  | slot :: rest => do
    let _ ← callSlot refusal p slot []
    callSlots rest

/-- Initialize the package variables, then call the `init` functions. -/
def runInit : Run Unit := do
  let r ← Run.newRecord p.package.init.slots (some Machine.globals) []
  let x : Context := ⟨p.setting.types, callValue refusal p.setting Program.fuel []⟩
  let _ ← runFrom refusal x [] p.package.init r Program.fuel .start
  callSlots refusal p p.package.initFuncs

/-- Call a function, or a method with its receiver as the first argument. -/
def call (name : Name) (args : List Value) : Run (List Value) :=
  match p.func? name with
  | some b => callSlot refusal p b.slot args
  | none => Run.fail (.custom ("undefined function " ++ name))

/-- Do something with a program while no body is active. -/
def act (a : Program.Action) : Run (List Value) :=
  hold refusal 0 (match a with
    | .init => do
      runInit refusal p
      return []
    | .main => do
      runInit refusal p
      call refusal p "main" []
    | .call name args => call refusal p name args)

end

end Audit

/-! ### An audit finds nothing -/

/-- A host function has no part in the count but by calling function values. -/
def HostBody.Steady (body : HostBody) : Prop :=
  ∀ n call call', AlikeCalls n call call' → ∀ args, Run.Alike n (body call args) (body call' args)

/-- A host function that calls nothing and leaves the count alone. -/
theorem HostBody.Steady.of_balanced {body : HostBody} (hsame : ∀ call call', body call = body call')
    (h : ∀ call args, Run.Balanced (body call args)) : body.Steady :=
  fun _ call call' _ args => hsame call call' ▸ .same (h call args)

namespace Run.Alike

variable {α : Type} {n : Nat} {p q : Run α}

/-- Nothing is found before or after a computation that leaves the count as it is. -/
theorem hold (h : Alike n p q) (refusal : Failure) : Alike n p (Audit.hold refusal n q) := by
  intro m hm
  obtain ⟨hsame, hdepth⟩ := h m hm
  have hafter : (after q m).depth = n := by rwa [after, ← hsame, ← after]
  refine ⟨?_, hdepth⟩
  rw [Audit.hold, if_neg (not_not.2 hm), if_neg (not_not.2 hafter), hsame]

/-- A body that is counted, below the limit. -/
theorem counted (h : Alike (n + 1) p q) {limit : Option Nat}
    (hlimit : ∀ l, limit = some l → n < l) :
    Alike n (ScriptCore.counted limit p) (ScriptCore.counted none q) := by
  intro m hm
  have hbelow : (limit.any fun l => decide (l ≤ m.depth)) = false := by
    cases limit with
    | none => rfl
    | some l => simpa [hm] using hlimit l rfl
  obtain ⟨hsame, hdepth⟩ := h { m with depth := m.depth + 1 } (by rw [hm])
  simp only [after, ScriptCore.counted, hbelow, Option.any_none, onFreshStack_eq, ite_self,
    Bool.false_eq_true, if_false, ← hsame] at hdepth ⊢
  refine ⟨trivial, ?_⟩
  cases hrun : p { m with depth := m.depth + 1 } with
  | ok a m' =>
      rw [hrun] at hdepth
      exact Nat.sub_eq_of_eq_add hdepth
  | error e m' =>
      rw [hrun] at hdepth
      exact Nat.sub_eq_of_eq_add hdepth

end Run.Alike

namespace Audit

variable (refusal : Failure) {p : Setting}

/-- The run of a body. -/
theorem runFrom_alike {types : TypeTable} {call call' : Value → List Value → Run (List Value)}
    (active : List Body) (h : AlikeCalls active.length call call') (body : Body) (r fuel : Nat)
    (c : Cursor) :
    Run.Alike active.length (ScriptCore.runFrom ⟨types, call⟩ body r fuel c)
      (runFrom refusal ⟨types, call'⟩ active body r fuel c) := by
  induction fuel generalizing c with
  | zero => exact .throw _
  | succ fuel ih =>
      rw [ScriptCore.runFrom, runFrom]
      cases body.instrs[c.position]? with
      | none => exact .pure _
      | some i =>
          refine .bind ((execute_alike h i).hold refusal) fun next => ?_
          cases next with
          | advance => exact ih _
          | jump label => exact ih _
          | stop results => exact .pure _

/-- A call that the limit refuses. -/
theorem counted_refused {α : Type} {n : Nat} {limit : Option Nat} (h : limit = some n)
    (run : Run α) : Run.Alike n (counted limit run) (Run.fail (.callDepthExceeded n)) := by
  intro m hm
  have hreached : (limit.any fun l => decide (l ≤ m.depth)) = true := by
    rw [h, hm, Option.any_some, decide_eq_true (Nat.le_refl n)]
  have hrefused : counted limit run m = .error (.error (.callDepthExceeded n)) m := by
    rw [counted, if_pos hreached, h, Option.getD_some]
  exact ⟨hrefused, by rw [Run.after, hrefused]; exact hm⟩

/-- **A call does the same under an audit**, which tells from the active bodies alone whether the
limit is reached. -/
theorem callValue_alike (hhosts : ∀ body ∈ p.hosts, body.Steady) (fuel : Nat) (active : List Body)
    (hactive : ∀ l, p.limit = some l → active.length ≤ l) :
    AlikeCalls active.length (ScriptCore.callValue p fuel) (callValue refusal p fuel active) := by
  induction fuel generalizing active with
  | zero => exact fun f args => .throw _
  | succ fuel ih =>
      intro f args
      cases f with
      | func ref name =>
          refine Run.Alike.hold (.get fun m => ?_) refusal
          cases m.functions[ref]? with
          | none => exact .throw _
          | some function =>
              cases function with
              | closure body outer =>
                  dsimp only
                  by_cases hreached : p.limit = some active.length
                  · rw [if_pos hreached]
                    exact counted_refused hreached _
                  · rw [if_neg hreached]
                    have hlimit : ∀ l, p.limit = some l → active.length < l := fun l hl =>
                      Nat.lt_of_le_of_ne (hactive l hl) fun heq => hreached (heq ▸ hl)
                    refine .counted ?_ hlimit
                    refine .bind (.same (.newRecord _ _ args)) fun r => .bind ?_ fun c => .pure _
                    exact runFrom_alike refusal (body :: active) (ih _ hlimit) body r fuel .start
              | host index =>
                  dsimp only
                  cases hbody : p.hosts[index]? with
                  | none => exact .throw _
                  | some body =>
                      exact hhosts body (Array.mem_of_getElem? hbody) _ _ _ (ih active hactive) args
              | bound method recv => exact ih active hactive method (recv :: args)
      | _ => exact .throw _

/-! ### Programs -/

section
variable {p : Program} (hhosts : ∀ body ∈ p.setting.hosts, body.Steady)
include hhosts

/-- Calls from outside. -/
theorem outside_alike (fuel : Nat) :
    AlikeCalls 0 (ScriptCore.callValue p.setting fuel) (callValue refusal p.setting fuel []) :=
  callValue_alike refusal hhosts fuel [] fun _ _ => Nat.zero_le _

/-- A call of a function of the package. -/
theorem callSlot_alike (slot : Nat) (args : List Value) :
    Run.Alike 0 (p.callSlot slot args) (callSlot refusal p slot args) :=
  .bind (.same (.loadSlot _ _)) fun f => outside_alike refusal hhosts _ f args

/-- Calls of several functions. -/
theorem callSlots_alike (slots : List Nat) :
    Run.Alike 0 (p.callSlots slots) (callSlots refusal p slots) := by
  induction slots with
  | nil => exact .pure _
  | cons slot rest ih => exact .bind (callSlot_alike refusal hhosts slot []) fun _ => ih

/-- Initialization. -/
theorem runInit_alike : Run.Alike 0 p.runInit (runInit refusal p) :=
  .bind (.same (.newRecord _ _ _)) fun r =>
    .bind (runFrom_alike refusal [] (outside_alike refusal hhosts _) _ r _ _) fun _ =>
      callSlots_alike refusal hhosts _

/-- **Whatever one does with a program, an audit finds nothing.** -/
theorem act_alike (a : Program.Action) : Run.Alike 0 (p.act a) (act refusal p a) := by
  have hcall : ∀ name args, Run.Alike 0 (p.call name args) (call refusal p name args) := by
    intro name args
    unfold Program.call call
    cases p.func? name with
    | none => exact .throw _
    | some b => exact callSlot_alike refusal hhosts b.slot args
  refine Run.Alike.hold ?_ refusal
  cases a with
  | init => exact .bind (runInit_alike refusal hhosts) fun _ => .pure _
  | main => exact .bind (runInit_alike refusal hhosts) fun _ => hcall "main" []
  | call name args => exact hcall name args

end

end Audit

namespace Printing

/-- Printing is steady. -/
theorem printing_steady (text : Heap → List Value → String) : (printing text).Steady :=
  .of_balanced (fun _ _ => rfl) fun _ _ => .get fun _ => .bind (.print _) fun _ => .pure _

/-- Making a string is steady. -/
theorem formatting_steady (text : Heap → List Value → String) : (formatting text).Steady :=
  .of_balanced (fun _ _ => rfl) fun _ _ => .get fun _ => .pure _

/-- Ending the program is steady. -/
theorem panic_steady : panic.body.Steady :=
  .of_balanced (fun _ _ => rfl) fun _ _ => .get fun _ => .throw _

end Printing

namespace Session

/-- The host functions of the standard session are steady. -/
theorem standard_steady : ∀ body ∈ Session.standard.bodies, body.Steady := by
  intro body hbody
  simp only [Session.standard, Session.addFunc, Session.addPackage, Session.empty,
    Printing.members, Array.mem_push, Array.mem_append, List.mem_toArray, List.map_cons,
    List.map_nil, List.mem_cons, List.not_mem_nil, or_false, false_or] at hbody
  rcases hbody with (rfl | rfl | rfl | rfl) | rfl
  · exact Printing.printing_steady _
  · exact Printing.printing_steady _
  · exact Printing.formatting_steady _
  · exact Printing.formatting_steady _
  · exact Printing.panic_steady

/-- A host function `apply` that calls the function it is given. -/
def applying : HostEntry where
  name := "apply"
  type := .func none [.func none [] [] false] [] false
  body := fun call args => do
    match args with
    | [] => return []
    | f :: _ => call f []

/-- It is steady. -/
theorem applying_steady : applying.body.Steady := by
  intro n call call' h args
  cases args with
  | nil => exact .pure []
  | cons f rest => exact h f []

/-- The standard session with this function and a limit of three nested calls. -/
def shallow : Session :=
  { Session.standard.addFunc applying with limit := some 3 }

/-- Its host functions are steady. -/
theorem shallow_steady : ∀ body ∈ shallow.bodies, body.Steady := by
  intro body hbody
  rcases Array.mem_push.1 hbody with hbody | rfl
  · exact standard_steady body hbody
  · exact applying_steady

end Session

namespace Program

/-- A call of a closure is refused if as many bodies are counted as the limit allows; otherwise its
body runs, and is counted while it does. -/
def RefusesAtLimit (p : Setting) : Prop :=
  ∀ fuel ref name args (m : Machine) body outer,
    m.functions[ref]? = some (.closure body outer) → (∀ l, p.limit = some l → m.depth ≤ l) →
    callValue p (fuel + 1) (.func ref name) args m =
      if p.limit = some m.depth then .error (.error (.callDepthExceeded m.depth)) m
      else counted none (do
        let r ← Run.newRecord body.slots (some outer) args
        let c ← runFrom ⟨p.types, callValue p fuel⟩ body r fuel .start
        return c.results) m

/-- Calls are refused in this way. -/
theorem refusesAtLimit (p : Setting) : RefusesAtLimit p := by
  intro fuel ref name args m body outer hfunction hdepth
  rw [callValue, Run.get_bind, hfunction]
  by_cases hreached : p.limit = some m.depth
  · rw [if_pos hreached]
    exact (Audit.counted_refused hreached _ m rfl).1
  · have hbelow : (p.limit.any fun l => decide (l ≤ m.depth)) = false := by
      cases hlimit : p.limit with
      | none => rfl
      | some l =>
          have hle := hdepth l hlimit
          have hne : l ≠ m.depth := fun heq => hreached (heq ▸ hlimit)
          simp only [Option.any_some, decide_eq_false_iff_not]
          omega
    rw [if_neg hreached]
    simp only [counted, hbelow, Option.any_none, Bool.false_eq_true, if_false]

/-- **The limit on nested calls is exact, and the count never leaks.**  After anything that one has
done with a program, whether it ended well or not, no body is counted.  An action does what it does
under an audit, whatever the refusal is: at every instruction, call and action the count is the
number of active bodies, and a call is refused exactly if they are as many as the limit allows.  In
between, every expression leaves the count as it finds it. -/
theorem depth_exact (p : Program) (hhosts : ∀ body ∈ p.setting.hosts, body.Steady) :
    RefusesAtLimit p.setting ∧
    (∀ actions, (p.after actions).depth = 0 ∧
      ∀ a refusal, p.act a (p.after actions) = Audit.act refusal p a (p.after actions)) ∧
    ∀ fuel r e m, (∀ l, p.setting.limit = some l → m.depth ≤ l) →
      (Run.after (eval ⟨p.setting.types, callValue p.setting fuel⟩ r e) m).depth = m.depth := by
  have hzero : ∀ actions, (p.after actions).depth = 0 := by
    intro actions
    induction actions using List.reverseRecOn with
    | nil => rfl
    | append_singleton actions last ih =>
        have hafter : p.after (actions ++ [last]) = Run.after (p.act last) (p.after actions) := by
          simp [after]
        rw [hafter]
        exact (Audit.act_alike .outOfFuel hhosts last _ ih).2
  refine ⟨refusesAtLimit _, fun actions => ⟨hzero actions, fun a refusal => ?_⟩,
    fun fuel r e m hm => ?_⟩
  · exact (Audit.act_alike refusal hhosts a _ (hzero actions)).1
  · -- any bodies will do as the active ones, if they are as many as are counted
    have hcount : (List.replicate m.depth (default : Body)).length = m.depth :=
      List.length_replicate
    have hcalls := Audit.callValue_alike .outOfFuel hhosts fuel (List.replicate m.depth default)
      (by rwa [hcount])
    rw [hcount] at hcalls
    exact (eval_alike hcalls e m rfl).2

/-- `func f() { apply(f) }`, which calls itself through the host. -/
def endless : List Item :=
  let mention (name : Name) : Expr := .node .none (.ident name)
  [.func ⟨"f", none, .mk [] [] false, some (.mk
    [.node .none (.expr (.node .none (.call (mention "apply") [mention "f"])))] .none), .none⟩]

/-- The limit at which a run was refused a call. -/
def refusedAt? (run : Run (List Value)) (m : Machine) : Option Nat :=
  match run m with
  | .error (.error (.callDepthExceeded limit)) _ => some limit
  | _ => none

/-- The limit is exact for it, and a call of `f` runs into it. -/
theorem endless_depth : ∃ p, ofItems .shallow endless = .ok p ∧
    (RefusesAtLimit p.setting ∧
    (∀ actions, (p.after actions).depth = 0 ∧
      ∀ a refusal, p.act a (p.after actions) = Audit.act refusal p a (p.after actions)) ∧
    ∀ fuel r e m, (∀ l, p.setting.limit = some l → m.depth ≤ l) →
      (Run.after (eval ⟨p.setting.types, callValue p.setting fuel⟩ r e) m).depth = m.depth) ∧
    refusedAt? (p.act (.call "f" [])) (p.after [.init]) = some 3 := by
  have hruns : (ofItems .shallow endless).toOption.elim false (fun p =>
      refusedAt? (p.act (.call "f" [])) (p.after [.init]) == some 3) = true := by
    decide +kernel
  cases hp : ofItems .shallow endless with
  | error e =>
      rw [hp] at hruns
      cases hruns
  | ok p =>
      rw [hp] at hruns
      have hhosts : ∀ body ∈ p.setting.hosts, body.Steady := by
        rw [(ofItems_eq hp).2]
        exact Session.shallow_steady
      exact ⟨p, rfl, depth_exact p hhosts, by simpa [Except.toOption] using hruns⟩

end Program

end ScriptCore
