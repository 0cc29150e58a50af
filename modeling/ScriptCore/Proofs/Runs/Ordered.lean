import ScriptCore.Proofs.Addressing.Contents
import ScriptCore.Proofs.Control.Simulation
import ScriptCore.Proofs.Runs.Programs
import ScriptCore.Proofs.Runs.Sparing

/-!
# The order of initialization

A run of the initialization that raises no error executes the instruction of every initializer once,
and then calls every `init` function once, in source order, whatever has been done with the program
before.

No name stands for the slot of an `init` function, so no code stores in it, and it still holds what
the compilation put there.

Main statements: `Program.act_sparing` and `Program.runInit_in_order`.
-/

namespace ScriptCore

open Code

/-! ### Host functions -/

/-- Host functions that work on the heap or print are discreet. -/
theorem HostBody.Discreet.of_aside {body : HostBody}
    (h : ∀ call args, Run.Aside (body call args)) : body.Discreet :=
  fun _ call haside _ _ args m => haside m _ (h call args m)

namespace Printing

/-- Printing gets at no record. -/
theorem printing_discreet (text : Heap → List Value → String) : (printing text).Discreet :=
  .of_aside fun _ _ => .get fun _ => .bind
    (fun _ => ⟨rfl, fun _ _ h => h, fun _ _ _ h => h⟩) fun _ => .pure _

/-- Neither does making a string. -/
theorem formatting_discreet (text : Heap → List Value → String) : (formatting text).Discreet :=
  .of_aside fun _ _ => .get fun _ => .pure _

/-- Neither does ending the program. -/
theorem panic_discreet : panic.body.Discreet :=
  .of_aside fun _ _ => .get fun _ => .throw _

end Printing

/-- The host functions of the standard session are discreet. -/
theorem Session.standard_discreet : ∀ body ∈ Session.standard.bodies, body.Discreet := by
  intro body hbody
  simp only [Session.standard, Session.addFunc, Session.addPackage, Session.empty,
    Printing.members, Array.mem_push, Array.mem_append, List.mem_toArray, List.map_cons,
    List.map_nil, List.mem_cons, List.not_mem_nil, or_false, false_or] at hbody
  rcases hbody with (rfl | rfl | rfl | rfl) | rfl
  · exact Printing.printing_discreet _
  · exact Printing.printing_discreet _
  · exact Printing.formatting_discreet _
  · exact Printing.formatting_discreet _
  · exact Printing.panic_discreet

/-! ### Statements and calls, one after the other -/

/-- The run of instructions one after the other, each once. -/
inductive ExecutesInOrder (x : Context) (r : Nat) : List Instr → Machine → Machine → Prop
  | nil (m : Machine) : ExecutesInOrder x r [] m m
  | cons {i : Instr} {is : List Instr} {m m₁ m' : Machine}
      (first : execute x r i m = .ok .advance m₁) (rest : ExecutesInOrder x r is m₁ m') :
      ExecutesInOrder x r (i :: is) m m'

/-- Calls of functions one after the other, each once and without arguments. -/
inductive CallsInOrder (p : Setting) : List Function → Machine → Machine → Prop
  | nil (m : Machine) : CallsInOrder p [] m m
  | cons {f : Function} {fs : List Function} {ref : Nat} {name : Name} {results : List Value}
      {m m₁ m' : Machine} (function : m.functions[ref]? = some f)
      (call : callValue p Program.fuel (.func ref name) [] m = .ok results m₁)
      (rest : CallsInOrder p fs m₁ m') : CallsInOrder p (f :: fs) m m'

/-- A statement that stores goes on. -/
theorem execute_store_ok {x : Context} {r : Nat} {i : Instr} (hi : i.isStore = true) {next : Next}
    {m m' : Machine} (h : execute x r i m = .ok next m') : next = .advance := by
  cases i with
  | store container key value =>
      obtain ⟨_, _, -, h⟩ := run_bind_ok h
      obtain ⟨_, _, -, h⟩ := run_bind_ok h
      obtain ⟨_, _, -, h⟩ := run_bind_ok h
      obtain ⟨_, _, -, h⟩ := run_bind_ok h
      cases h
      rfl
  | spread call depth slots =>
      obtain ⟨_, _, -, h⟩ := run_bind_ok h
      obtain ⟨_, _, -, h⟩ := run_bind_ok h
      obtain ⟨_, _, -, h⟩ := run_bind_ok h
      cases h
      rfl
  | _ => cases hi

/-- **The run of a body that only stores** executes its instructions one after the other. -/
theorem runFrom_stores {x : Context} {body : Body} (hstores : ∀ i ∈ body.instrs, i.isStore = true)
    {r fuel : Nat} {c c' : Cursor} (hfuel : c.position + fuel ≤ Labels.unbound) {m m' : Machine}
    (h : runFrom x body r fuel c m = .ok c' m') :
    ExecutesInOrder x r (body.instrs.toList.drop c.position) m m' := by
  induction fuel generalizing c m with
  | zero => cases h
  | succ fuel ih =>
      rw [runFrom] at h
      cases hi : body.instrs[c.position]? with
      | none =>
          rw [hi] at h
          cases h
          rw [List.drop_eq_nil_of_le (by simpa using hi)]
          exact .nil _
      | some i =>
          rw [hi] at h
          obtain ⟨next, m₁, hfirst, hrest⟩ := run_bind_ok h
          obtain rfl := execute_store_ok (hstores i (Array.mem_of_getElem? hi)) hfirst
          have hposition : c.advance.position = c.position + 1 :=
            Cursor.advance_of_lt (by omega)
          have hrun := ih (by omega) hrest
          rw [hposition] at hrun
          rw [← Array.getElem?_toList] at hi
          obtain ⟨hlt, rfl⟩ := List.getElem?_eq_some_iff.1 hi
          rw [List.drop_eq_getElem_cons hlt]
          exact .cons hfirst hrun

/-! ### What one does with a program spares its `init` functions -/

/-- A slot of the package holds a function. -/
def Machine.Holds (m : Machine) (slot : Nat) (f : Function) : Prop :=
  ∃ ref name, (m.record globals).get slot = .func ref name ∧ m.functions[ref]? = some f

/-- A hidden slot holds what it held. -/
theorem Machine.Holds.later {named : Nat → Prop} {m m' : Machine} {slot : Nat} {f : Function}
    (h : m.Holds slot f) (hspares : m.Spares named m') (hslot : ¬named slot) : m'.Holds slot f := by
  obtain ⟨ref, name, hvalue, hfunction⟩ := h
  exact ⟨ref, name, (hspares.hidden slot hslot).trans hvalue, hspares.functions ref f hfunction⟩

namespace Program

variable {s : Session} {items : List Item} {p : Program} {slots funcs : Nat → Nat}

/-- The slots of a package that code may mention. -/
def named (p : Program) (slot : Nat) : Prop :=
  slot < p.package.globals.size ∧ slot ∉ p.package.initFuncs

/-- A program starts with a guarded machine. -/
theorem start_guarded (h : p.package.Laid s.hosts.count slots funcs) :
    p.start.Guarded p.named := by
  refine ⟨rfl, Nat.one_pos, fun n body r hf => ?_⟩
  rcases start_function hf with ⟨-, hf⟩ | ⟨k, g, -, hg, hf⟩
  · cases hf
  · cases hf
    exact ⟨0, .package, h.keep g (Array.mem_of_getElem? hg)⟩

/-- A program starts with the functions of its package in their slots. -/
theorem start_holds {slot : Nat} {f : Function}
    (h : p.package.Has p.setting.hosts.size slot f) : p.start.Holds slot f := by
  have hget : ∀ {v : Value}, p.package.globals[slot]? = some v →
      (p.start.record Machine.globals).get slot = v := fun hv => by
    rw [Record.get, start_globals, hv]
    rfl
  have hsize : ((Array.range p.setting.hosts.size).map Function.host).size =
      p.setting.hosts.size := by simp
  cases h with
  | @closure k name body value function =>
      refine ⟨_, _, hget value, ?_⟩
      rw [start, Machine.start, Array.getElem?_append_right (by omega), hsize,
        Nat.add_sub_cancel_left, Array.getElem?_map, function]
      rfl
  | @host number name value lt =>
      refine ⟨_, _, hget value, ?_⟩
      rw [start, Machine.start, Array.getElem?_append_left (by omega), Array.getElem?_map,
        Array.getElem?_range, if_pos lt]
      rfl

section
variable (hhosts : ∀ body ∈ p.setting.hosts, body.Discreet) {named : Nat → Prop}
include hhosts

/-- A call of a function of the package. -/
theorem callSlot_sparing (slot : Nat) (args : List Value) :
    Run.Sparing named Machine.globals 0 (p.callSlot slot args) fun _ => True :=
  .bind (.of_aside (.loadSlot _ _)) fun f _ => callValue_sparing hhosts fuel f args

/-- Calls of functions of the package. -/
theorem callSlots_sparing (slots : List Nat) :
    Run.Sparing named Machine.globals 0 (p.callSlots slots) fun _ => True := by
  induction slots with
  | nil => exact .pure trivial
  | cons slot rest ih => exact .bind (callSlot_sparing hhosts slot []) fun _ _ => ih

/-- **Whatever one does with a program** spares the slots that no code mentions. -/
theorem act_sparing (hinit : p.package.init.KeepsTo named 0) (a : Action) :
    Run.Sparing named Machine.globals 0 (p.act a) fun _ => True := by
  have hrunInit : Run.Sparing named Machine.globals 0 p.runInit fun _ => True := by
    refine .invoke fun r => ?_
    exact .bind (runFrom_sparing (callValue_sparing hhosts fuel) hinit fuel .start) fun _ _ =>
      .anywhere (callSlots_sparing hhosts _)
  have hcall : ∀ name args, Run.Sparing named Machine.globals 0 (p.call name args)
      fun _ => True := by
    intro name args
    unfold Program.call
    cases p.func? name with
    | none => exact .throw _
    | some b => exact callSlot_sparing hhosts b.slot args
  cases a with
  | init => exact .bind hrunInit fun _ _ => .pure trivial
  | main => exact .bind hrunInit fun _ _ => hcall "main" []
  | call name args => exact hcall name args

/-- The machine after several things. -/
theorem after_spares (hinit : p.package.init.KeepsTo named 0) (hstart : p.start.Guarded named)
    (actions : List Action) : p.start.Spares named (p.after actions) := by
  induction actions using List.reverseRecOn with
  | nil => exact .refl hstart
  | append_singleton actions last ih =>
      have hafter : p.after (actions ++ [last]) = Run.after (p.act last) (p.after actions) := by
        simp [after]
      rw [hafter]
      exact ih.trans (act_sparing hhosts hinit last _ ih.guarded .package).1

/-- **Functions in hidden slots are called one after the other.** -/
theorem callSlots_in_order {m m' : Machine} (hm : m.Guarded named) {slots : List Nat}
    {functions : List Function} (hslots : ∀ slot ∈ slots, ¬named slot)
    (hholds : List.Forall₂ m.Holds slots functions) (h : p.callSlots slots m = .ok () m') :
    CallsInOrder p.setting functions m m' := by
  induction slots generalizing functions m with
  | nil =>
      cases hholds
      cases h
      exact .nil _
  | cons slot slots ih =>
      cases hholds with
      | @cons _ f _ functions hfirst hrest =>
          obtain ⟨results, m₁, hcall, h⟩ := run_bind_ok h
          obtain ⟨ref, name, hvalue, hfunction⟩ := hfirst
          have hspares := (callSlot_sparing hhosts slot [] m hm .package).1
          rw [Run.after, hcall] at hspares
          have hrun : callValue p.setting fuel (.func ref name) [] m = .ok results m₁ := by
            rw [← hvalue]
            exact hcall
          have hlater : List.Forall₂ m₁.Holds slots functions := by
            refine ((List.forall₂_and_left _ _).2 ⟨?_, hrest⟩).imp fun _ _ h =>
              h.2.later hspares h.1
            exact fun slot hslot => hslots slot (List.mem_cons_of_mem _ hslot)
          exact .cons hfunction hrun (ih hspares.guarded
            (fun slot hslot => hslots slot (List.mem_cons_of_mem _ hslot)) hlater h)

end

/-- What pairs have in common, pair by pair. -/
theorem exists_between {α β γ : Type} {P : α → γ → Prop} {Q : β → γ → Prop} {as : List α}
    {bs : List β} (h : List.Forall₂ (fun a b => ∃ c, P a c ∧ Q b c) as bs) :
    ∃ cs, List.Forall₂ P as cs ∧ List.Forall₂ Q bs cs := by
  induction h with
  | nil => exact ⟨[], .nil, .nil⟩
  | cons hfirst _ ih =>
      obtain ⟨c, hp, hq⟩ := hfirst
      obtain ⟨cs, hps, hqs⟩ := ih
      exact ⟨c :: cs, .cons hp hps, .cons hq hqs⟩

/-- Whatever one has done with the program before, a run of the initialization that raises no error
first executes the given instructions and then calls the given functions. -/
def InitializesInOrder (p : Program) (stores : List Instr) (functions : List Function) : Prop :=
  ∀ actions m', p.runInit (p.after actions) = .ok () m' → ∃ m₁,
    ExecutesInOrder ⟨p.setting.types, callValue p.setting fuel⟩ (p.after actions).records.size
      stores ((p.after actions).invoked p.package.init Machine.globals []) m₁ ∧
    CallsInOrder p.setting functions m₁ m'

/-- **Initialization runs in order.**  A run of the initialization that raises no error first
executes the code of every initializer of a package variable once, and then calls every `init`
function once, in the order in which they stand in the source.  Identifiers have no `#` in them, and
host functions get arguments and give results. -/
theorem runInit_in_order (hnumbered : s.hosts.Numbered) (hcount : s.hosts.count = s.bodies.size)
    (hhosts : ∀ body ∈ s.bodies, body.Discreet) (hplain : ∀ item ∈ items, item.Plain)
    (hp : ofItems s items = .ok p) :
    ∃ (inits : List Expr) (stores : List Instr) (functions : List Function),
      inits.Perm (items.flatMap Item.initializers) ∧
      List.Forall₂ (fun e i => ∃ c, Package.Reached s.types s.hosts s.lowers items c ∧
        Compile.Initializes c e i) inits stores ∧
      List.Forall₂ (fun decl f => ∃ c, Package.Reached s.types s.hosts s.lowers items c ∧
        Compile.Makes c decl f) (items.flatMap Item.entries) functions ∧
      p.InitializesInOrder stores functions := by
  obtain ⟨hpackage, hsetting⟩ := ofItems_eq hp
  have hbodies : ∀ body ∈ p.setting.hosts, body.Discreet := by
    rw [hsetting]
    exact hhosts
  obtain ⟨slots, funcs, hlaid⟩ := Package.laid hnumbered hpackage
  obtain ⟨⟨inits, hperm, hinits⟩, hentries⟩ := Package.contents hnumbered hplain hpackage
  rw [show s.hosts.count = p.setting.hosts.size by rw [hcount, hsetting]] at hentries
  -- the function in the slot of each `init` function
  obtain ⟨functions, hmakes, hhas⟩ := exists_between (hentries.imp
    fun _ _ ⟨c, f, hc, hf, hin⟩ => ⟨f, (⟨c, hc, hf⟩ : ∃ c, Package.Reached s.types s.hosts s.lowers
      items c ∧ Compile.Makes c _ f), hin⟩)
  refine ⟨inits, _, functions, hperm, hinits, hmakes, fun actions m' hrun => ?_⟩
  have hspares := after_spares hbodies hlaid.initKeeps (start_guarded hlaid) actions
  have hhidden : ∀ slot ∈ p.package.initFuncs, ¬p.named slot := fun slot hslot h => h.2 hslot
  -- first the initializers
  have hinvoked := hspares.guarded.invoked p.package.init Machine.globals []
  obtain ⟨c, m₁, hstores, hcalls⟩ := run_bind_ok
    (show ((runFrom ⟨p.setting.types, callValue p.setting fuel⟩ p.package.init
      (p.after actions).records.size fuel .start) >>= fun _ => p.callSlots p.package.initFuncs)
        ((p.after actions).invoked p.package.init Machine.globals []) = .ok () m' from hrun)
  refine ⟨m₁, runFrom_stores hlaid.initStores (by decide) hstores, ?_⟩
  -- then the `init` functions, which the initializers have not changed
  have hlevel := (Machine.Level.package).invoked hspares.guarded p.package.init []
  have hstored : ((p.after actions).invoked p.package.init Machine.globals []).Spares p.named
      (Run.after (runFrom ⟨p.setting.types, callValue p.setting fuel⟩ p.package.init
        (p.after actions).records.size fuel .start)
        ((p.after actions).invoked p.package.init Machine.globals [])) :=
    (runFrom_sparing (callValue_sparing hbodies fuel) hlaid.initKeeps fuel .start _
      hinvoked.guarded hlevel).1
  rw [Run.after, hstores] at hstored
  refine callSlots_in_order hbodies hstored.guarded hhidden ?_ hcalls
  refine ((List.forall₂_and_left _ _).2 ⟨hhidden, hhas⟩).imp fun _ _ h => ?_
  exact (start_holds h.2).later ((hspares.trans hinvoked).trans hstored) h.1

/-- Two `init` functions that store in `x`, around the variables `x`, which starts with `y`, and
`y`. -/
def assigned : List Item :=
  let mention (name : Name) : Expr := .node .none (.ident name)
  let number (n : Int) : Expr := .node .none (.int n)
  let init (n : Int) : Item := .func ⟨"init", none, .mk [] [] false,
    some (.mk [.node .none (.assign [mention "x"] [number n])] .none), .none⟩
  [init 5, .var [.mk ["x"] none [mention "y"] .none], init 7,
    .var [.mk ["y"] none [number 3] .none]]

/-- This program is initialized in order, and its initialization raises no error. -/
theorem assigned_initializes : ∃ p, ofItems .standard assigned = .ok p ∧
    (∃ m', p.runInit (p.after []) = .ok () m') ∧
    ∃ (inits : List Expr) (stores : List Instr) (functions : List Function),
      inits.Perm (assigned.flatMap Item.initializers) ∧
      List.Forall₂ (fun e i => ∃ c, Package.Reached Session.standard.types Session.standard.hosts
        Session.standard.lowers assigned c ∧ Compile.Initializes c e i) inits stores ∧
      List.Forall₂ (fun decl f => ∃ c, Package.Reached Session.standard.types
        Session.standard.hosts Session.standard.lowers assigned c ∧ Compile.Makes c decl f)
        (assigned.flatMap Item.entries) functions ∧
      p.InitializesInOrder stores functions := by
  have hplain : ∀ item ∈ assigned, item.Plain := by
    intro item hitem n hn
    have hname : n = "x" ∨ n = "y" := by
      simp only [assigned, List.mem_cons, List.not_mem_nil, or_false] at hitem
      rcases hitem with rfl | rfl | rfl | rfl <;>
        simp_all [Item.Free, FuncDecl.Free, Sig.Free, FreeInParams, Block.Free, FreeInStmts,
          Stmt.Free, StmtKind.Free, FreeInExprs, Expr.Free, ExprKind.Free, ValueSpec.Free,
          FreeInType?]
    rcases hname with rfl | rfl <;> decide
  have hruns : (ofItems .standard assigned).toOption.bind
      (fun p => EStateM.run' p.runInit p.start) = some () := by decide +kernel
  cases hp : ofItems .standard assigned with
  | error e =>
      rw [hp] at hruns
      cases hruns
  | ok p =>
      rw [hp] at hruns
      refine ⟨p, rfl, ?_, runInit_in_order Session.standard_inOrder.numbered
        Session.standard_inOrder.count Session.standard_discreet hplain hp⟩
      change EStateM.run' p.runInit (p.after []) = some () at hruns
      cases hrun : p.runInit (p.after []) with
      | ok _ m' => exact ⟨m', rfl⟩
      | error e m' =>
          delta EStateM.run' EStateM.run at hruns
          rw [hrun] at hruns
          cases hruns

end Program

end ScriptCore
