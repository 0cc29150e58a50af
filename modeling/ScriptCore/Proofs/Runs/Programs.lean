import ScriptCore.Proofs.Addressing.Package
import ScriptCore.Proofs.Runs.Execution
import ScriptCore.Session.Printing
import ScriptCore.Session.Program

/-!
# Lexical addressing

Compilation decides at which slot, how many records out, a variable lives, from the scopes that the
text gives.  When the program runs, the records nest as the bodies do: a record lies in that of the
body around its own body, from the invocation in which the function that runs was made.  So the slot
at an address is that of the variable in the invocation around, and there always is such a slot.

A program may be initialized and its functions called in any order, also after a failure; closures
may be kept by package variables in the meantime.

In a session in order the host functions have numbers below their count, there is a body for each of
them, and each body gets at the machine only in ways that keep it sound.  Sessions are in order if
they are made by registering such functions.

Main statements: `Session.InOrder.addFunc`, `Session.InOrder.addPackage`,
`Session.standard_inOrder`, `Program.start_sound`, `Program.act_keeps` and
`Program.addresses_hold`.
-/

namespace ScriptCore

open Code

/-! ### Sessions in order -/

/-- Host functions are numbered and confined. -/
structure Session.InOrder (s : Session) : Prop where
  numbered : s.hosts.Numbered
  count : s.hosts.count = s.bodies.size
  confined : ∀ body ∈ s.bodies, body.Confined

namespace Session

variable {s : Session}

/-- A session without host functions is in order. -/
theorem empty_inOrder : Session.empty.InOrder where
  numbered := ⟨fun _ hf => absurd hf List.not_mem_nil, fun _ hp => absurd hp List.not_mem_nil⟩
  count := rfl
  confined _ hbody := absurd hbody (Array.not_mem_empty _)

/-- Numbers of the members of a package. -/
theorem number_lt {first : Nat} {members : List HostEntry} :
    ∀ f ∈ number first members, f.number < first + members.length := by
  induction members generalizing first with
  | nil => exact fun f hf => absurd hf List.not_mem_nil
  | cons e rest ih =>
      intro f hf
      rw [List.length_cons]
      rcases List.mem_cons.1 hf with rfl | hf
      · exact Nat.lt_add_of_pos_right (Nat.succ_pos _)
      · have := ih f hf
        omega

/-- A confined function may be registered. -/
theorem InOrder.addFunc (h : s.InOrder) {e : HostEntry} (he : e.body.Confined) :
    (s.addFunc e).InOrder where
  numbered := by
    refine ⟨fun f hf => ?_, fun p hp f hf => Nat.lt_succ_of_lt (h.numbered.packages p hp f hf)⟩
    rcases List.mem_append.1 hf with hf | hf
    · exact Nat.lt_succ_of_lt (h.numbered.funcs f hf)
    · rw [List.mem_singleton.1 hf]
      exact Nat.lt_succ_self _
  count := by simp [Session.addFunc, h.count]
  confined body hbody := by
    rcases Array.mem_push.1 hbody with hbody | rfl
    · exact h.confined body hbody
    · exact he

/-- A package of confined functions may be registered. -/
theorem InOrder.addPackage (h : s.InOrder) {path : String} {members : List HostEntry}
    (hmembers : ∀ e ∈ members, e.body.Confined) : (s.addPackage path members).InOrder where
  numbered := by
    refine ⟨fun f hf => Nat.lt_add_right _ (h.numbered.funcs f hf), fun p hp f hf => ?_⟩
    rcases List.mem_append.1 hp with hp | hp
    · exact Nat.lt_add_right _ (h.numbered.packages p hp f hf)
    · rw [List.mem_singleton.1 hp] at hf
      exact number_lt f hf
  count := by simp [Session.addPackage, h.count]
  confined body hbody := by
    rcases Array.mem_append.1 hbody with hbody | hbody
    · exact h.confined body hbody
    · obtain ⟨e, he, rfl⟩ := List.mem_map.1 (List.mem_toArray.1 hbody)
      exact hmembers e he

end Session

namespace Printing

/-- Printing is confined. -/
theorem printing_confined (text : Heap → List Value → String) : (printing text).Confined :=
  fun _ _ _ _ _ _ => .heap fun _ _ => .bind (.print _) fun _ _ => .pure (List.forall_mem_nil _)

/-- Making a string is confined. -/
theorem formatting_confined (text : Heap → List Value → String) : (formatting text).Confined :=
  fun _ _ _ _ _ _ => .heap fun _ _ => .pure (List.forall_mem_singleton.2 trivial)

/-- Ending the program is confined. -/
theorem panic_confined : panic.body.Confined :=
  fun _ _ _ _ _ _ => .heap fun _ _ => .fail _

end Printing

/-- **The standard session is in order.** -/
theorem Session.standard_inOrder : Session.standard.InOrder := by
  refine (empty_inOrder.addPackage fun e he => ?_).addFunc Printing.panic_confined
  simp only [Printing.members, List.mem_cons, List.not_mem_nil, or_false] at he
  rcases he with rfl | rfl | rfl | rfl
  · exact Printing.printing_confined _
  · exact Printing.printing_confined _
  · exact Printing.formatting_confined _
  · exact Printing.formatting_confined _

/-! ### Programs -/

/-- Bodies outside all other bodies: those of the functions of the package, and the code that
initializes it. -/
def Package.Outermost (p : Package) (body : Body) : Prop :=
  body = p.init ∨ ∃ f ∈ p.functions, f.2 = body

namespace Program

/-- What one may do with a program. -/
inductive Action where
  | init
  | main
  | call (name : Name) (args : List Value)

/-- Do something with a program. -/
def act (p : Program) : Action → Run (List Value)
  | .init => do
    p.runInit
    return []
  | .main => p.runMain
  | .call name args => p.call name args

/-- The machine after one has done one thing after the other with a program, whether they ended well
or not. -/
def after (p : Program) (actions : List Action) : Machine :=
  actions.foldl (fun m a => Run.after (p.act a) m) p.start

end Program

namespace Watch

variable (w : Watch) (p : Program)

/-- Call the function in a slot of the package. -/
noncomputable def callSlot (slot : Nat) (args : List Value) : Run (List Value) := do
  w.callValue p.setting Program.fuel (← Run.loadSlot Machine.globals slot) args

/-- Call the functions in slots of the package, one after the other. -/
noncomputable def callSlots : List Nat → Run Unit
  | [] => pure ()
  | slot :: rest => do
    let _ ← w.callSlot p slot []
    callSlots rest

/-- Initialize the package variables, then call the `init` functions. -/
noncomputable def runInit : Run Unit := do
  let r ← Run.newRecord p.package.init.slots (some Machine.globals) []
  w.checkOwner r p.package.init
  let x : Context := ⟨p.setting.types, w.callValue p.setting Program.fuel⟩
  let _ ← w.runFrom x p.package.init r Program.fuel .start
  w.callSlots p p.package.initFuncs

/-- Call a function, or a method with its receiver as the first argument. -/
noncomputable def call (name : Name) (args : List Value) : Run (List Value) :=
  match p.func? name with
  | some b => w.callSlot p b.slot args
  | none => Run.fail (.custom ("undefined function " ++ name))

/-- Do something with a program. -/
noncomputable def act : Program.Action → Run (List Value)
  | .init => do
    w.runInit p
    return []
  | .main => do
    w.runInit p
    w.call p "main" []
  | .call name args => w.call p name args

end Watch

namespace Program

variable {s : Session} {items : List Item} {p : Program} {slots funcs : Nat → Nat}

/-- Functions of a program before it has done anything. -/
theorem start_function {n : Nat} {f : Function} (h : p.start.functions[n]? = some f) :
    (n < p.setting.hosts.size ∧ f = .host n) ∨
      ∃ k g, n = p.setting.hosts.size + k ∧ p.package.functions[k]? = some g ∧
        f = .closure g.2 Machine.globals := by
  have hn : n < p.setting.hosts.size + p.package.functions.size := by
    have hlt := (Array.getElem?_eq_some_iff.1 h).1
    simpa [start, Machine.start] using hlt
  rw [start, Machine.start, Array.getElem?_append] at h
  split at h
  · next hlt =>
    rw [Array.size_map, Array.size_range] at hlt
    rw [Array.getElem?_map, Array.getElem?_range, if_pos hlt] at h
    exact .inl ⟨hlt, (Option.some.inj h).symm⟩
  · next hge =>
    rw [Array.size_map, Array.size_range] at hge h
    rw [Array.getElem?_map] at h
    obtain ⟨g, hg, rfl⟩ := Option.map_eq_some_iff.1 h
    exact .inr ⟨_, g, by omega, hg, rfl⟩

/-- A program starts with a machine that is sound within bounds to which its functions and the
values of its variables keep. -/
theorem start_sound {B : Bounds} (htops : B.tops = p.package.Outermost)
    (hle : B.globals ≤ B.room) (hroom : B.room ≤ p.package.globals.size)
    (hvalues : ∀ (s : Nat) v, p.package.globals[s]? = some v →
      v.Only B.allowed ∨ (B.globals ≤ s ∧ B.initial s v))
    (hbodies : ∀ (k : Nat) f, p.package.functions[k]? = some f →
      B.allowed (p.setting.hosts.size + k) → f.2.Within B.allowed [B.globals])
    (hfresh : ∀ n, p.setting.hosts.size + p.package.functions.size ≤ n → B.allowed n) :
    Sound B [] p.start := by
  have hlocals : ∀ k, p.start.record (k + 1) = ⟨#[], none⟩ := fun k =>
    Machine.record_of_ge (Nat.succ_le_succ (Nat.zero_le k))
  constructor
  case nested =>
    refine ⟨rfl, rfl, fun k owner hk => (nomatch hk), fun n body r hf => ?_⟩
    rw [htops]
    rcases start_function hf with ⟨-, hf⟩ | ⟨k, g, -, hg, hf⟩
    · cases hf
    · cases hf
      exact .inr ⟨g, Array.mem_of_getElem? hg, rfl⟩
  case le => exact hle
  case room => exact hroom
  case globals => exact hvalues
  case locals =>
    intro k s v hv
    rw [hlocals] at hv
    cases hv
  case heap => exact .empty
  case functions =>
    intro n f hf hn
    rcases start_function hf with ⟨-, rfl⟩ | ⟨k, g, rfl, hg, rfl⟩
    · trivial
    · exact ⟨[B.globals], .globals (Nat.le_trans hle hroom), hbodies k g hg hn⟩
  case fresh =>
    intro n hn
    refine hfresh n (Nat.le_trans (Nat.le_of_eq ?_) hn)
    simp [start, Machine.start]

/-! ### Everything that a program does -/

/-- Everything that there is in a package. -/
def bounds (p : Program) : Bounds where
  allowed := fun _ => True
  globals := p.package.globals.size
  room := p.package.globals.size
  initial := fun _ _ => False
  tops := p.package.Outermost

/-- The code that initializes a package keeps to the package. -/
theorem init_within (h : p.package.Laid s.hosts.count slots funcs) :
    p.package.init.Within p.bounds.allowed [p.bounds.globals] := by
  refine .of_parts (fun x hx => ?_) (fun i hi label hlabel => ?_) fun i hi => ?_
  · obtain ⟨i, hi, hx⟩ := List.mem_flatMap.1 hx
    obtain ⟨n, hn⟩ := List.mem_iff_getElem?.1 hi
    rw [Array.getElem?_toList] at hn
    rw [h.initSlots]
    rcases Instr.mem_parts.1 hx with hx | ⟨a, ha, rfl⟩
    · exact (h.needs n i hn x hx).mono (fun _ _ => trivial)
        (.cons (Nat.le_refl 0) (.cons (h.slots_le n) (.refl [])))
    · obtain ⟨hdepth, -, hlt⟩ := h.stores n i hn a ha
      refine ⟨p.package.globals.size, ?_, Nat.lt_of_lt_of_le hlt (h.slots_le _)⟩
      rw [hdepth]
      rfl
  · have hstore := h.initStores i hi
    cases i <;> cases hstore <;> cases hlabel
  · have hstore := h.initStores i hi
    cases i <;> cases hstore <;> trivial

/-- What a program is loaded from. -/
theorem ofItems_eq (h : ofItems s items = .ok p) :
    Package.ofItems s.types s.hosts s.lowers items = .ok p.package ∧
      p.setting = ⟨p.package.types, s.bodies, s.limit⟩ := by
  unfold ofItems at h
  cases hp : Package.ofItems s.types s.hosts s.lowers items with
  | error e =>
      rw [hp] at h
      cases h
  | ok package =>
      rw [hp] at h
      cases h
      exact ⟨rfl, rfl⟩

/-- A program starts with a sound machine. -/
theorem start_sound_bounds (h : p.package.Laid s.hosts.count slots funcs) :
    Sound p.bounds [] p.start :=
  start_sound rfl (Nat.le_refl _) (Nat.le_refl _)
    (fun _ v _ => .inl (v.only_of_forall fun _ => trivial))
    (fun _ f hf _ => (h.bodies f (Array.mem_of_getElem? hf)).mono (fun _ _ => trivial) (.refl _))
    fun _ _ => trivial

/-- A call of a function of the package keeps a machine sound. -/
theorem callSlot_keeps (hhosts : ∀ body ∈ p.setting.hosts, body.Confined)
    (slot : Nat) (args : List Value) :
    Keeps p.bounds .always (p.callSlot slot args) (fun w => w.callSlot p slot args)
      fun _ => True := by
  have hload : Keeps p.bounds .always (Run.loadSlot Machine.globals slot)
      (fun _ => Run.loadSlot Machine.globals slot) (·.Only p.bounds.allowed) :=
    fun owners m hs _ =>
      .ok rfl (.refl owners m) hs (Value.only_of_forall (fun _ => trivial) _)
  exact .bind hload fun f hf =>
    (callValue_keeps hhosts fuel f args hf fun v _ => v.only_of_forall fun _ => trivial).imp
      fun _ _ => trivial

/-- Calls of several functions keep a machine sound. -/
theorem callSlots_keeps
    (hhosts : ∀ body ∈ p.setting.hosts, body.Confined) (slots : List Nat) :
    Keeps p.bounds .always (p.callSlots slots) (fun w => w.callSlots p slots) fun _ => True := by
  induction slots with
  | nil => exact .pure trivial
  | cons slot rest ih => exact .bind (callSlot_keeps hhosts slot []) fun _ _ => ih

/-- Initialization keeps a machine sound. -/
theorem runInit_keeps (h : p.package.Laid s.hosts.count slots funcs)
    (hhosts : ∀ body ∈ p.setting.hosts, body.Confined) :
    Keeps p.bounds .always p.runInit (fun w => w.runInit p) fun _ => True := by
  intro owners m hs _
  refine .enter hs (.globals (Nat.le_trans hs.le hs.room)) (.inl rfl) (List.forall_mem_nil _) ?_
  exact .bind (runFrom_keeps (callValue_keeps hhosts fuel) (init_within h) fuel
    (List.forall_mem_nil _)) fun _ _ => .anywhere (callSlots_keeps hhosts _)

/-- **Whatever one does with a program keeps a machine sound.** -/
theorem act_keeps (h : p.package.Laid s.hosts.count slots funcs)
    (hhosts : ∀ body ∈ p.setting.hosts, body.Confined) (a : Action) :
    Keeps p.bounds .always (p.act a) (fun w => w.act p a) fun _ => True := by
  have hcall : ∀ name args, Keeps p.bounds .always (p.call name args)
      (fun w => w.call p name args) fun _ => True := by
    intro name args
    unfold Program.call Watch.call
    cases p.func? name with
    | none => exact .fail _
    | some b => exact callSlot_keeps hhosts b.slot args
  cases a with
  | init => exact .bind (runInit_keeps h hhosts) fun _ _ => .pure trivial
  | main => exact .bind (runInit_keeps h hhosts) fun _ _ => hcall "main" []
  | call name args => exact hcall name args

/-- The machine is sound whatever one has done with a program, and every watch that agrees with
that admits what was done. -/
theorem after_sound (h : p.package.Laid s.hosts.count slots funcs)
    (hhosts : ∀ body ∈ p.setting.hosts, body.Confined) (actions : List Action) :
    ∃ owners, Sound p.bounds owners (p.after actions) ∧
      ∀ done a, done ++ [a] <+: actions → ∀ w : Watch, w.Agrees p.bounds owners →
        p.act a (p.after done) = w.act p a (p.after done) := by
  induction actions using List.reverseRecOn with
  | nil =>
      refine ⟨[], start_sound_bounds h, fun done a hpast => ?_⟩
      rw [List.prefix_nil] at hpast
      exact absurd hpast (List.append_ne_nil_of_right_ne_nil _ (List.cons_ne_nil _ _))
  | append_singleton actions last ih =>
      obtain ⟨owners, hs, hbefore⟩ := ih
      obtain ⟨⟨owners', hlater, hs', hsame⟩, -⟩ := act_keeps h hhosts last owners _ hs trivial
      have hafter : p.after (actions ++ [last]) = Run.after (p.act last) (p.after actions) := by
        simp [after]
      refine ⟨owners', hafter ▸ hs', fun done a hpast w hw => ?_⟩
      -- what was done is done last or was done before
      rcases List.prefix_concat_iff.1 hpast with heq | hpast
      · obtain ⟨rfl, hlast⟩ := List.append_inj' heq rfl
        cases hlast
        exact hsame w hw
      · exact hbefore done a hpast w (hw.mono hlater.owners)

/-- A function literal makes a function of the record in which it is evaluated, and every call of
that function runs its body in a new record inside that one. -/
structure Invokes (p : Setting) : Prop where
  made : ∀ x r body m, eval x r (.closure body) m =
    .ok (.func m.functions.size "func literal") (m.defined (.closure body r))
  called : ∀ fuel ref name args m body r, m.functions[ref]? = some (.closure body r) →
    callValue p (fuel + 1) (.func ref name) args m = counted p.limit (fun m => (do
      let c ← runFrom ⟨p.types, callValue p fuel⟩ body m.records.size fuel .start
      return c.results : Run (List Value)) (m.invoked body r args)) m

/-- Functions are made and called in this way. -/
theorem invokes (p : Setting) : Invokes p where
  made _ _ _ _ := rfl
  called fuel ref name args m body r h := by
    rw [callValue, Run.get_bind, h]
    rfl

/-- **Lexical addressing is correct.**  Compilation finds every address where the scopes of the text
put it, and all that is declared in one body has slots of its own.  Every invocation has a record of
its own, inside the record in which the function was made.  Whatever one does with the program, each
record belongs to the body for whose invocation it was made, and records nest as the bodies do; no
run gets at a slot, a record or a label that is not there. -/
theorem addresses_hold (hs : s.InOrder) (hp : ofItems s items = .ok p) :
    Package.ofItemsChecked s.types s.hosts s.lowers items = .ok p.package ∧
    Invokes p.setting ∧
    ∀ actions, ∃ owners, (p.after actions).Nested p.package.Outermost owners ∧
      ∀ done a, done ++ [a] <+: actions → ∀ refusal,
        p.act a (p.after done) =
          Watch.act ⟨fun _ => false, some owners, refusal⟩ p a (p.after done) := by
  obtain ⟨hpackage, hsetting⟩ := ofItems_eq hp
  have hhosts : ∀ body ∈ p.setting.hosts, body.Confined := by
    rw [hsetting]
    exact hs.confined
  obtain ⟨slots, funcs, hlaid⟩ := Package.laid hs.numbered hpackage
  refine ⟨Package.ofItems_eq_checked hs.numbered items ▸ hpackage, invokes _, fun actions => ?_⟩
  obtain ⟨owners, hsound, hwatched⟩ := after_sound hlaid hhosts actions
  exact ⟨owners, hsound.nested, fun done a hpast refusal =>
    hwatched done a hpast _ ⟨fun _ _ => rfl, fun all hall => by
      cases hall
      exact List.prefix_refl owners⟩⟩

/-- `func next() func() int { n := 0; return func() int { n++; return n } }`, which makes closures
that outlive the record of `next`. -/
def counters : List Item :=
  let mention (name : Name) : Expr := .node .none (.ident name)
  let int : TypeExpr := .node .none (.named "int")
  let count : Sig := .mk [] [.mk none int] false
  let step : Expr := .node .none (.funcLit count (.mk
    [.node .none (.incDec (mention "n") true), .node .none (.return [mention "n"])] .none))
  [.func ⟨"next", none, .mk [] [.mk none (.node .none (.func count))] false,
    some (.mk [.node .none (.define ["n"] [.node .none (.int 0)]),
      .node .none (.return [step])] .none), .none⟩]

/-- Addresses hold in a program with closures that keep a variable of their own. -/
theorem counters_addresses_hold : ∃ p, ofItems .standard counters = .ok p ∧
    Package.ofItemsChecked Session.standard.types Session.standard.hosts Session.standard.lowers
      counters = .ok p.package ∧
    Invokes p.setting ∧
    ∀ actions, ∃ owners, (p.after actions).Nested p.package.Outermost owners ∧
      ∀ done a, done ++ [a] <+: actions → ∀ refusal,
        p.act a (p.after done) =
          Watch.act ⟨fun _ => false, some owners, refusal⟩ p a (p.after done) := by
  have hloads : (ofItems .standard counters).isOk = true := by decide +kernel
  cases hp : ofItems .standard counters with
  | error e =>
      rw [hp] at hloads
      cases hloads
  | ok p => exact ⟨p, rfl, addresses_hold Session.standard_inOrder hp⟩

end Program

end ScriptCore
