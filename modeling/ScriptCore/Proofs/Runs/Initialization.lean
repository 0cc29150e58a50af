import ScriptCore.Proofs.Runs.Programs

/-!
# Initialization of package variables

When a program that has done nothing yet is initialized, no code reads a package variable before the
statement that stores its initial value is done, through whatever calls.

The statements come in the order of compilation.  When the `i`-th one runs, values refer to none but
the host functions, the functions defined by the time it was compiled, and those made since the run
began.  These keep to the variables that existed then, which all have their values.  A variable
beyond those still holds what it started with: a function of the package that is not defined yet by
that time, or a zero.

If something has been done with the program before, values may refer to any function.

Main statements: `Program.Stage.next` (one statement), `Program.initFrom_same` (the run) and
`Program.initVars_reads_no_pending`.
-/

namespace ScriptCore

open Code

/-- A variable that a statement will store which is not among the first `done` ones. -/
def Package.pending (p : Package) (done slot : Nat) : Bool :=
  (p.init.instrs.toList.drop done).any fun i => i.stored.contains (1, slot)

/-- Variables below all that will be stored are not pending. -/
theorem Package.Laid.not_pending {p : Package} {hosts : Nat} {slots funcs : Nat → Nat}
    (h : p.Laid hosts slots funcs) {done slot : Nat} (hslot : slot < slots done) :
    p.pending done slot = false := by
  rw [Package.pending, List.any_eq_false]
  intro i hi hstored
  obtain ⟨k, hk⟩ := List.mem_iff_getElem?.1 hi
  rw [List.getElem?_drop, Array.getElem?_toList] at hk
  have hlt := h.stores (done + k) i hk (1, slot) (List.contains_iff_mem.1 hstored)
  have hmono := h.slots_mono done (done + k) (Nat.le_add_right done k)
  omega

namespace Program

variable {s : Session} {items : List Item} {p : Program} {slots funcs : Nat → Nat}

/-- The first part of the initialization: evaluate the initializers of the package variables. -/
def initVars (p : Program) : Run Unit := do
  let r ← Run.newRecord p.package.init.slots (some Machine.globals) []
  let _ ← runFrom ⟨p.setting.types, callValue p.setting fuel⟩ p.package.init r fuel .start

/-- Then the `init` functions are called. -/
theorem runInit_eq (p : Program) : p.runInit = (do
    p.initVars
    p.callSlots p.package.initFuncs) := by
  simp [runInit, initVars]

end Program

namespace Watch

/-- Run the initializers from a cursor on.  No statement may read the variables that it or a later
one stores. -/
noncomputable def initFrom (refusal : Failure) (p : Program) (r : Nat) : Nat → Cursor → Run Cursor
  | 0, _ => throw .outOfFuel
  | fuel + 1, c => do
    let w : Watch := ⟨p.package.pending c.position, none, refusal⟩
    match p.package.init.instrs[c.position]? with
    | none => return c
    | some i =>
      match ← w.execute ⟨p.setting.types, w.callValue p.setting Program.fuel⟩ r i with
      | .advance => initFrom refusal p r fuel c.advance
      | .jump label =>
        match p.package.init.labels[label]? with
        | some (some position) => initFrom refusal p r fuel (c.moveTo position)
        | _ => throw refusal
      | .stop results => return c.setResults results

/-- Evaluate the initializers of the package variables. -/
noncomputable def initVars (refusal : Failure) (p : Program) : Run Unit := do
  let r ← Run.newRecord p.package.init.slots (some Machine.globals) []
  let _ ← initFrom refusal p r Program.fuel .start

end Watch

namespace Program

variable {s : Session} {items : List Item} {p : Program} {slots funcs : Nat → Nat}

/-- What code may get at while the statement `i` of the initialization runs. -/
def stageBounds (p : Program) (slots funcs : Nat → Nat) (i : Nat) : Bounds where
  allowed n := n < p.setting.hosts.size + funcs i ∨
    p.setting.hosts.size + p.package.functions.size ≤ n
  globals := slots i
  room := p.package.globals.size
  initial s v := p.package.globals[s]? = some v
  tops := p.package.Outermost

/-- The machine when the statement `i` of the initialization begins. -/
structure Stage (p : Program) (slots funcs : Nat → Nat) (i : Nat) (owners : List Body)
    (m : Machine) : Prop where
  sound : Sound (p.stageBounds slots funcs i) owners m
  /-- The first record belongs to the initialization and lies in that of the package variables. -/
  owner : owners[0]? = some p.package.init
  outer : (m.record 1).outer = some Machine.globals
  /-- The functions of the program are still there. -/
  functions : ∀ (n : Nat) f, p.start.functions[n]? = some f → m.functions[n]? = some f

/-- Number of functions of a program before it has done anything. -/
theorem start_functions_size (p : Program) :
    p.start.functions.size = p.setting.hosts.size + p.package.functions.size := by
  simp [start, Machine.start]

namespace Stage

variable {i : Nat} {owners : List Body} {m : Machine}

/-- The record of the initialization lies in that of the package variables. -/
theorem inside (h : p.Stage slots funcs i owners m) :
    (Lasting.inside (p.stageBounds slots funcs i) p.package.init 0 [0, slots i]).holds owners m :=
  ⟨h.owner, .inner h.outer (Nat.zero_le _) (.globals (Nat.le_trans h.sound.le h.sound.room))⟩

/-- **More functions and more variables.**  What was sound while a statement ran is sound for the
next one. -/
theorem next (hlaid : p.package.Laid p.setting.hosts.size slots funcs)
    (h : p.Stage slots funcs i owners m) : p.Stage slots funcs (i + 1) owners m := by
  obtain ⟨hs, howner, houter, hfunctions⟩ := h
  have hsize : p.setting.hosts.size + p.package.functions.size ≤ m.functions.size := by
    rw [← start_functions_size]
    by_contra hlt
    have hn := hfunctions m.functions.size _ (Array.getElem?_eq_getElem (Nat.lt_of_not_le hlt))
    simp at hn
  have hallowed : ∀ n, (p.stageBounds slots funcs i).allowed n →
      (p.stageBounds slots funcs (i + 1)).allowed n := by
    rintro n (hn | hn)
    · exact .inl (Nat.lt_of_lt_of_le hn
        (Nat.add_le_add_left (hlaid.funcs_mono i (i + 1) (Nat.le_succ i)) _))
    · exact .inr hn
  have hvalue := Value.Only.mono hallowed
  have hmono := hlaid.slots_mono i (i + 1) (Nat.le_succ i)
  have hroom : slots (i + 1) ≤ (m.record Machine.globals).slots.size :=
    Nat.le_trans (hlaid.slots_le (i + 1)) hs.room
  refine ⟨?_, howner, houter, hfunctions⟩
  constructor
  case nested => exact hs.nested
  case le => exact hlaid.slots_le (i + 1)
  case room => exact hs.room
  case globals =>
    intro slot v hv
    rcases hs.globals slot v hv with hv | ⟨-, hinitial⟩
    · exact .inl (hvalue v hv)
    · rcases Nat.lt_or_ge slot (slots (i + 1)) with hlt | hge
      · exact .inl ((hlaid.valuesAt (i + 1) slot v hlt hinitial).mono (fun _ hn => .inl hn) v)
      · exact .inr ⟨hge, hinitial⟩
  case locals => exact fun k slot v hv => hvalue v (hs.locals k slot v hv)
  case heap => exact hs.heap.mono hallowed
  case functions =>
    rintro n f hf (hn | hn)
    · -- a function that was there when the program started
      obtain ⟨f', hf'⟩ : ∃ f', p.start.functions[n]? = some f' :=
        ⟨_, Array.getElem?_eq_getElem (by
          have hfuncs := hlaid.funcs_le (i + 1)
          rw [start_functions_size]
          omega)⟩
      obtain rfl : f' = f := Option.some.inj ((hfunctions n f' hf').symm.trans hf)
      rcases start_function hf' with ⟨-, rfl⟩ | ⟨k, g, rfl, hg, rfl⟩
      · trivial
      · refine ⟨[slots (i + 1)], .globals hroom, (hlaid.bodiesAt (i + 1) k g ?_ hg).mono
          (fun n hn => .inl (Nat.lt_add_right _ hn)) (.refl _)⟩
        omega
    · -- one that was made since
      have hkeeps := hs.functions n f hf (.inr hn)
      cases f with
      | closure body r =>
          obtain ⟨sizes, hchain, hbody⟩ := hkeeps
          obtain ⟨sizes', hchain', hroomier⟩ := hchain.roomier hmono hroom
          exact ⟨sizes', hchain', hbody.mono hallowed hroomier⟩
      | host _ => trivial
      | bound method recv => exact ⟨hvalue method hkeeps.1, hvalue recv hkeeps.2⟩
  case fresh => exact fun n hn => .inr (Nat.le_trans hsize hn)

/-- In the record of the initialization there is a slot for every variable of the package. -/
theorem covers {slot : Nat} (hslot : slot < p.package.globals.size) :
    (p.stageBounds slots funcs i).Covers 0 [0, slots i] .store 1 slot := by
  intro m hchain hroom
  cases hchain with
  | inner houter _ hrest =>
      cases hrest with
      | globals =>
          refine ⟨Machine.globals, ?_, Nat.lt_of_lt_of_le hslot hroom, fun h => nomatch h⟩
          rw [Machine.ancestor?, houter]
          rfl
      | inner _ _ hnone => cases hnone

/-- **A statement of the initialization** does not read a variable that it or a later one will
store, and the run goes on with the next one. -/
theorem execute (hlaid : p.package.Laid p.setting.hosts.size slots funcs)
    (hhosts : ∀ body ∈ p.setting.hosts, body.Confined) (h : p.Stage slots funcs i owners m)
    {instr : Instr} (hi : p.package.init.instrs[i]? = some instr) :
    let run := ScriptCore.execute ⟨p.setting.types, callValue p.setting fuel⟩ 1 instr
    (∀ refusal, let w : Watch := ⟨p.package.pending i, none, refusal⟩
      run m = w.execute ⟨p.setting.types, w.callValue p.setting fuel⟩ 1 instr m) ∧
    (∀ next m', run m = .ok next m' → next = .advance) ∧
    ∃ owners', p.Stage slots funcs i owners' (Run.after run m) := by
  have hmem := Array.mem_of_getElem? hi
  have hneeds : (p.stageBounds slots funcs i).Inside p.package.init [0, slots i] instr.needs :=
    fun x hx => ⟨(hlaid.needs i instr hi x hx).mono (fun n hn => .inl (Nat.lt_add_right _ hn))
      (.refl _),
      List.mem_flatMap.2 ⟨instr, Array.mem_toList_iff.2 hmem, Instr.mem_parts.2 (.inl hx)⟩⟩
  have hstored : ∀ a ∈ instr.stored,
      (p.stageBounds slots funcs i).Covers 0 [0, slots i] .store a.1 a.2 := fun a ha => by
    obtain ⟨hdepth, -, hlt⟩ := hlaid.stores i instr hi a ha
    rw [hdepth]
    exact covers (Nat.lt_of_lt_of_le hlt (hlaid.slots_le _))
  have hleaves : Leaves (p.stageBounds slots funcs i) owners m
      (ScriptCore.execute ⟨p.setting.types, callValue p.setting fuel⟩ 1 instr)
      (fun w => w.execute ⟨p.setting.types, w.callValue p.setting fuel⟩ 1 instr)
      (·.Follows (p.stageBounds slots funcs i) instr) :=
    execute_keeps (callValue_keeps hhosts fuel) instr hneeds hstored owners m h.sound h.inside
  obtain ⟨⟨owners', hlater, hs', hsame⟩, hresults⟩ := hleaves
  refine ⟨fun refusal => hsame _ ⟨fun slot hslot => hlaid.not_pending hslot, fun _ h => nomatch h⟩,
    fun next m' hrun => ?_, owners', hs', hlater.owner h.owner, hlater.outer _ _ h.outer,
    fun n f hf => hlater.functions n f (h.functions n f hf)⟩
  -- a statement that stores neither jumps nor returns
  have hstore := hlaid.initStores instr hmem
  have hnext := hresults next m' hrun
  cases next with
  | advance => rfl
  | jump label => cases instr <;> cases hstore <;> cases hnext
  | stop values =>
      rw [hnext.1] at hstore
      cases hstore

end Stage

/-- **The initializers run as under the watch**, from any statement on. -/
theorem initFrom_same (hlaid : p.package.Laid p.setting.hosts.size slots funcs)
    (hhosts : ∀ body ∈ p.setting.hosts, body.Confined) (refusal : Failure) (steps : Nat) :
    ∀ {c : Cursor} {owners : List Body} {m : Machine}, c.position ≤ Labels.unbound →
      p.Stage slots funcs c.position owners m →
      runFrom ⟨p.setting.types, callValue p.setting fuel⟩ p.package.init 1 steps c m =
        Watch.initFrom refusal p 1 steps c m := by
  induction steps with
  | zero => exact fun _ _ => rfl
  | succ steps ih =>
      intro c owners m hposition h
      rw [runFrom, Watch.initFrom]
      cases hi : p.package.init.instrs[c.position]? with
      | none => rfl
      | some instr =>
          obtain ⟨hsame, hadvance, owners', hstage⟩ := h.execute hlaid hhosts hi
          show EStateM.bind _ _ m = EStateM.bind _ _ m
          rw [EStateM.bind, EStateM.bind, ← hsame refusal]
          cases hrun : execute ⟨p.setting.types, callValue p.setting fuel⟩ 1 instr m with
          | error e m' => rfl
          | ok next m' =>
              cases hadvance next m' hrun
              rw [Run.after, hrun] at hstage
              refine @ih c.advance owners' m' (Nat.min_le_right _ _) ?_
              -- the last position has none after it
              rcases Nat.lt_or_ge c.position Labels.unbound with hlt | hge
              · rw [Cursor.advance_of_lt hlt]
                exact hstage.next hlaid
              · have heq : c.advance.position = c.position :=
                  (Nat.min_eq_right (Nat.le_succ_of_le hge)).trans (Nat.le_antisymm hge hposition)
                rw [heq]
                exact hstage

/-- The stage at which the first statement begins. -/
theorem stage_zero (hlaid : p.package.Laid p.setting.hosts.size slots funcs) :
    p.Stage slots funcs 0 [p.package.init] (p.start.invoked p.package.init Machine.globals []) := by
  have hstart : Sound (p.stageBounds slots funcs 0) [] p.start := by
    refine start_sound rfl (hlaid.slots_le 0) (Nat.le_refl _) (fun slot v hv => ?_)
      (fun k f hf hk => ?_) fun n hn => .inr hn
    · rcases Nat.lt_or_ge slot (slots 0) with hlt | hge
      · exact .inl ((hlaid.valuesAt 0 slot v hlt hv).mono (fun _ hn => .inl hn) v)
      · exact .inr ⟨hge, hv⟩
    · have hlt := (Array.getElem?_eq_some_iff.1 hf).1
      have hk : k < funcs 0 := by
        rcases hk with hk | hk <;> omega
      exact (hlaid.bodiesAt 0 k f hk hf).mono (fun n hn => .inl (Nat.lt_add_right _ hn)) (.refl _)
  refine ⟨hstart.invoke (.inl rfl) (List.forall_mem_nil _), rfl, ?_, fun _ _ h => h⟩
  exact congrArg Record.outer
    (Machine.record_invoked_self p.start p.package.init Machine.globals [])

/-- **Initialization safety.**  If the initialization is the first thing that one does with a
program, then up to the first call of an `init` function nothing reads a package variable before the
statement that stores its initial value is done. -/
theorem initVars_reads_no_pending (hs : s.InOrder) (hp : ofItems s items = .ok p) :
    p.runInit = (do
      p.initVars
      p.callSlots p.package.initFuncs) ∧
    ∀ refusal, p.initVars p.start = Watch.initVars refusal p p.start := by
  obtain ⟨hpackage, hsetting⟩ := ofItems_eq hp
  have hhosts : ∀ body ∈ p.setting.hosts, body.Confined := by
    rw [hsetting]
    exact hs.confined
  obtain ⟨slots, funcs, hlaid⟩ := Package.laid hs.numbered hpackage
  rw [hs.count, show s.bodies.size = p.setting.hosts.size by rw [hsetting]] at hlaid
  refine ⟨runInit_eq p, fun refusal => ?_⟩
  have hsame := initFrom_same hlaid hhosts refusal fuel (c := .start) (Nat.zero_le _)
    (stage_zero hlaid)
  have hnew : Run.newRecord p.package.init.slots (some Machine.globals) [] p.start =
      .ok 1 (p.start.invoked p.package.init Machine.globals []) := rfl
  rw [initVars, Watch.initVars]
  show EStateM.bind _ _ _ = EStateM.bind _ _ _
  rw [EStateM.bind, EStateM.bind, hnew]
  show EStateM.bind _ _ _ = EStateM.bind _ _ _
  rw [EStateM.bind, EStateM.bind, hsame]

/-- A variable `b` is initialized by a call of `h`, which returns 7 unless `g` holds a function to
call.  A function `setup` stores one in `g` that reads the variable `z`, whose initializer comes
after that of `b`. -/
def overridden : List Item :=
  let mention (name : Name) : Expr := .node .none (.ident name)
  let number (n : Int) : Expr := .node .none (.int n)
  let call (name : Name) : Expr := .node .none (.call (mention name) [])
  let toInt : Sig := .mk [] [.mk none (.node .none (.named "int"))] false
  let give (e : Expr) : Stmt := .node .none (.return [e])
  let func (name : Name) (sig : Sig) (stmts : List Stmt) : Item :=
    .func ⟨name, none, sig, some (.mk stmts .none), .none⟩
  [.var [.mk ["g"] (some (.node .none (.func toInt))) [] .none],
    func "h" toInt [.node .none (.cond
      (.node .none (.binary .notEq (mention "g") (.node .none .nil)))
      (.mk [give (call "g")] .none) none), give (number 7)],
    .var [.mk ["b"] none [call "h"] .none],
    .var [.mk ["z"] none [number 5] .none],
    func "setup" (.mk [] [] false) [.node .none (.assign [mention "g"]
      [.node .none (.funcLit toInt (.mk [give (mention "z")] .none))])]]

/-- The first initialization of this program reads no pending variable. -/
theorem overridden_initVars : ∃ p, ofItems .standard overridden = .ok p ∧
    p.runInit = (do
      p.initVars
      p.callSlots p.package.initFuncs) ∧
    ∀ refusal, p.initVars p.start = Watch.initVars refusal p p.start := by
  have hloads : (ofItems .standard overridden).isOk = true := by decide +kernel
  cases hp : ofItems .standard overridden with
  | error e =>
      rw [hp] at hloads
      cases hloads
  | ok p => exact ⟨p, rfl, initVars_reads_no_pending Session.standard_inOrder hp⟩

/-- The run ends well. -/
def endsWell {α : Type} (run : Run α) (m : Machine) : Bool :=
  match run m with
  | .ok _ _ => true
  | .error _ _ => false

/-- After a call of `setup` the initialization reads a variable that is still pending. -/
theorem overridden_reads_pending : ∃ p, ofItems .standard overridden = .ok p ∧
    ¬ ∀ refusal, p.initVars (p.after [.call "setup" []]) =
      Watch.initVars refusal p (p.after [.call "setup" []]) := by
  have hruns : (ofItems .standard overridden).toOption.elim false (fun p =>
      endsWell p.initVars (p.after [.call "setup" []]) &&
        !endsWell (Watch.initVars .outOfFuel p) (p.after [.call "setup" []])) = true := by
    decide +kernel
  cases hp : ofItems .standard overridden with
  | error e =>
      rw [hp] at hruns
      cases hruns
  | ok p =>
      rw [hp] at hruns
      simp only [Except.toOption, Option.elim, Bool.and_eq_true, Bool.not_eq_true'] at hruns
      refine ⟨p, rfl, fun hsame => ?_⟩
      have heq := hsame .outOfFuel
      simp only [endsWell] at hruns
      rw [heq] at hruns
      exact absurd (hruns.1.symm.trans hruns.2) (by decide)

end Program

end ScriptCore
