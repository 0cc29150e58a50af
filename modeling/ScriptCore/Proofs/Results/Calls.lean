import ScriptCore.Machine.Execute
import ScriptCore.Proofs.Addressing.Parts
import ScriptCore.Proofs.Assignment.Together
import ScriptCore.Proofs.Runs.Execution

/-!
# Calls give what they declare

A function value declares a number of results: a closure that of its body, a host function that of
its type, and a method with its receiver that of the method.

A return of the form `return f()` hands on whatever the call gives, and types alone have checked
that it fits.  An inspected run looks at the function value before such a call: if it declares
another number of results than the body that returns, the run ends with a failure that the
inspection names.  If calls are counted as well, so does a run in which some call gives another
number of results than the function value declares.  Otherwise an inspected run does what the run
does.  So calls give what they declare as long as nothing else is handed on if counting makes no
difference to an inspected run, whatever the failures are.

In an inspected run on a sound machine every call of a function value that succeeds gives as many
results as the function value declares, so counting them makes no difference.  This is by induction
on the fuel.  Inside a body the invariant of the run is that the next instruction is one of the
body; a body falls off its end only past its last instruction, and that one is a return unless the
body declares no results.

Host functions must give as many results as their types say, whatever way to call functions they are
given.

Main statements: `Machine.Declares.unique`, `Inspection.execute_counts`,
`Inspection.runFrom_counts` and `Inspection.callValue_counts`.
-/

namespace ScriptCore

open Code

/-! ### Inspected runs -/

/-- A function value declares so many results; `hosts` tells it for host functions. -/
inductive Machine.Declares (hosts : Nat → Nat) (m : Machine) : Value → Nat → Prop where
  | closure {ref : Nat} {name : Name} {body : Body} {outer : Nat} :
      m.functions[ref]? = some (.closure body outer) →
      Declares hosts m (.func ref name) body.resultCount
  | host {ref : Nat} {name : Name} {index : Nat} :
      m.functions[ref]? = some (.host index) →
      Declares hosts m (.func ref name) (hosts index)
  | bound {ref : Nat} {name : Name} {method recv : Value} {count : Nat} :
      m.functions[ref]? = some (.bound method recv) → Declares hosts m method count →
      Declares hosts m (.func ref name) count

/-- No function value declares two numbers. -/
theorem Machine.Declares.unique {hosts : Nat → Nat} {m : Machine} {f : Value} {count other : Nat}
    (h : m.Declares hosts f count) (h' : m.Declares hosts f other) : count = other := by
  induction h with
  | closure hf =>
      cases h' with
      | closure hf' =>
          cases hf.symm.trans hf'
          rfl
      | host hf' => cases hf.symm.trans hf'
      | bound hf' _ => cases hf.symm.trans hf'
  | host hf =>
      cases h' with
      | closure hf' => cases hf.symm.trans hf'
      | host hf' =>
          cases hf.symm.trans hf'
          rfl
      | bound hf' _ => cases hf.symm.trans hf'
  | bound hf _ ih =>
      cases h' with
      | closure hf' => cases hf.symm.trans hf'
      | host hf' => cases hf.symm.trans hf'
      | bound hf' hmethod =>
          cases hf.symm.trans hf'
          exact ih hmethod

/-- What a run is inspected for. -/
structure Inspection where
  /-- Numbers of results that host functions declare. -/
  hosts : Nat → Nat
  /-- How a run ends that would hand on the results of a function value which declares another
  number than the body that returns. -/
  mismatch : Failure
  /-- How a run ends in which a call gives another number of results than the function value
  declares; nothing if calls are not counted. -/
  miscount : Option Failure

namespace Inspection

variable (i : Inspection)

open Classical in
/-- Go on if the function value declares as many results as the body, as far as it declares a
number. -/
noncomputable def handOn (body : Body) (f : Value) : Run Unit := fun m =>
  if ∀ count, m.Declares i.hosts f count → count = body.resultCount then .ok () m
  else .error i.mismatch m

open Classical in
/-- Results of a call that was made on the machine `before`. -/
noncomputable def tally (before : Machine) (f : Value) (results : List Value) :
    Run (List Value) :=
  match i.miscount with
  | none => pure results
  | some failure =>
    if before.Declares i.hosts f results.length then pure results else throw failure

/-- Run one instruction of a body in the record `r`. -/
noncomputable def execute (x : Context) (body : Body) (r : Nat) : Instr → Run Next
  | .retCall (.direct func none args) => do
    let f ← eval x r func
    let vs ← evalArgs x r args
    i.handOn body f
    return .stop (← x.call f vs)
  | .retCall (.direct func (some recv) args) => do
    let v ← eval x r recv
    let f ← eval x r func
    let vs ← evalArgs x r args
    i.handOn body f
    return .stop (← x.call f (v :: vs))
  | instr => ScriptCore.execute x r instr

/-- Run a body in the record `r` from a cursor on, for at most `fuel` instructions. -/
noncomputable def runFrom (x : Context) (body : Body) (r : Nat) : Nat → Cursor → Run Cursor
  | 0, _ => throw .outOfFuel
  | fuel + 1, c => do
    match body.instrs[c.position]? with
    | none => return c
    | some instr =>
      match ← i.execute x body r instr with
      | .advance => runFrom x body r fuel c.advance
      | .jump label => runFrom x body r fuel (c.moveTo (body.labels.target label))
      | .stop results => return c.setResults results

/-- Call a function value. -/
noncomputable def callValue (p : Setting) : Nat → Value → List Value → Run (List Value)
  | 0, _, _ => throw .outOfFuel
  | fuel + 1, .func ref name, args => do
    let before ← get
    match before.functions[ref]? with
    | some (.closure body outer) =>
      let results ← ScriptCore.counted p.limit do
        let r ← Run.newRecord body.slots (some outer) args
        let c ← i.runFrom ⟨p.types, callValue p fuel⟩ body r fuel .start
        return c.results
      i.tally before (.func ref name) results
    | some (.host index) =>
      match p.hosts[index]? with
      | some body => do
        i.tally before (.func ref name) (← body (callValue p fuel) args)
      | none => Run.fail .nilFuncCall
    | some (.bound method recv) => do
      i.tally before (.func ref name) (← callValue p fuel method (recv :: args))
    | none => Run.fail .nilFuncCall
  | _ + 1, _, _ => Run.fail .nilFuncCall

end Inspection

/-! ### What an instruction gives -/

/-- A run that succeeds gives only results with a property. -/
def Run.Gives {α : Type} (P : α → Prop) (run : Run α) : Prop :=
  ∀ m a m', run m = .ok a m' → P a

namespace Run.Gives

variable {α β : Type} {P : α → Prop}

/-- A result. -/
theorem pure {a : α} (h : P a) : Run.Gives P (Pure.pure a : Run α) := by
  rintro m b m' ⟨⟩
  exact h

/-- What comes last decides. -/
theorem bind {p : Run β} {f : β → Run α} (h : ∀ b, Run.Gives P (f b)) :
    Run.Gives P (p >>= f) := by
  intro m a m' ha
  obtain ⟨b, m₁, -, hb⟩ := run_bind_ok ha
  exact h b m₁ a m' hb

/-- What comes last decides, knowing what came before. -/
theorem bind_of {Q : β → Prop} {p : Run β} {f : β → Run α} (hp : Run.Gives Q p)
    (h : ∀ b, Q b → Run.Gives P (f b)) : Run.Gives P (p >>= f) := by
  intro m a m' ha
  obtain ⟨b, m₁, hb, hrest⟩ := run_bind_ok ha
  exact h b (hp m b m₁ hb) m₁ a m' hrest

end Run.Gives

/-- What may follow an instruction: a return of values stops with as many, the removal of a key with
none, and nothing but a return stops. -/
def Next.After (i : Instr) : Next → Prop
  | .advance => ∀ values, i ≠ .ret values
  | .jump _ => True
  | .stop results =>
    (∃ values, i = .ret values ∧ results.length = values.length) ∨
      ∃ call, i = .retCall call ∧ ∀ map key, call = .delete map key → results = []

/-- Removal of a key has no results. -/
theorem removeKey_gives (map key : Value) : Run.Gives (· = []) (removeKey map key) := by
  unfold removeKey
  split
  · exact .bind fun _ => .pure rfl
  · exact .pure rfl

/-- What an instruction gives is up to its kind. -/
theorem execute_gives (x : Context) (r : Nat) (i : Instr) :
    Run.Gives (Next.After i) (execute x r i) := by
  cases i with
  | eval e => exact .bind fun _ => .pure fun _ h => Instr.noConfusion h
  | run call => exact .bind fun _ => .pure fun _ h => Instr.noConfusion h
  | store container key value =>
      exact .bind fun _ => .bind fun _ => .bind fun _ => .bind fun _ =>
        .pure fun _ h => Instr.noConfusion h
  | update container key op kind value zero =>
      exact .bind fun _ => .bind fun _ => .bind fun _ => .bind fun _ => .bind fun _ =>
        .bind fun _ => .pure fun _ h => Instr.noConfusion h
  | setSlots stores => exact .bind fun _ => .bind fun _ => .pure fun _ h => Instr.noConfusion h
  | spread call depth slots =>
      exact .bind fun _ => .bind fun _ => .bind fun _ => .pure fun _ h => Instr.noConfusion h
  | jump label => exact .pure trivial
  | branch condition label =>
      refine .bind fun v => ?_
      split
      · exact .pure fun _ h => Instr.noConfusion h
      · exact .pure trivial
  | ret values =>
      have hvalues : Run.Gives (·.length = values.length) (evalAll x r values) :=
        fun _ _ _ h => evalAll_length h
      exact .bind_of hvalues fun vs hvs => .pure (.inl ⟨values, rfl, hvs⟩)
  | retCall call =>
      cases call with
      | direct func recv args =>
          exact .bind fun vs => .pure (.inr ⟨_, rfl, fun _ _ h => Call.noConfusion h⟩)
      | delete map key =>
          have hnone : Run.Gives (· = []) (evalCall x r (.delete map key)) :=
            .bind fun m => .bind fun k => removeKey_gives m k
          exact .bind_of hnone fun vs hvs => .pure (.inr ⟨_, rfl, fun _ _ _ => hvs⟩)

/-! ### Two runs without a watch -/

/-- A watch that admits everything there is. -/
def Watch.idle : Watch :=
  ⟨fun _ => false, none, .outOfFuel⟩

/-- It agrees with all bounds. -/
theorem Watch.idle_agrees (B : Bounds) (owners : List Body) : Watch.idle.Agrees B owners := by
  refine ⟨fun _ _ => rfl, fun all hall => ?_⟩
  cases hall

/-- It knows no owners of records. -/
theorem Watch.idle_checkOwner (r : Nat) (body : Body) : Watch.idle.checkOwner r body = pure () :=
  rfl

section
variable {α : Type} {B : Bounds} {owners : List Body} {m : Machine} {p p' : Run α}
variable {q : Watch → Run α} {Q : α → Prop}

/-- The watched run may be the run under the watch that admits everything. -/
theorem Leaves.eq_idle (h : Leaves B owners m p q Q) : p m = q .idle m := by
  obtain ⟨⟨owners', -, -, hsame⟩, -⟩ := h
  exact hsame .idle (Watch.idle_agrees B owners')

/-- It may also be any computation that does the same as that one. -/
theorem Leaves.unwatched (h : Leaves B owners m p q Q) (heq : p' m = q .idle m) :
    Leaves B owners m p (fun _ => p') Q := by
  have hsame : p m = p' m := h.eq_idle.trans heq.symm
  obtain ⟨⟨owners', hlater, hs', -⟩, hresults⟩ := h
  exact ⟨⟨owners', hlater, hs', fun _ _ => hsame⟩, hresults⟩

/-- What does the same as a computation that leaves a sound machine behind does so as well. -/
theorem Leaves.other (h : Leaves B owners m p (fun _ => p') Q) :
    Leaves B owners m p' (fun _ => p') Q := by
  have hsame : p m = p' m := h.eq_idle
  have hafter : Run.after p' m = Run.after p m := by rw [Run.after, Run.after, hsame]
  obtain ⟨⟨owners', hlater, hs', -⟩, hresults⟩ := h
  refine ⟨⟨owners', hafter ▸ hlater, hafter ▸ hs', fun _ _ => rfl⟩, fun a m' ha => ?_⟩
  exact hresults a m' (hsame.trans ha)

end

/-- A body runs in a new record, with no watch on that. -/
theorem Leaves.enter_unwatched {α : Type} {B : Bounds} {owners : List Body} {m : Machine}
    {body : Body} {outer : Nat} {args : List Value} {run run' : Nat → Run α} {sizes : List Nat}
    {Q : α → Prop} (hs : Sound B owners m) (hchain : m.Chain B.globals outer sizes)
    (hstands : Stands B.tops owners outer body) (hargs : ∀ v ∈ args, v.Only B.allowed)
    (hrun : Keeps B (.inside B body owners.length (body.slots :: sizes))
      (run (owners.length + 1)) (fun _ => run' (owners.length + 1)) Q) :
    Leaves B owners m (Run.newRecord body.slots (some outer) args >>= run)
      (fun _ => Run.newRecord body.slots (some outer) args >>= run') Q := by
  have hwatched : Leaves B owners m (Run.newRecord body.slots (some outer) args >>= run)
      (fun w => Run.newRecord body.slots (some outer) args >>= fun r =>
        w.checkOwner r body >>= fun _ => run' r) Q := .enter hs hchain hstands hargs hrun
  refine hwatched.unwatched ?_
  simp only [Watch.idle_checkOwner, pure_bind]

/-- A function runs its body in a new record, with no watch on that. -/
theorem Leaves.invoke_unwatched {α : Type} {B : Bounds} {owners : List Body} {m : Machine}
    {limit : Option Nat} {body : Body} {outer : Nat} {args : List Value} {run run' : Nat → Run α}
    {Q : α → Prop} (hs : Sound B owners m) (hfunction : (Function.closure body outer).Keeps B m)
    (hstands : Stands B.tops owners outer body) (hargs : ∀ v ∈ args, v.Only B.allowed)
    (hrun : ∀ k sizes, body.Within B.allowed sizes →
      Keeps B (.inside B body k (body.slots :: sizes)) (run (k + 1)) (fun _ => run' (k + 1)) Q) :
    Leaves B owners m
      (ScriptCore.counted limit (Run.newRecord body.slots (some outer) args >>= run))
      (fun _ => ScriptCore.counted limit (Run.newRecord body.slots (some outer) args >>= run')) Q := by
  have hwatched : Leaves B owners m
      (ScriptCore.counted limit (Run.newRecord body.slots (some outer) args >>= run))
      (fun w => ScriptCore.counted limit (Run.newRecord body.slots (some outer) args >>= fun r =>
        w.checkOwner r body >>= fun _ => run' r)) Q := .invoke hs hfunction hstands hargs hrun
  refine hwatched.unwatched ?_
  simp only [Watch.idle_checkOwner, pure_bind]

namespace Keeps

variable {α : Type} {B : Bounds} {K : Lasting} {p p' : Run α} {q : Watch → Run α} {Q R : α → Prop}

/-- Computations that do the same under a watch do the same. -/
theorem unwatched (h : Keeps B K p q Q) (h' : Keeps B K p' q Q) : Keeps B K p (fun _ => p') Q :=
  fun owners m hs hk => (h owners m hs hk).unwatched (h' owners m hs hk).eq_idle

/-- What the results are known to be besides. -/
theorem gives (h : Keeps B K p q Q) (hR : Run.Gives R p) :
    Keeps B K p q fun a => Q a ∧ R a := by
  intro owners m hs hk
  obtain ⟨hsound, hresults⟩ := h owners m hs hk
  exact ⟨hsound, fun a m' ha => ⟨hresults a m' ha, hR m a m' ha⟩⟩

end Keeps

/-! ### Instructions -/

/-- Two ways to call functions that do the same and keep a machine sound, and that give as many
results as function values declare. -/
def Counts (B : Bounds) (hosts : Nat → Nat) (call call' : Value → List Value → Run (List Value)) :
    Prop :=
  ∀ f args owners m, f.Only B.allowed → (∀ v ∈ args, v.Only B.allowed) → Sound B owners m →
    Leaves B owners m (call f args) (fun _ => call' f args) fun vs =>
      (∀ v ∈ vs, v.Only B.allowed) ∧ m.Declares hosts f vs.length

section
variable {B : Bounds} {hosts : Nat → Nat} {types : TypeTable}
variable {call call' : Value → List Value → Run (List Value)}
variable {owner : Body} {k : Nat} {sizes tail : List Nat}

/-- They keep a machine sound. -/
theorem Counts.calls (h : Counts B hosts call call') : Calls B call fun _ => call' :=
  fun f args hf hargs owners m hs _ => (h f args owners m hf hargs hs).imp fun _ hvs => hvs.1

/-- So does the second one. -/
theorem Counts.calls_other (h : Counts B hosts call call') : Calls B call' fun _ => call' :=
  fun f args hf hargs owners m hs hk => (h.calls f args hf hargs owners m hs hk).other

/-- An expression means the same with both. -/
theorem eval_counts (h : Counts B hosts call call') (e : Code.Expr)
    (he : B.Inside owner sizes e.parts) :
    Keeps B (.inside B owner k sizes) (eval ⟨types, call⟩ (k + 1) e)
      (fun _ => eval ⟨types, call'⟩ (k + 1) e) (·.Only B.allowed) :=
  (eval_keeps h.calls e he).unwatched (eval_keeps h.calls_other e he)

/-- Arguments mean the same with both. -/
theorem evalArgs_counts (h : Counts B hosts call call') (args : Args)
    (hargs : B.Inside owner sizes args.parts) :
    Keeps B (.inside B owner k sizes) (evalArgs ⟨types, call⟩ (k + 1) args)
      (fun _ => evalArgs ⟨types, call'⟩ (k + 1) args) fun vs => ∀ v ∈ vs, v.Only B.allowed :=
  (evalArgs_keeps h.calls args hargs).unwatched (evalArgs_keeps h.calls_other args hargs)

/-- An instruction of a body that keeps to the bounds means the same with both. -/
theorem execute_same (h : Counts B hosts call call') (howner : owner.Within B.allowed tail)
    {i : Instr} (hi : i ∈ owner.instrs) :
    Keeps B (.inside B owner k (owner.slots :: tail)) (execute ⟨types, call⟩ (k + 1) i)
      (fun _ => execute ⟨types, call'⟩ (k + 1) i) fun next => next.Follows B i ∧ next.After i :=
  ((execute_keeps_of_mem h.calls howner hi).unwatched
    (execute_keeps_of_mem h.calls_other howner hi)).gives (execute_gives _ _ i)

end

/-- Where the run of a body may go on after an instruction: past it if it is no return, to its
label, or nowhere with as many results as the body declares. -/
def Next.Within (B : Bounds) (owner : Body) (i : Instr) : Next → Prop
  | .advance => ∀ values, i ≠ .ret values
  | .jump label => i.label? = some label
  | .stop results => (∀ v ∈ results, v.Only B.allowed) ∧ results.length = owner.resultCount

/-- What follows an instruction that hands on no results of function values. -/
theorem Next.within_of_after {B : Bounds} {owner : Body} {i : Instr} (hi : i ∈ owner.instrs)
    (hreturns : owner.Returns) (hdirect : ∀ func recv args, i ≠ .retCall (.direct func recv args))
    {next : Next} (h : next.Follows B i) (hafter : next.After i) : next.Within B owner i := by
  have hcount := hreturns i hi
  cases next with
  | advance => exact hafter
  | jump label => exact h
  | stop results =>
      refine ⟨h.2, ?_⟩
      rcases hafter with ⟨values, rfl, hlength⟩ | ⟨call, rfl, hdelete⟩
      · exact hlength.trans hcount
      · cases call with
        | direct func recv args => exact absurd rfl (hdirect func recv args)
        | delete map key =>
            have hzero : owner.resultCount = 0 := hcount
            rw [hdelete map key rfl, hzero, List.length_nil]

namespace Inspection

section
variable {B : Bounds} {hosts : Nat → Nat} {types : TypeTable}
variable {call call' : Value → List Value → Run (List Value)}
variable {owner : Body} {k : Nat} {tail : List Nat}
variable (mismatch miscount : Failure)

/-- **Only matching results are handed on**: after the inspection of a function value its call gives
as many results as the body declares. -/
theorem handOn_counts {K : Lasting} (h : Counts B hosts call call') {f : Value} {vs : List Value}
    (hf : f.Only B.allowed) (hvs : ∀ v ∈ vs, v.Only B.allowed) (i : Instr) :
    Keeps B K
      (handOn ⟨hosts, mismatch, none⟩ owner f >>= fun _ => call f vs >>= fun rs => pure (.stop rs))
      (fun _ => handOn ⟨hosts, mismatch, some miscount⟩ owner f >>= fun _ =>
        call' f vs >>= fun rs => pure (.stop rs))
      (Next.Within B owner i) := by
  intro owners m hs hk
  by_cases hdeclared : ∀ count, m.Declares hosts f count → count = owner.resultCount
  · have hpass : ∀ miscount?, handOn ⟨hosts, mismatch, miscount?⟩ owner f m = .ok () m :=
      fun _ => if_pos hdeclared
    refine .andThen (hpass none) (fun _ _ => hpass (some miscount)) (.refl owners m) ?_
    refine (h f vs owners m hf hvs hs).bind fun rs owners' m' hlater hs' hrs => ?_
    have hstop : Next.Within B owner i (.stop rs) := ⟨hrs.1, hdeclared rs.length hrs.2⟩
    exact Keeps.pure (K := K) hstop owners' m' hs' (K.lasts hlater hk)
  · have hrefused : ∀ miscount?,
        handOn ⟨hosts, mismatch, miscount?⟩ owner f m = .error mismatch m :=
      fun _ => if_neg hdeclared
    have hrun : ∀ miscount? (rest : Run Next),
        (handOn ⟨hosts, mismatch, miscount?⟩ owner f >>= fun _ => rest) m = .error mismatch m := by
      intro miscount? rest
      change EStateM.bind _ _ m = _
      rw [EStateM.bind, hrefused miscount?]
    exact .error (hrun none _) (fun _ _ => hrun (some miscount) _) (.refl owners m) hs

/-- **An instruction means the same with calls counted**, and stops a body only with as many results
as this declares. -/
theorem execute_counts (h : Counts B hosts call call') (howner : owner.Within B.allowed tail)
    {i : Instr} (hi : i ∈ owner.instrs) :
    Keeps B (.inside B owner k (owner.slots :: tail))
      (execute ⟨hosts, mismatch, none⟩ ⟨types, call⟩ owner (k + 1) i)
      (fun _ => execute ⟨hosts, mismatch, some miscount⟩ ⟨types, call'⟩ owner (k + 1) i)
      (Next.Within B owner i) := by
  have hplain : (∀ func recv args, i ≠ .retCall (.direct func recv args)) →
      Keeps B (.inside B owner k (owner.slots :: tail))
        (ScriptCore.execute ⟨types, call⟩ (k + 1) i)
        (fun _ => ScriptCore.execute ⟨types, call'⟩ (k + 1) i) (Next.Within B owner i) :=
    fun hdirect => (execute_same h howner hi).imp fun next hnext =>
      Next.within_of_after hi howner.returns hdirect hnext.1 hnext.2
  have hparts : B.Inside owner (owner.slots :: tail) i.sources := fun x hx => by
    have hmem : x ∈ owner.parts := List.mem_flatMap.2
      ⟨i, Array.mem_toList_iff.2 hi, List.mem_append_left _ hx⟩
    exact ⟨howner.parts x hmem, hmem⟩
  cases i with
  | retCall c =>
      cases c with
      | delete map key => exact hplain fun _ _ _ hne => by cases hne
      | direct func recv args =>
          change B.Inside owner _ (func.parts ++ (partsOf? recv ++ args.parts)) at hparts
          rw [Bounds.inside_append, Bounds.inside_append] at hparts
          obtain ⟨hfunc, hrecv, hargs⟩ := hparts
          cases recv with
          | none =>
              exact .bind (eval_counts h func hfunc) fun f hf =>
                .bind (evalArgs_counts h args hargs) fun vs hvs =>
                  handOn_counts mismatch miscount h hf hvs _
          | some recv =>
              exact .bind (eval_counts h recv hrecv) fun v hv =>
                .bind (eval_counts h func hfunc) fun f hf =>
                  .bind (evalArgs_counts h args hargs) fun vs hvs =>
                    handOn_counts mismatch miscount h hf (List.forall_mem_cons.2 ⟨hv, hvs⟩) _
  | _ => exact hplain fun _ _ _ hne => by cases hne

/-! ### Bodies -/

/-- A body that ends with no return declares no results. -/
theorem resultCount_of_back {body : Body} (h : ∀ values, body.instrs.back? ≠ some (.ret values)) :
    body.resultCount = 0 := by
  unfold Body.resultCount
  split
  · next values hback => exact absurd hback (h values)
  · rfl

/-- A body begins with its first instruction unless it declares no results. -/
theorem start_within (body : Body) :
    Cursor.start.position < body.instrs.size ∨ body.resultCount = 0 := by
  by_cases hsize : 0 < body.instrs.size
  · exact .inl hsize
  · refine .inr (resultCount_of_back fun values hback => hsize ?_)
    exact Array.size_pos_of_mem (Array.mem_of_back? hback)

/-- **The run of a body means the same with calls counted**, and gives as many results as the body
declares. -/
theorem runFrom_counts (h : Counts B hosts call call') (howner : owner.Within B.allowed tail)
    (fuel : Nat) {c : Cursor} (hresults : c.results = [])
    (hposition : c.position < owner.instrs.size ∨ owner.resultCount = 0) :
    Keeps B (.inside B owner k (owner.slots :: tail))
      (runFrom ⟨hosts, mismatch, none⟩ ⟨types, call⟩ owner (k + 1) fuel c)
      (fun _ => runFrom ⟨hosts, mismatch, some miscount⟩ ⟨types, call'⟩ owner (k + 1) fuel c)
      fun c => (∀ v ∈ c.results, v.Only B.allowed) ∧ c.results.length = owner.resultCount := by
  induction fuel generalizing c with
  | zero => exact .throw _
  | succ fuel ih =>
      simp only [runFrom]
      cases hi : owner.instrs[c.position]? with
      | none =>
          have hpast : owner.instrs.size ≤ c.position := Array.getElem?_eq_none_iff.1 hi
          have hzero : owner.resultCount = 0 := hposition.resolve_left (Nat.not_lt.2 hpast)
          refine .pure ⟨?_, ?_⟩
          · rw [hresults]
            exact List.forall_mem_nil _
          · rw [hresults, hzero, List.length_nil]
      | some i =>
          have hmem := Array.mem_of_getElem? hi
          refine .bind (execute_counts mismatch miscount h howner hmem) fun next hnext => ?_
          cases next with
          | advance =>
              refine ih hresults ?_
              have hlt := (Array.getElem?_eq_some_iff.1 hi).1
              have hadvance : c.advance.position ≤ c.position + 1 := Nat.min_le_left _ _
              by_cases hlast : c.position + 1 < owner.instrs.size
              · exact .inl (Nat.lt_of_le_of_lt hadvance hlast)
              · -- the last instruction is none that returns values
                have hsize : owner.instrs.size - 1 = c.position := by omega
                refine .inr (resultCount_of_back fun values hback => hnext values ?_)
                rw [Array.back?_eq_getElem?, hsize, hi] at hback
                exact Option.some.inj hback
          | jump label =>
              obtain ⟨position, hlabel, hlt⟩ := howner.lands i hmem label hnext
              have htarget : owner.labels.target label = position := by
                rw [Labels.target, hlabel]
                rfl
              refine ih hresults (.inl ?_)
              rw [htarget]
              exact hlt
          | stop results => exact .pure hnext

/-- From its first instruction on. -/
theorem body_counts (h : Counts B hosts call call') (howner : owner.Within B.allowed tail)
    (fuel : Nat) :
    Keeps B (.inside B owner k (owner.slots :: tail))
      (runFrom ⟨hosts, mismatch, none⟩ ⟨types, call⟩ owner (k + 1) fuel .start >>= fun c =>
        pure c.results)
      (fun _ => runFrom ⟨hosts, mismatch, some miscount⟩ ⟨types, call'⟩ owner (k + 1) fuel .start
        >>= fun c => pure c.results)
      fun vs => (∀ v ∈ vs, v.Only B.allowed) ∧ vs.length = owner.resultCount :=
  .bind (runFrom_counts mismatch miscount h howner fuel rfl (start_within owner)) fun _ hc =>
    .pure hc

end

end Inspection

/-! ### Calls -/

/-- A host function gives so many results, whatever way to call functions it is given. -/
def HostBody.Yields (body : HostBody) (count : Nat) : Prop :=
  ∀ call args, Run.Gives (·.length = count) (body call args)

namespace Inspection

variable {B : Bounds} {hosts : Nat → Nat} (mismatch miscount : Failure)

/-- Results that are as many as declared pass the count. -/
theorem tally_counts {owners : List Body} {before m : Machine} {f : Value}
    {p : Run (List Value)} {p' : Run (List Value)}
    (h : Leaves B owners m p (fun _ => p') fun vs =>
      (∀ v ∈ vs, v.Only B.allowed) ∧ before.Declares hosts f vs.length) :
    Leaves B owners m (p >>= tally ⟨hosts, mismatch, none⟩ before f)
      (fun _ => p' >>= tally ⟨hosts, mismatch, some miscount⟩ before f) fun vs =>
        (∀ v ∈ vs, v.Only B.allowed) ∧ before.Declares hosts f vs.length := by
  refine h.bind fun vs owners' m' _ hs' hvs => ?_
  have hpass : tally ⟨hosts, mismatch, some miscount⟩ before f vs = pure vs := if_pos hvs.2
  rw [hpass]
  exact .ok rfl (.refl owners' m') hs' hvs

/-- **Calls give as many results as function values declare**, whether they are counted or not. -/
theorem callValue_counts {p : Setting} (hconfined : ∀ body ∈ p.hosts, body.Confined)
    (hhosts : ∀ (index : Nat) (body : HostBody), p.hosts[index]? = some body →
      body.Yields (hosts index)) (fuel : Nat) :
    Counts B hosts (callValue ⟨hosts, mismatch, none⟩ p fuel)
      (callValue ⟨hosts, mismatch, some miscount⟩ p fuel) := by
  induction fuel with
  | zero => exact fun f args owners m _ _ hs => Keeps.throw (K := .always) _ owners m hs trivial
  | succ fuel ih =>
      intro f args owners m hf hargs hs
      have hfail : ∀ {Q : List Value → Prop} (e : EvalError),
          Leaves B owners m (Run.fail e) (fun _ => Run.fail e) Q :=
        fun e => Keeps.fail (K := .always) e owners m hs trivial
      cases f with
      | func ref name =>
          have hget : (get : Run Machine) m = .ok m m := rfl
          simp only [callValue]
          refine .andThen hget (fun _ _ => hget) (.refl owners m) ?_
          cases hfunction : m.functions[ref]? with
          | none => exact hfail _
          | some function =>
              have hkeeps := hs.functions ref function hfunction hf
              cases function with
              | closure body outer =>
                  refine tally_counts mismatch miscount ?_
                  have hstands := hs.nested.closures ref body outer hfunction
                  refine Leaves.imp (Leaves.invoke_unwatched hs hkeeps hstands hargs
                    fun k sizes hbody => body_counts mismatch miscount ih hbody fuel)
                      fun vs hvs => ⟨hvs.1, ?_⟩
                  rw [hvs.2]
                  exact .closure hfunction
              | host index =>
                  dsimp only
                  cases hbody : p.hosts[index]? with
                  | none => exact hfail _
                  | some body =>
                      have hrun := hconfined body (Array.mem_of_getElem? hbody) B _ _ ih.calls args
                        hargs
                      refine tally_counts mismatch miscount ?_
                      refine ((hrun.gives (hhosts index body hbody _ args)) owners m hs
                        trivial).imp fun vs hvs => ⟨hvs.1, ?_⟩
                      rw [hvs.2]
                      exact .host hfunction
              | bound method recv =>
                  refine tally_counts mismatch miscount ?_
                  refine (ih method (recv :: args) owners m hkeeps.1
                    (List.forall_mem_cons.2 ⟨hkeeps.2, hargs⟩) hs).imp fun vs hvs => ⟨hvs.1, ?_⟩
                  exact .bound hfunction hvs.2
      | _ => exact hfail _

end Inspection

end ScriptCore
