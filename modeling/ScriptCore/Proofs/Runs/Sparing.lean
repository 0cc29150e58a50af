import ScriptCore.Proofs.Runs.Hidden
import ScriptCore.Machine.Location

/-!
# Code spares the variables that it does not mention

By induction on the code, and for calls on the fuel: whatever guarded code does, it leaves the
package variables alone that no code mentions.  The slots in which code stores are those that it
mentions, and a function literal mentions no more than the body in which it stands.

A host function gets arguments and gives results.  It may work on the heap, print and call function
values, but it gets at no record in other ways.

Main statements: `eval_sparing` and its companions, `execute_sparing`, `runFrom_sparing` and
`callValue_sparing`.
-/

namespace ScriptCore

open Code

/-- Calls of function values spare the variables that are not named. -/
def SparingCalls (named : Nat → Prop) (call : Value → List Value → Run (List Value)) : Prop :=
  ∀ f args, Run.Sparing named Machine.globals 0 (call f args) fun _ => True

section
variable {named : Nat → Prop} {types : TypeTable}
variable {call : Value → List Value → Run (List Value)} {r d : Nat}

mutual

/-- An expression stores nothing. -/
theorem eval_sparing (hcalls : SparingCalls named call) :
    ∀ e : Code.Expr, (∀ x ∈ e.parts, x.KeepsTo named d) →
      Run.Sparing named r d (eval ⟨types, call⟩ r e) fun _ => True
  | .const _, _ => .pure trivial
  | .load _ _, _ => .of_aside (.bind (.ancestor _ _) fun _ => .loadSlot _ _)
  | .expect _ e, h | .unary _ _ e, h =>
      .bind (eval_sparing hcalls e h) fun _ _ => .of_aside (.check _)
  | .binary _ _ a b, h => by
      rw [Expr.parts, List.forall_mem_append] at h
      exact .bind (eval_sparing hcalls a h.1) fun _ _ =>
        .bind (eval_sparing hcalls b h.2) fun _ _ => .of_aside (.check _)
  | .both a b, h => by
      rw [Expr.parts, List.forall_mem_append] at h
      refine .bind (eval_sparing hcalls a h.1) fun v _ => ?_
      split
      · exact eval_sparing hcalls b h.2
      · exact .pure trivial
  | .either a b, h => by
      rw [Expr.parts, List.forall_mem_append] at h
      refine .bind (eval_sparing hcalls a h.1) fun v _ => ?_
      split
      · exact .pure trivial
      · exact eval_sparing hcalls b h.2
  | .first call, h => .bind (evalCall_sparing hcalls call h) fun _ _ => .pure trivial
  | .convert ty e, h => .bind (eval_sparing hcalls e h) fun v _ => .of_aside (.convert types ty v)
  | .length e, h =>
      .bind (eval_sparing hcalls e h) fun _ _ => .of_aside (.get fun _ => .pure _)
  | .capacity e, h =>
      .bind (eval_sparing hcalls e h) fun v _ => by
        cases v <;> exact .pure trivial
  | .makeSlice len cap zero, h => by
      rw [Expr.parts, List.forall_mem_cons, List.forall_mem_append] at h
      exact .bind (eval_sparing hcalls len h.2.1) fun _ _ =>
        .bind (evalIndex_sparing hcalls _ cap h.2.2) fun _ _ => .of_aside (.makeSlice _ _ zero)
  | .makeMap, _ => .of_aside (.bind (.onHeap _) fun _ => .pure _)
  | .append base elems, h => by
      rw [Expr.parts, List.forall_mem_append] at h
      exact .bind (eval_sparing hcalls base h.1) fun b _ =>
        .bind (evalAll_sparing hcalls elems h.2) fun vs _ => .of_aside (.appendTo b vs)
  | .sliceOf elems, h =>
      .bind (evalAll_sparing hcalls elems h) fun vs _ => .of_aside (.newSlice vs)
  | .mapOf entries, h =>
      .bind (.of_aside (.onHeap _)) fun ref _ =>
        .bind (evalEntries_sparing hcalls ref entries h) fun _ _ => .pure trivial
  | .structOf fields, h => .bind (evalAll_sparing hcalls fields h) fun _ _ => .pure trivial
  | .mapGet map key zero, h => by
      rw [Expr.parts, List.forall_mem_cons, List.forall_mem_append] at h
      exact .bind (eval_sparing hcalls map h.2.1) fun _ _ =>
        .bind (eval_sparing hcalls key h.2.2) fun _ _ => .of_aside (.get fun _ => .check _)
  | .sliceGet slice index, h => by
      rw [Expr.parts, List.forall_mem_append] at h
      exact .bind (eval_sparing hcalls slice h.1) fun _ _ =>
        .bind (eval_sparing hcalls index h.2) fun _ _ => .of_aside (.get fun _ => .check _)
  | .byteAt str index, h => by
      rw [Expr.parts, List.forall_mem_append] at h
      exact .bind (eval_sparing hcalls str h.1) fun _ _ =>
        .bind (eval_sparing hcalls index h.2) fun _ _ => .of_aside (.check _)
  | .field _ e, h =>
      .bind (eval_sparing hcalls e h) fun _ _ => .of_aside (.bind (.check _) fun _ => .pure _)
  | .closure body, h => by
      rw [Expr.parts, List.forall_mem_singleton] at h
      exact fun m hm hlevel => ⟨hm.defined hlevel h, fun _ _ _ => trivial⟩
  | .bindMethod name recv method, h => by
      rw [Expr.parts, List.forall_mem_append] at h
      refine .bind (eval_sparing hcalls recv h.1) fun v _ =>
        .bind (eval_sparing hcalls method h.2) fun f _ => ?_
      cases f with
      | func ref n => exact .of_aside (.newBound _ v name)
      | _ => exact .pure trivial
  | .asIndex e, h | .narrow _ e, h =>
      .bind (eval_sparing hcalls e h) fun _ _ => .pure trivial
  | .ensure _ zero e, h => by
      rw [Expr.parts, List.forall_mem_cons] at h
      exact .bind (eval_sparing hcalls e h.2) fun _ _ => .of_aside (.check _)

/-- An optional index. -/
theorem evalIndex_sparing (hcalls : SparingCalls named call) (default : Int) :
    ∀ e : Option Code.Expr, (∀ x ∈ partsOf? e, x.KeepsTo named d) →
      Run.Sparing named r d (evalIndex? ⟨types, call⟩ r default e) fun _ => True
  | none, _ => .pure trivial
  | some e, h => .bind (eval_sparing hcalls e h) fun _ _ => .pure trivial

/-- Expressions, one after the other. -/
theorem evalAll_sparing (hcalls : SparingCalls named call) :
    ∀ es : List Code.Expr, (∀ x ∈ partsOf es, x.KeepsTo named d) →
      Run.Sparing named r d (evalAll ⟨types, call⟩ r es) fun _ => True
  | [], _ => .pure trivial
  | e :: es, h => by
      rw [partsOf, List.forall_mem_append] at h
      exact .bind (eval_sparing hcalls e h.1) fun _ _ =>
        .bind (evalAll_sparing hcalls es h.2) fun _ _ => .pure trivial

/-- Entries of a map. -/
theorem evalEntries_sparing (hcalls : SparingCalls named call) (ref : Nat) :
    ∀ es : List (Code.Expr × Code.Expr), (∀ x ∈ partsOfEntries es, x.KeepsTo named d) →
      Run.Sparing named r d (evalEntries ⟨types, call⟩ r ref es) fun _ => True
  | [], _ => .pure trivial
  | (key, value) :: rest, h => by
      rw [partsOfEntries, List.forall_mem_append, List.forall_mem_append] at h
      exact .bind (eval_sparing hcalls key h.1) fun k _ =>
        .bind (eval_sparing hcalls value h.2.1) fun v _ =>
          .bind (.of_aside (.insertEntry ref k v)) fun _ _ =>
            evalEntries_sparing hcalls ref rest h.2.2

/-- A call. -/
theorem evalCall_sparing (hcalls : SparingCalls named call) :
    ∀ c : Call, (∀ x ∈ c.parts, x.KeepsTo named d) →
      Run.Sparing named r d (evalCall ⟨types, call⟩ r c) fun _ => True
  | .direct func none args, h => by
      rw [Call.parts, List.forall_mem_append, List.forall_mem_append] at h
      exact .bind (eval_sparing hcalls func h.1) fun f _ =>
        .bind (evalArgs_sparing hcalls args h.2.2) fun vs _ => .anywhere (hcalls f vs)
  | .direct func (some recv) args, h => by
      rw [Call.parts, List.forall_mem_append, List.forall_mem_append] at h
      exact .bind (eval_sparing hcalls recv h.2.1) fun v _ =>
        .bind (eval_sparing hcalls func h.1) fun f _ =>
          .bind (evalArgs_sparing hcalls args h.2.2) fun vs _ => .anywhere (hcalls f (v :: vs))
  | .delete map key, h => by
      rw [Call.parts, List.forall_mem_append] at h
      exact .bind (eval_sparing hcalls map h.1) fun m _ =>
        .bind (eval_sparing hcalls key h.2) fun k _ => .of_aside (.removeKey m k)

/-- Arguments. -/
theorem evalArgs_sparing (hcalls : SparingCalls named call) :
    ∀ args : Args, (∀ x ∈ args.parts, x.KeepsTo named d) →
      Run.Sparing named r d (evalArgs ⟨types, call⟩ r args) fun _ => True
  | .list fixed none, h => evalAll_sparing hcalls fixed h
  | .list fixed (some rest), h => by
      rw [Args.parts, List.forall_mem_append] at h
      exact .bind (evalAll_sparing hcalls fixed h.1) fun _ _ =>
        .bind (evalAll_sparing hcalls rest h.2) fun ws _ =>
          .bind (.of_aside (.pack ws)) fun _ _ => .pure trivial
  | .forward call position, h =>
      .bind (evalCall_sparing hcalls call h) fun vs _ => .of_aside (.packFrom position vs)

end

/-- An optional expression. -/
theorem evalOption_sparing (hcalls : SparingCalls named call) (e : Option Code.Expr)
    (h : ∀ x ∈ partsOf? e, x.KeepsTo named d) :
    Run.Sparing named r d (evalOption ⟨types, call⟩ r e) fun _ => True := by
  cases e with
  | none => exact .pure trivial
  | some e => exact .bind (eval_sparing hcalls e h) fun _ _ => .pure trivial

end

/-! ### Locations -/

/-- The location is part of no package variable but a named one. -/
def Target.KeepsTo (named : Nat → Prop) : Target → Prop
  | .slot record s => record = Machine.globals → named s
  | .field base _ _ _ => base.KeepsTo named
  | _ => True

namespace Target

variable {named : Nat → Prop} {r d : Nat}

/-- A location is read. -/
theorem load_aside (t : Target) (key : Option Value) (zero : Value) :
    Run.Aside (t.load key zero) := by
  induction t generalizing key zero with
  | slot record slot =>
      rw [load_slot]
      exact .loadSlot record slot
  | map ref =>
      cases key with
      | none => exact .pure zero
      | some key => exact .get fun _ => .bind (.check _) fun _ => .pure _
  | nilMap => cases key <;> exact .pure zero
  | slice s => cases key <;> exact .get fun _ => .check _
  | field base fieldKey index fieldZero ih =>
      cases key <;> exact .bind (ih fieldKey fieldZero) fun _ => .bind (.check _) fun _ => .pure _

/-- A value is stored at a location. -/
theorem store_sparing {t : Target} (h : t.KeepsTo named) (key : Option Value) (v : Value) :
    Run.Sparing named r d (t.store key v) fun _ => True := by
  induction t generalizing key v with
  | slot record slot =>
      rw [store_slot]
      exact fun m hm _ => ⟨hm.stored v h, fun _ _ _ => trivial⟩
  | map ref =>
      cases key with
      | none => exact .throw _
      | some key => exact .of_aside (.insertEntry ref key v)
  | nilMap => cases key <;> exact .throw _
  | slice s => cases key <;> exact .of_aside (.setElem s _ v)
  | field base fieldKey index fieldZero ih =>
      cases key <;> (
        refine .bind (.of_aside (load_aside base fieldKey fieldZero)) fun w _ =>
          .bind (.of_aside (.check _)) fun fields _ => ?_
        split
        · exact ih h fieldKey _
        · exact .throw _)

end Target

section
variable {named : Nat → Prop} {types : TypeTable}
variable {call : Value → List Value → Run (List Value)} {r d : Nat}

/-- Code that mentions a slot gets at a package variable there only if it is a named one. -/
theorem ancestor_sparing {depth slot : Nat} (h : (Part.slot depth slot).KeepsTo named d) :
    Run.Sparing named r d (Run.ancestor r depth) fun a => a = Machine.globals → named slot := by
  intro m hm hlevel
  refine ⟨hm.aside (Run.Aside.ancestor r depth m), fun a m' ha hglobals => h ?_⟩
  subst hglobals
  refine hlevel.eq_of_ancestor hm.outermost ?_
  unfold Run.ancestor at ha
  rw [Run.get_bind] at ha
  cases hfound : m.ancestor? r depth with
  | none =>
      rw [hfound] at ha
      cases ha
  | some o =>
      rw [hfound] at ha
      cases ha
      rfl

/-- A location is found. -/
theorem locate_sparing (hcalls : SparingCalls named call) :
    ∀ c : Container, (∀ x ∈ c.parts, x.KeepsTo named d) →
      Run.Sparing named r d (locate ⟨types, call⟩ r c) (·.KeepsTo named)
  | .var depth slot, h =>
      .bind (ancestor_sparing (List.forall_mem_singleton.1 h)) fun _ ha => .pure ha
  | .map e, h => by
      refine .bind (eval_sparing hcalls e h) fun v _ => ?_
      cases v with
      | map ref => exact .pure trivial
      | nil => exact .pure trivial
      | _ => exact .throw _
  | .slice e, h => by
      refine .bind (eval_sparing hcalls e h) fun v _ => ?_
      cases v with
      | slice s => exact .pure trivial
      | nil => exact .pure trivial
      | _ => exact .throw _
  | .field base key _ _, h => by
      rw [Container.parts, List.forall_mem_cons, List.forall_mem_append] at h
      exact .bind (locate_sparing hcalls base h.2.1) fun t ht =>
        .bind (evalOption_sparing hcalls key h.2.2) fun _ _ => .pure ht

/-! ### Instructions -/

/-- Values are stored in slots that are no package variables but named ones. -/
theorem storeEach_sparing {a : Nat} (slots : List (Option Nat)) (vs : List Value)
    (h : ∀ s, some s ∈ slots → a = Machine.globals → named s) :
    Run.Sparing named r d (storeEach a slots vs) fun _ => True := by
  induction slots generalizing vs with
  | nil => exact .pure trivial
  | cons slot slots ih =>
      cases vs with
      | nil => cases slot <;> exact .pure trivial
      | cons v vs =>
          have hrest := ih vs fun s hs => h s (List.mem_cons_of_mem _ hs)
          cases slot with
          | none => exact hrest
          | some s =>
              have hstore : Run.Sparing named r d (Run.storeSlot a s v) fun _ => True :=
                fun m hm _ => ⟨hm.stored v (h s List.mem_cons_self), fun _ _ _ => trivial⟩
              exact .bind hstore fun _ _ => hrest

/-- Values are stored in the slots that an instruction mentions. -/
theorem storeTargets_sparing {i : Instr} (h : ∀ x ∈ i.parts, x.KeepsTo named d) (vs : List Value) :
    Run.Sparing named r d (do storeEach (← Run.ancestor r i.targetDepth) i.targets vs)
      fun _ => True := by
  intro m hm hlevel
  have hslots : ∀ s, some s ∈ i.targets → (Part.slot i.targetDepth s).KeepsTo named d :=
    fun s hs => h _ (List.mem_append_right _
      (List.mem_map_of_mem (List.mem_filterMap.2 ⟨some s, hs, rfl⟩)))
  have hfound : Run.Sparing named r d (Run.ancestor r i.targetDepth) fun a =>
      ∀ s, some s ∈ i.targets → a = Machine.globals → named s := fun m hm hlevel =>
    ⟨hm.aside (Run.Aside.ancestor r _ m), fun a m' ha s hs =>
      (ancestor_sparing (hslots s hs) m hm hlevel).2 a m' ha⟩
  exact Run.Sparing.bind hfound (fun a ha => storeEach_sparing i.targets vs ha) m hm hlevel

/-- **An instruction spares the variables that it does not mention.** -/
theorem execute_sparing (hcalls : SparingCalls named call) (i : Instr)
    (h : ∀ x ∈ i.parts, x.KeepsTo named d) :
    Run.Sparing named r d (execute ⟨types, call⟩ r i) fun _ => True := by
  have hsources : ∀ x ∈ i.sources, x.KeepsTo named d := fun x hx => h x (List.mem_append_left _ hx)
  cases i with
  | eval e => exact .bind (eval_sparing hcalls e hsources) fun _ _ => .pure trivial
  | run c => exact .bind (evalCall_sparing hcalls c hsources) fun _ _ => .pure trivial
  | store container key value =>
      rw [Instr.sources, List.forall_mem_append, List.forall_mem_append] at hsources
      exact .bind (locate_sparing hcalls container hsources.1) fun t ht =>
        .bind (evalOption_sparing hcalls key hsources.2.1) fun k _ =>
          .bind (eval_sparing hcalls value hsources.2.2) fun v _ =>
            .bind (t.store_sparing ht k v) fun _ _ => .pure trivial
  | update container key op kind value zero =>
      rw [Instr.sources, List.forall_mem_cons, List.forall_mem_append, List.forall_mem_append]
        at hsources
      exact .bind (locate_sparing hcalls container hsources.2.1) fun t ht =>
        .bind (evalOption_sparing hcalls key hsources.2.2.1) fun k _ =>
          .bind (eval_sparing hcalls value hsources.2.2.2) fun v _ =>
            .bind (.of_aside (t.load_aside k zero)) fun current _ =>
              .bind (.of_aside (.check _)) fun result _ =>
                .bind (t.store_sparing ht k result) fun _ _ => .pure trivial
  | setSlots stores =>
      exact .bind (evalAll_sparing hcalls _ hsources) fun vs _ =>
        .bind (storeTargets_sparing h vs) fun _ _ => .pure trivial
  | spread c depth slots =>
      rw [Instr.sources, List.forall_mem_cons] at hsources
      refine .bind (evalCall_sparing hcalls c hsources.2) fun vs _ => ?_
      have hstores : Run.Sparing named r d ((do storeEach (← Run.ancestor r depth) slots vs) >>=
          fun _ => pure Next.advance) fun _ => True :=
        .bind (storeTargets_sparing h vs) fun _ _ => .pure trivial
      rwa [bind_assoc] at hstores
  | jump label => exact .pure trivial
  | branch condition label =>
      refine .bind (eval_sparing hcalls condition hsources) fun v _ => ?_
      split <;> exact .pure trivial
  | ret values => exact .bind (evalAll_sparing hcalls values hsources) fun _ _ => .pure trivial
  | retCall c => exact .bind (evalCall_sparing hcalls c hsources) fun _ _ => .pure trivial

/-- **The run of a body spares the variables that the body does not mention.** -/
theorem runFrom_sparing (hcalls : SparingCalls named call) {body : Body}
    (hbody : body.KeepsTo named d) (fuel : Nat) (c : Cursor) :
    Run.Sparing named r (d + 1) (runFrom ⟨types, call⟩ body r fuel c) fun _ => True := by
  induction fuel generalizing c with
  | zero => exact .throw _
  | succ fuel ih =>
      rw [runFrom]
      cases hi : body.instrs[c.position]? with
      | none => exact .pure trivial
      | some i =>
          have hparts : ∀ x ∈ i.parts, x.KeepsTo named (d + 1) := fun x hx =>
            hbody.parts x (List.mem_flatMap.2
              ⟨i, Array.mem_toList_iff.2 (Array.mem_of_getElem? hi), hx⟩)
          refine .bind (execute_sparing hcalls i hparts) fun next _ => ?_
          cases next with
          | advance => exact ih c.advance
          | jump label => exact ih _
          | stop values => exact .pure trivial

end

/-! ### Calls -/

/-- A host function gets at records only by calling function values, and makes no closures: what
lasts when nothing happens to the records, and through all calls, lasts through the host
function. -/
def HostBody.Discreet (body : HostBody) : Prop :=
  ∀ (lasts : Machine → Machine → Prop) (call : Value → List Value → Run (List Value)),
    (∀ m m' : Machine, m.Aside m' → lasts m m') →
    (∀ m m' m'', lasts m m' → lasts m' m'' → lasts m m'') →
    (∀ f args m, lasts m (Run.after (call f args) m)) →
    ∀ args m, lasts m (Run.after (body call args) m)

/-- A computation that is counted leaves what it leaves without that, but for the number of bodies
being executed, unless it is refused. -/
theorem Run.after_counted {α : Type} (limit : Option Nat) (p : Run α) (m : Machine) :
    Run.after (counted limit p) m = m ∨ Run.after (counted limit p) m =
      { Run.after p { m with depth := m.depth + 1 } with
        depth := (Run.after p { m with depth := m.depth + 1 }).depth - 1 } := by
  unfold Run.after
  by_cases hlimit : limit.any (fun l => decide (l ≤ m.depth)) = true
  · exact .inl (by simp [counted, hlimit])
  · refine .inr ?_
    cases hp : p { m with depth := m.depth + 1 } <;>
      simp [counted, hlimit, onFreshStack_eq, hp]

/-- The number of bodies being executed makes no difference. -/
theorem Run.Sparing.counted {α : Type} {named : Nat → Prop} {r d : Nat} {p : Run α}
    {limit : Option Nat} (h : Run.Sparing named r d p fun _ => True) :
    Run.Sparing named r d (ScriptCore.counted limit p) fun _ => True := by
  intro m hm hlevel
  refine ⟨?_, fun _ _ _ => trivial⟩
  have hdepth : ∀ (m : Machine) n, m.Aside { m with depth := n } := fun m n =>
    ⟨rfl, fun _ _ h => h, fun _ _ _ h => h⟩
  have hinside := hm.aside (hdepth m (m.depth + 1))
  obtain ⟨hspares, -⟩ := h _ hinside.guarded (hlevel.later hinside.outer)
  rcases Run.after_counted limit p m with heq | heq <;> rw [heq]
  · exact .refl hm
  · exact (hinside.trans hspares).trans (hspares.guarded.aside (hdepth _ _))

/-- A body runs in a new record. -/
theorem Run.Sparing.invoke {α : Type} {named : Nat → Prop} {outer d : Nat} {body : Body}
    {args : List Value} {run : Nat → Run α} {Q : α → Prop}
    (h : ∀ r, Run.Sparing named r (d + 1) (run r) Q) :
    Run.Sparing named outer d (Run.newRecord body.slots (some outer) args >>= run) Q := by
  intro m hm hlevel
  have hrun : (Run.newRecord body.slots (some outer) args >>= run) m =
      run m.records.size (m.invoked body outer args) := rfl
  have hnew := hm.invoked body outer args
  obtain ⟨hspares, hresults⟩ := h _ _ hnew.guarded (hlevel.invoked hm body args)
  refine ⟨?_, fun a m' ha => hresults a m' (hrun ▸ ha)⟩
  rw [Run.after, hrun]
  exact hnew.trans hspares

/-- A host function spares what calls spare. -/
theorem HostBody.Discreet.sparing {named : Nat → Prop} {r d : Nat} {body : HostBody}
    (h : body.Discreet) {call : Value → List Value → Run (List Value)}
    (hcalls : SparingCalls named call) (args : List Value) :
    Run.Sparing named r d (body call args) fun _ => True :=
  fun m hm _ => ⟨h (fun m m' => m.Guarded named → m.Spares named m') call
    (fun _ _ haside hm => hm.aside haside)
    (fun _ _ _ hfirst hrest hm => (hfirst hm).trans (hrest (hfirst hm).guarded))
    (fun f args m hm => (hcalls f args m hm .package).1) args m hm, fun _ _ _ => trivial⟩

/-- **A call spares the variables that no code mentions.** -/
theorem callValue_sparing {named : Nat → Prop} {p : Setting}
    (hhosts : ∀ body ∈ p.hosts, body.Discreet) (fuel : Nat) :
    SparingCalls named (callValue p fuel) := by
  induction fuel with
  | zero => exact fun f args => .throw _
  | succ fuel ih =>
      intro f args
      cases f with
      | func ref name =>
          refine fun m hm hlevel => ⟨?_, fun _ _ _ => trivial⟩
          -- what is run depends on the function that the machine has
          have hcall : ∀ {run : Run (List Value)} {r d : Nat},
              callValue p (fuel + 1) (.func ref name) args m = run m → m.Level r d →
              Run.Sparing named r d run (fun _ => True) →
              m.Spares named (Run.after (callValue p (fuel + 1) (.func ref name) args) m) :=
            fun heq hlevel hrun => by
              rw [Run.after, heq]
              exact (hrun m hm hlevel).1
          cases hfunction : m.functions[ref]? with
          | none => exact hcall (by rw [callValue, Run.get_bind, hfunction]; rfl) hlevel (.throw _)
          | some function =>
              cases function with
              | closure body outer =>
                  obtain ⟨d, hlevel, hbody⟩ := hm.closures ref body outer hfunction
                  refine hcall (by rw [callValue, Run.get_bind, hfunction]) hlevel
                    (.counted (.invoke fun r => ?_))
                  exact .bind (runFrom_sparing ih hbody fuel .start) fun _ _ => .pure trivial
              | host index =>
                  refine hcall (by rw [callValue, Run.get_bind, hfunction]) hlevel ?_
                  dsimp only
                  cases hbody : p.hosts[index]? with
                  | none => exact .throw _
                  | some body => exact (hhosts body (Array.mem_of_getElem? hbody)).sparing ih args
              | bound method recv =>
                  exact hcall (by rw [callValue, Run.get_bind, hfunction]) hlevel
                    (ih method (recv :: args))
      | _ => exact .throw _

end ScriptCore
