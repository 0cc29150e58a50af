import ScriptCore.Proofs.Runs.Evaluation

/-!
# Execution keeps a machine sound

What holds of expressions holds of instructions, of the loop that runs a body and of calls, by
induction on the fuel.  A host function must do so with whatever way to call functions it is given,
if that way does.

Main statements: `execute_keeps`, `runFrom_keeps` and `callValue_keeps`.
-/

namespace ScriptCore

open Code

/-- Where a run may go on after an instruction. -/
def Next.Follows (B : Bounds) (i : Instr) : Next → Prop
  | .advance => True
  | .jump label => i.label? = some label
  | .stop values => i.isStore = false ∧ ∀ v ∈ values, v.Only B.allowed

section
variable {B : Bounds} {types : TypeTable}
variable {call : Value → List Value → Run (List Value)}
variable {call' : Watch → Value → List Value → Run (List Value)}
variable {owner : Body} {k : Nat} {sizes : List Nat}

/-- **An instruction keeps a machine sound** if what it needs keeps to the bounds and there are the
slots in which it stores. -/
theorem execute_keeps (hcalls : Calls B call call') (i : Instr)
    (hneeds : B.Inside owner sizes i.needs)
    (hstored : ∀ a ∈ i.stored, B.Covers k sizes .store a.1 a.2) :
    Keeps B (.inside B owner k sizes) (execute ⟨types, call⟩ (k + 1) i)
      (fun w => w.execute ⟨types, call' w⟩ (k + 1) i) (·.Follows B i) := by
  -- the slots in which computed values are stored
  have htargets : i.stored = (i.targets.filterMap id).map (fun slot => (i.targetDepth, slot)) →
      ∀ slot, some slot ∈ i.targets → B.Covers k sizes .store i.targetDepth slot :=
    fun heq slot hslot => hstored (i.targetDepth, slot)
      (heq ▸ List.mem_map_of_mem (List.mem_filterMap.2 ⟨some slot, hslot, rfl⟩))
  cases i with
  | eval e => exact .bind (eval_keeps hcalls e hneeds) fun _ _ => .pure trivial
  | run c => exact .bind (evalCall_keeps hcalls c hneeds) fun _ _ => .pure trivial
  | store container key value =>
      -- the location, and what is stored there
      have hstore : B.Inside owner sizes (partsOf? key ++ value.parts) → ∀ {p : Run Target}
          {q : Watch → Run Target},
          Keeps B (.inside B owner k sizes) p q (·.Storable B) →
          Keeps B (.inside B owner k sizes)
            (p >>= fun t => evalOption ⟨types, call⟩ (k + 1) key >>= fun key =>
              eval ⟨types, call⟩ (k + 1) value >>= fun v =>
                t.store key v >>= fun _ => pure Next.advance)
            (fun w => q w >>= fun t =>
              w.evalOption ⟨types, call' w⟩ (k + 1) key >>= fun key =>
                w.eval ⟨types, call' w⟩ (k + 1) value >>= fun v =>
                  t.store key v >>= fun _ => pure Next.advance)
            (·.Follows B (.store container key value)) := by
        intro h p q hpq
        rw [Bounds.inside_append] at h
        exact .bind hpq fun t ht => .bind (evalOption_keeps hcalls key h.1) fun _ _ =>
          .bind (eval_keeps hcalls value h.2) fun v hv =>
            .bind (t.store_keeps ht hv) fun _ _ => .pure trivial
      cases container with
      | var depth slot =>
          have hcovers := hstored (depth, slot) List.mem_cons_self
          exact hstore hneeds (.guard hcovers id
            (.bind (.ancestor hcovers) fun r _ => .pure trivial))
      | _ =>
          change B.Inside owner sizes (_ ++ (partsOf? key ++ value.parts)) at hneeds
          rw [Bounds.inside_append] at hneeds
          exact hstore hneeds.2 ((locate_keeps hcalls .store _ hneeds.1).imp fun _ h =>
            h.storable)
  | update container key op kind value zero =>
      change B.Inside owner sizes
        (.value zero :: (container.parts ++ (partsOf? key ++ value.parts))) at hneeds
      rw [Bounds.inside_cons, Bounds.inside_append, Bounds.inside_append] at hneeds
      exact .bind (locate_keeps hcalls .read container hneeds.2.1) fun t ht =>
        .bind (evalOption_keeps hcalls key hneeds.2.2.1) fun _ _ =>
          .bind (eval_keeps hcalls value hneeds.2.2.2) fun v hv =>
            .bind (t.load_keeps ht hneeds.1.1) fun current _ =>
              .bind (.check fun _ hc => binaryValues_only hc) fun result hresult =>
                .bind (t.store_keeps ht.storable hresult) fun _ _ => .pure trivial
  | setSlots stores =>
      exact .bind (evalAll_keeps hcalls _ hneeds) fun vs hvs =>
        .guardEach (htargets rfl) (.bind (.storeEach hvs) fun _ _ => .pure trivial)
  | spread c depth slots =>
      change B.Inside owner sizes (.record depth :: c.parts) at hneeds
      rw [Bounds.inside_cons] at hneeds
      obtain ⟨⟨⟨n, hn⟩, -⟩, hcall⟩ := hneeds
      exact .bind (evalCall_keeps hcalls c hcall) fun vs hvs =>
        .guardRecord hn (.guardEach (htargets rfl) (.bind (.ancestorOf hn) fun r _ =>
          .bind (.storeEach hvs) fun _ _ => .pure trivial))
  | jump label => exact .pure rfl
  | branch condition label =>
      exact .bind (eval_keeps hcalls condition hneeds) fun _ _ =>
        .ite (.pure trivial) (.pure rfl)
  | ret values =>
      exact .bind (evalAll_keeps hcalls values hneeds) fun vs hvs => .pure ⟨rfl, hvs⟩
  | retCall c =>
      exact .bind (evalCall_keeps hcalls c hneeds) fun vs hvs => .pure ⟨rfl, hvs⟩

/-- An instruction of a body that keeps to the bounds. -/
theorem execute_keeps_of_mem (hcalls : Calls B call call') {tail : List Nat}
    (howner : owner.Within B.allowed tail) {i : Instr} (hi : i ∈ owner.instrs) :
    Keeps B (.inside B owner k (owner.slots :: tail)) (execute ⟨types, call⟩ (k + 1) i)
      (fun w => w.execute ⟨types, call' w⟩ (k + 1) i) (·.Follows B i) := by
  have hparts : B.Inside owner (owner.slots :: tail) i.parts := fun x hx => by
    have hmem : x ∈ owner.parts := List.mem_flatMap.2 ⟨i, Array.mem_toList_iff.2 hi, hx⟩
    exact ⟨howner.parts x hmem, hmem⟩
  refine execute_keeps hcalls i (fun x hx => hparts x (Instr.mem_parts.2 (.inl hx)))
    fun a ha => Bounds.covers_of_lt ?_ .store
  exact (hparts (.slot a.1 a.2) (Instr.mem_parts.2 (.inr ⟨a, ha, rfl⟩))).1

/-- **The run of a body keeps a machine sound**, and its jumps go to labels with a position. -/
theorem runFrom_keeps (hcalls : Calls B call call') {tail : List Nat}
    (howner : owner.Within B.allowed tail) (fuel : Nat) {c : Cursor}
    (hc : ∀ v ∈ c.results, v.Only B.allowed) :
    Keeps B (.inside B owner k (owner.slots :: tail))
      (runFrom ⟨types, call⟩ owner (k + 1) fuel c)
        (fun w => w.runFrom ⟨types, call' w⟩ owner (k + 1) fuel c)
      fun c => ∀ v ∈ c.results, v.Only B.allowed := by
  induction fuel generalizing c with
  | zero => exact .throw _
  | succ fuel ih =>
      simp only [runFrom, Watch.runFrom]
      cases hi : owner.instrs[c.position]? with
      | none => exact .pure hc
      | some i =>
          have hmem := Array.mem_of_getElem? hi
          refine .bind (execute_keeps_of_mem hcalls howner hmem) fun next hnext => ?_
          cases next with
          | advance => exact ih hc
          | jump label =>
              obtain ⟨position, hposition, -⟩ := howner.lands i hmem label hnext
              have htarget : owner.labels.target label = position := by
                rw [Labels.target, hposition]
                rfl
              dsimp only
              rw [htarget, hposition]
              exact ih hc
          | stop values => exact .pure hnext.2

end

/-! ### Calls -/

/-- A host function gets at the machine only through operations that keep it sound: given a way to
call functions that does so, the host function does so as well. -/
def HostBody.Confined (body : HostBody) : Prop :=
  ∀ (B : Bounds) (call : Value → List Value → Run (List Value))
    (call' : Watch → Value → List Value → Run (List Value)), Calls B call call' →
    ∀ args : List Value, (∀ v ∈ args, v.Only B.allowed) →
      Keeps B .always (body call args) (fun w => body (call' w) args) fun vs =>
        ∀ v ∈ vs, v.Only B.allowed

/-- **Calls keep a machine sound.** -/
theorem callValue_keeps {B : Bounds} {p : Setting}
    (hhosts : ∀ body ∈ p.hosts, body.Confined) (fuel : Nat) :
    Calls B (callValue p fuel) fun w => w.callValue p fuel := by
  induction fuel with
  | zero => exact fun f args _ _ => .throw _
  | succ fuel ih =>
      intro f args hf hargs
      cases f with
      | func ref name =>
          intro owners m hs _
          have hget : (get : Run Machine) m = .ok m m := rfl
          simp only [callValue, Watch.callValue]
          refine .andThen hget (fun _ _ => hget) (.refl owners m) ?_
          cases hfunction : m.functions[ref]? with
          | none => exact Keeps.fail (K := .always) _ owners m hs trivial
          | some function =>
              have hkeeps := hs.functions ref function hfunction hf
              cases function with
              | closure body outer =>
                  refine .invoke hs hkeeps (hs.nested.closures ref body outer hfunction) hargs
                    fun k sizes hbody => ?_
                  exact .bind (runFrom_keeps ih hbody fuel (List.forall_mem_nil _)) fun c hc =>
                    .pure hc
              | host index =>
                  dsimp only
                  cases hbody : p.hosts[index]? with
                  | none => exact Keeps.fail (K := .always) _ owners m hs trivial
                  | some body =>
                      exact hhosts body (Array.mem_of_getElem? hbody) B _ _ ih args hargs owners m
                        hs trivial
              | bound method recv =>
                  exact ih method (recv :: args) hkeeps.1
                    (List.forall_mem_cons.2 ⟨hkeeps.2, hargs⟩) owners m hs trivial
      | _ => exact .fail _

end ScriptCore
