import ScriptCore.Proofs.Assignment.Reading
import ScriptCore.Proofs.Runs.Sound

/-!
# What a store leaves alone

A store changes one variable or something on the heap.  Operands that have no effect and read
neither that variable nor, if the heap may have changed, the heap, are evaluated after the store as
they are before it.

Two machines are apart in some regions if code that runs in a record sees no difference between them
but in these regions.  Variables are addressed by how many records out they live, so that different
addresses are different variables needs that the records around a record are different ones.

Main statements: `eval_avoids` and `locate_avoids` (operands that avoid the regions), and
`Target.store_apart` (a store).
-/

namespace ScriptCore

/-- What a store may change: a variable, `depth` records out, or what is on the heap. -/
inductive Region where
  | slot (depth slot : Nat)
  | heap
deriving DecidableEq

namespace Code

/-- What a store in the container changes. -/
def Container.region : Container → Region
  | .var depth slot => .slot depth slot
  | .map _ | .slice _ => .heap
  | .field base _ _ _ => base.region

/-- Evaluating the expression has no effect on the machine and reads none of the regions. -/
def Expr.avoids (regions : List Region) : Expr → Bool
  | .const _ => true
  | .load depth slot => !regions.contains (.slot depth slot)
  | .expect _ e | .unary _ _ e | .capacity e | .field _ e | .asIndex e | .narrow _ e
  | .ensure _ _ e => e.avoids regions
  | .binary _ _ a b | .both a b | .either a b | .byteAt a b => a.avoids regions && b.avoids regions
  | .length e => !regions.contains .heap && e.avoids regions
  | .mapGet a b _ | .sliceGet a b =>
    !regions.contains .heap && a.avoids regions && b.avoids regions
  | .first _ | .convert _ _ | .makeSlice _ _ _ | .makeMap | .append _ _ | .sliceOf _ | .mapOf _
  | .structOf _ | .closure _ | .bindMethod _ _ _ => false

/-- The same for an optional expression. -/
def avoids? (regions : List Region) (e : Option Expr) : Bool :=
  e.all (Expr.avoids regions)

/-- The same for the operands of a container. -/
def Container.avoids (regions : List Region) : Container → Bool
  | .var _ _ => true
  | .map e | .slice e => e.avoids regions
  | .field base key _ _ => base.avoids regions && avoids? regions key

end Code

/-! ### Machines that differ in some regions -/

namespace Machine

/-- Code that runs in the record `r` sees a difference between the machines only in the regions. -/
structure Apart (regions : List Region) (r : Nat) (m m' : Machine) : Prop where
  ancestor : ∀ depth, m'.ancestor? r depth = m.ancestor? r depth
  slots : ∀ depth slot a, .slot depth slot ∉ regions → m.ancestor? r depth = some a →
    (m'.record a).get slot = (m.record a).get slot
  heap : .heap ∉ regions → m'.heap = m.heap

/-- The records around a record are different ones. -/
def Distinct (m : Machine) (r : Nat) : Prop :=
  ∀ depth depth' a, m.ancestor? r depth = some a → m.ancestor? r depth' = some a → depth = depth'

variable {regions : List Region} {r : Nat} {m m' m'' : Machine}

/-- A record further out. -/
theorem ancestor_add (m : Machine) (r depth more : Nat) :
    m.ancestor? r (depth + more) = (m.ancestor? r depth).bind fun a => m.ancestor? a more := by
  induction depth generalizing r with
  | zero => rw [Nat.zero_add, ancestor?, Option.bind_some]
  | succ depth ih =>
      rw [Nat.succ_add, ancestor?, ancestor?, Option.bind_assoc]
      exact congrArg _ (funext ih)

/-- Nested records are different ones: each lies in one that was made before it. -/
theorem Nested.distinct {tops : Code.Body → Prop} {owners : List Code.Body}
    (h : m.Nested tops owners) (r : Nat) : m.Distinct r := by
  have houter {a o : Nat} (ho : (m.record a).outer = some o) : o < a := by
    cases a with
    | zero =>
        have hnone : (m.record 0).outer = none := h.outermost
        rw [hnone] at ho
        cases ho
    | succ k =>
        cases hk : owners[k]? with
        | some owner =>
            obtain ⟨o', hle, ho', -⟩ := h.records k owner hk
            rw [ho'] at ho
            cases ho
            exact Nat.lt_succ_of_le hle
        | none =>
            have hsize : m.records.size ≤ k + 1 := by
              rw [h.size]
              exact Nat.succ_le_succ (List.getElem?_eq_none_iff.1 hk)
            rw [record, Array.getElem?_eq_none hsize] at ho
            cases ho
  have hancestor {a b depth : Nat} (hb : m.ancestor? a (depth + 1) = some b) : b < a := by
    induction depth generalizing a with
    | zero =>
        rw [ancestor?, Option.bind_eq_some_iff] at hb
        obtain ⟨o, ho, hb⟩ := hb
        cases hb
        exact houter ho
    | succ depth ih =>
        rw [ancestor?, Option.bind_eq_some_iff] at hb
        obtain ⟨o, ho, hb⟩ := hb
        exact Nat.lt_trans (ih hb) (houter ho)
  have hlt {depth depth' a : Nat} (ha : m.ancestor? r depth = some a)
      (ha' : m.ancestor? r depth' = some a) : ¬depth < depth' := by
    intro hlt
    obtain ⟨more, rfl⟩ := Nat.exists_eq_add_of_lt hlt
    rw [Nat.add_assoc, ancestor_add, ha, Option.bind_some] at ha'
    exact Nat.lt_irrefl a (hancestor ha')
  intro depth depth' a ha ha'
  exact Nat.le_antisymm (Nat.le_of_not_lt (hlt ha' ha)) (Nat.le_of_not_lt (hlt ha ha'))

namespace Apart

/-- A machine is not apart from itself. -/
protected theorem refl (regions : List Region) (r : Nat) (m : Machine) : m.Apart regions r m :=
  ⟨fun _ => rfl, fun _ _ _ _ _ => rfl, fun _ => rfl⟩

/-- One change after another. -/
theorem cons {region : Region} (h : m.Apart regions r m') (h' : m'.Apart [region] r m'') :
    m.Apart (region :: regions) r m'' := by
  refine ⟨fun depth => (h'.ancestor depth).trans (h.ancestor depth), ?_, ?_⟩
  · intro depth slot a hslot ha
    rw [List.mem_cons, not_or] at hslot
    rw [h'.slots depth slot a (by simpa using hslot.1) ((h.ancestor depth).trans ha)]
    exact h.slots depth slot a hslot.2 ha
  · intro hheap
    rw [List.mem_cons, not_or] at hheap
    rw [h'.heap (by simpa using hheap.1)]
    exact h.heap hheap.2

/-- The records around stay different. -/
theorem distinct (h : m.Apart regions r m') (hd : m.Distinct r) : m'.Distinct r := by
  intro depth depth' a ha ha'
  rw [h.ancestor] at ha ha'
  exact hd depth depth' a ha ha'

/-- A change of the heap. -/
theorem of_heap (m : Machine) (r : Nat) (heap : Heap) :
    m.Apart [.heap] r { m with heap := heap } := by
  have hancestor (a depth : Nat) :
      ({ m with heap := heap } : Machine).ancestor? a depth = m.ancestor? a depth := by
    induction depth generalizing a with
    | zero => rfl
    | succ depth ih =>
        rw [ancestor?, ancestor?]
        exact congrArg _ (funext ih)
  refine ⟨hancestor r, fun _ _ _ _ _ => rfl, fun h => ?_⟩
  exact absurd (List.mem_singleton_self _) h

end Apart

/-- Another slot, or the slot of another record, holds what it held. -/
theorem get_stored_ne {a s slot : Nat} {v : Value} (h : a = r → s ≠ slot) :
    ((m.stored r slot v).record a).get s = (m.record a).get s := by
  by_cases hr : a = r
  · rcases record_stored m r slot v a with hrec | hrec
    · rw [hrec]
    · rw [hrec, Record.get_set_ne _ _ (h hr)]
  · have hrec : (m.stored r slot v).record a = m.record a := by
      rw [record, record, stored, Array.getElem?_modify, if_neg (Ne.symm hr)]
    rw [hrec]

/-- The records around a record are found in the same way. -/
theorem ancestor_stored (m : Machine) (r slot : Nat) (v : Value) (a depth : Nat) :
    (m.stored r slot v).ancestor? a depth = m.ancestor? a depth := by
  have houter (a : Nat) : ((m.stored r slot v).record a).outer = (m.record a).outer := by
    rcases record_stored m r slot v a with hrec | hrec
    · rw [hrec]
    · rw [hrec, Record.outer_set]
  induction depth generalizing a with
  | zero => rfl
  | succ depth ih =>
      rw [ancestor?, ancestor?, houter]
      exact congrArg _ (funext ih)

/-- A change of a variable. -/
theorem Apart.of_store (hd : m.Distinct r) {depth slot a : Nat}
    (ha : m.ancestor? r depth = some a) (v : Value) :
    m.Apart [.slot depth slot] r (m.stored a slot v) := by
  refine ⟨ancestor_stored m a slot v r, ?_, fun _ => rfl⟩
  intro depth' slot' a' hslot ha'
  apply get_stored_ne
  rintro rfl rfl
  obtain rfl := hd depth depth' a' ha ha'
  exact hslot (List.mem_singleton_self _)

end Machine

/-! ### Operands -/

/-- A run gives the same on both machines, and leaves them as they are. -/
def Run.SameOn {α : Type} (run : Run α) (m m' : Machine) : Prop :=
  (∃ a, run m = .ok a m ∧ run m' = .ok a m') ∨ ∃ e, run m = .error e m ∧ run m' = .error e m'

namespace Run.SameOn

variable {α β : Type} {m m' : Machine}

/-- A result. -/
protected theorem pure (a : α) : Run.SameOn (Pure.pure a) m m' :=
  .inl ⟨a, rfl, rfl⟩

/-- A computation on values. -/
protected theorem check (e : Except EvalError α) : Run.SameOn (Run.check e) m m' := by
  cases e with
  | ok a => exact .inl ⟨a, rfl, rfl⟩
  | error e => exact .inr ⟨.error e, rfl, rfl⟩

/-- One run after another. -/
protected theorem bind {run : Run α} {next : α → Run β} (h : run.SameOn m m')
    (hnext : ∀ a, (next a).SameOn m m') : Run.SameOn (run >>= next) m m' := by
  rcases h with ⟨a, ha, ha'⟩ | ⟨e, he, he'⟩
  · rcases hnext a with ⟨b, hb, hb'⟩ | ⟨e, he, he'⟩
    · exact .inl ⟨b, by rw [Run.bind_result ha, hb], by rw [Run.bind_result ha', hb']⟩
    · exact .inr ⟨e, by rw [Run.bind_result ha, he], by rw [Run.bind_result ha', he']⟩
  · exact .inr ⟨e, Run.bind_failed he _, Run.bind_failed he' _⟩

/-- A look at the heap, if both have the same. -/
protected theorem heap (f : Heap → Run α) (hheap : m'.heap = m.heap)
    (h : ∀ a, (f a).SameOn m m') :
    Run.SameOn (do f (← get).heap) m m' := by
  have hget (m₀ : Machine) : (do f (← get).heap : Run α) m₀ = f m₀.heap m₀ := rfl
  unfold Run.SameOn
  rw [hget, hget, hheap]
  exact h m.heap

end Run.SameOn

variable {x : Context} {r : Nat} {m m' : Machine} {regions : List Region}

/-- A record is found or missing on both machines. -/
theorem Run.ancestor_same (h : m.Apart regions r m') (depth : Nat) :
    (Run.ancestor r depth).SameOn m m' := by
  unfold Run.SameOn
  rw [Run.ancestor, Run.get_bind, Run.get_bind, h.ancestor]
  cases m.ancestor? r depth with
  | some a => exact .inl ⟨a, rfl, rfl⟩
  | none => exact .inr ⟨_, rfl, rfl⟩

/-- A variable that has not changed. -/
theorem eval_load_same (h : m.Apart regions r m') {depth slot : Nat}
    (hslot : .slot depth slot ∉ regions) : (eval x r (.load depth slot)).SameOn m m' := by
  cases ha : m.ancestor? r depth with
  | some a =>
      have ha' := (h.ancestor depth).trans ha
      refine .inl ⟨_, eval_load ha x slot, ?_⟩
      rw [eval_load ha' x slot, h.slots depth slot a hslot ha]
  | none =>
      have hmissing (m₀ : Machine) (h₀ : m₀.ancestor? r depth = none) :
          ∃ e, eval x r (.load depth slot) m₀ = .error e m₀ ∧ e = .error (.custom
            ("no enclosing environment at depth " ++ toString depth)) := by
        refine ⟨_, ?_, rfl⟩
        rw [eval, Run.bind_failed]
        rw [Run.ancestor, Run.get_bind, h₀]
        rfl
      obtain ⟨e, he, rfl⟩ := hmissing m ha
      obtain ⟨e', he', rfl⟩ := hmissing m' ((h.ancestor depth).trans ha)
      exact .inr ⟨_, he, he'⟩

/-- **Operands that avoid what has changed** give the same. -/
theorem eval_avoids (h : m.Apart regions r m') : ∀ e : Code.Expr, e.avoids regions = true →
    (eval x r e).SameOn m m'
  | .const v, _ => by
      rw [eval]
      exact .pure v
  | .load depth slot, ha => by
      simp only [Code.Expr.avoids, Bool.not_eq_true', List.contains_eq_mem,
        decide_eq_false_iff_not] at ha
      exact eval_load_same h ha
  | .expect _ e, ha | .unary _ _ e, ha | .ensure _ _ e, ha => by
      rw [Code.Expr.avoids] at ha
      rw [eval]
      exact (eval_avoids h e ha).bind fun _ => .check _
  | .asIndex e, ha | .narrow _ e, ha => by
      rw [Code.Expr.avoids] at ha
      rw [eval]
      exact (eval_avoids h e ha).bind fun _ => .pure _
  | .field _ e, ha => by
      rw [Code.Expr.avoids] at ha
      rw [eval]
      exact (eval_avoids h e ha).bind fun _ => (Run.SameOn.check _).bind fun _ => .pure _
  | .capacity e, ha => by
      rw [Code.Expr.avoids] at ha
      rw [eval]
      refine (eval_avoids h e ha).bind fun v => ?_
      cases v <;> exact .pure _
  | .binary _ _ a b, ha => by
      rw [Code.Expr.avoids, Bool.and_eq_true] at ha
      rw [eval]
      exact (eval_avoids h a ha.1).bind fun _ => (eval_avoids h b ha.2).bind fun _ => .check _
  | .both a b, ha => by
      rw [Code.Expr.avoids, Bool.and_eq_true] at ha
      rw [eval]
      refine (eval_avoids h a ha.1).bind fun v => ?_
      cases v.isTrue with
      | true => exact eval_avoids h b ha.2
      | false => exact .pure _
  | .either a b, ha => by
      rw [Code.Expr.avoids, Bool.and_eq_true] at ha
      rw [eval]
      refine (eval_avoids h a ha.1).bind fun v => ?_
      cases v.isTrue with
      | true => exact .pure _
      | false => exact eval_avoids h b ha.2
  | .byteAt a b, ha => by
      rw [Code.Expr.avoids, Bool.and_eq_true] at ha
      rw [eval]
      exact (eval_avoids h a ha.1).bind fun _ => (eval_avoids h b ha.2).bind fun _ => .check _
  | .length e, ha => by
      rw [Code.Expr.avoids, Bool.and_eq_true] at ha
      have hheap := h.heap (by simpa using ha.1)
      rw [eval]
      exact (eval_avoids h e ha.2).bind fun v =>
        .heap (fun heap => pure (Value.int (Int64.ofNat ((heap.length? v).getD 0)))) hheap
          fun _ => .pure _
  | .mapGet a b zero, ha => by
      rw [Code.Expr.avoids, Bool.and_eq_true, Bool.and_eq_true] at ha
      have hheap := h.heap (by simpa using ha.1.1)
      rw [eval]
      exact (eval_avoids h a ha.1.2).bind fun v => (eval_avoids h b ha.2).bind fun k =>
        .heap (fun heap => Run.check (mapElement heap v k zero)) hheap fun _ => .check _
  | .sliceGet a b, ha => by
      rw [Code.Expr.avoids, Bool.and_eq_true, Bool.and_eq_true] at ha
      have hheap := h.heap (by simpa using ha.1.1)
      rw [eval]
      exact (eval_avoids h a ha.1.2).bind fun v => (eval_avoids h b ha.2).bind fun k =>
        .heap (fun heap => Run.check (sliceElement heap v k.index)) hheap fun _ => .check _

/-- Optional operands. -/
theorem evalOption_avoids (h : m.Apart regions r m') (e : Option Code.Expr)
    (ha : Code.avoids? regions e = true) : (evalOption x r e).SameOn m m' := by
  cases e with
  | none => exact .pure none
  | some e => exact (eval_avoids h e ha).bind fun _ => .pure _

/-- **A location is found where it would have been found before the change**, if its operands avoid
what has changed. -/
theorem locate_avoids (h : m.Apart regions r m') : ∀ container : Code.Container,
    container.avoids regions = true → (locate x r container).SameOn m m'
  | .var depth slot, _ => by
      rw [locate]
      exact (Run.ancestor_same h depth).bind fun _ => .pure _
  | .map e, ha => by
      rw [Code.Container.avoids] at ha
      rw [locate]
      refine (eval_avoids h e ha).bind fun v => ?_
      cases v with
      | map | nil => exact .pure _
      | _ => exact .check (.error _)
  | .slice e, ha => by
      rw [Code.Container.avoids] at ha
      rw [locate]
      refine (eval_avoids h e ha).bind fun v => ?_
      cases v with
      | slice | nil => exact .pure _
      | _ => exact .check (.error _)
  | .field base key _ _, ha => by
      rw [Code.Container.avoids, Bool.and_eq_true] at ha
      rw [locate]
      exact (locate_avoids h base ha.1).bind fun _ => (evalOption_avoids h key ha.2).bind fun _ =>
        .pure _

/-! ### Stores -/

/-- Storing at the location changes nothing but the region. -/
def Target.Lies (m : Machine) (r : Nat) (region : Region) : Target → Prop
  | .slot a s => ∃ depth, region = .slot depth s ∧ m.ancestor? r depth = some a
  | .map _ | .nilMap | .slice _ => region = .heap
  | .field base _ _ _ => base.Lies m r region

/-- A location lies in the region of its container. -/
theorem locate_lies : ∀ (container : Code.Container) {target : Target} {m m' : Machine},
    locate x r container m = .ok target m' → target.Lies m r container.region
  | .var depth slot, target, m, m', h => by
      obtain ⟨a, m₁, ha, h⟩ := run_bind_ok h
      cases h
      refine ⟨depth, rfl, ?_⟩
      rw [Run.ancestor, Run.get_bind] at ha
      cases hr : m.ancestor? r depth with
      | some a' =>
          rw [hr] at ha
          cases ha
          rfl
      | none =>
          rw [hr] at ha
          cases ha
  | .map e, target, m, m', h => by
      obtain ⟨v, m₁, -, h⟩ := run_bind_ok h
      cases v <;> cases h <;> rfl
  | .slice e, target, m, m', h => by
      obtain ⟨v, m₁, -, h⟩ := run_bind_ok h
      cases v <;> cases h <;> rfl
  | .field base key index zero, target, m, m', h => by
      obtain ⟨b, m₁, hb, h⟩ := run_bind_ok h
      obtain ⟨k, m₂, -, h⟩ := run_bind_ok h
      cases h
      have hlies := locate_lies base hb
      exact hlies

/-- A location lies where it lay before a change. -/
theorem Target.Lies.apart {region : Region} {target : Target} (hlies : target.Lies m r region)
    (h : m.Apart regions r m') : target.Lies m' r region := by
  induction target with
  | slot a s =>
      obtain ⟨depth, hregion, ha⟩ := hlies
      exact ⟨depth, hregion, (h.ancestor depth).trans ha⟩
  | map | nilMap | slice => exact hlies
  | field base key index zero ih => exact ih hlies

/-- **A store leaves everything alone that lies in other regions.** -/
theorem Target.store_apart {region : Region} (hd : m.Distinct r) {target : Target}
    {key : Option Value} {v : Value} {u : Unit} (hlies : target.Lies m r region)
    (h : target.store key v m = .ok u m') : m.Apart [region] r m' := by
  have hheap {α : Type} {e : Except EvalError α} {f : α → Heap → Unit × Heap}
      (hregion : region = .heap)
      (h : (Run.check e >>= fun a => Run.onHeap (f a)) m = .ok u m') : m.Apart [region] r m' := by
    obtain ⟨a, m₁, ha, h⟩ := run_bind_ok h
    obtain rfl := Run.ok_still (Run.still_check _ _) ha
    cases h
    rw [hregion]
    exact .of_heap m r _
  induction target generalizing key v with
  | slot a s =>
      obtain ⟨depth, hregion, ha⟩ := hlies
      rw [Target.store_slot] at h
      cases h
      rw [hregion]
      exact .of_store hd ha v
  | map ref =>
      cases key with
      | none => cases h
      | some key => exact hheap hlies h
  | nilMap => cases key <;> cases h
  | slice s => cases key <;> exact hheap hlies h
  | field base key' index zero ih =>
      have h : (do
          let fields ← Run.check (structFields (← base.load key' zero))
          if index < fields.length then base.store key' (.struct (fields.set index v))
          else Run.fail (.indexOutOfRange index fields.length) : Run Unit) m = .ok u m' := by
        cases key <;> exact h
      obtain ⟨w, m₁, hw, h⟩ := run_bind_ok h
      obtain rfl := Run.ok_still (base.load_still key' zero m) hw
      obtain ⟨fields, m₁, hfields, h⟩ := run_bind_ok h
      obtain rfl := Run.ok_still (Run.still_check _ _) hfields
      split at h
      · exact ih hlies h
      · cases h

end ScriptCore
