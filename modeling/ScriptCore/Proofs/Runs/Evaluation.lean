import ScriptCore.Proofs.Runs.Keeping

/-!
# Evaluation keeps a machine sound

Code of a body that keeps to the bounds and runs in a record of that body does the same under a
watch that agrees with the bounds, and leaves a sound machine behind.  Calls are assumed to do so;
the loop that runs a body will supply them.

Main statements: `eval_keeps` and its companions, one case for each form of code, and
`locate_keeps`.
-/

namespace ScriptCore

open Code

/-- A way to call functions that keeps a machine sound and does the same under a watch. -/
def Calls (B : Bounds) (call : Value → List Value → Run (List Value))
    (call' : Watch → Value → List Value → Run (List Value)) : Prop :=
  ∀ f args, f.Only B.allowed → (∀ v ∈ args, v.Only B.allowed) →
    Keeps B .always (call f args) (fun w => call' w f args) fun vs =>
      ∀ v ∈ vs, v.Only B.allowed

/-- Parts of a body that keep to the bounds inside records of given sizes. -/
def Bounds.Inside (B : Bounds) (owner : Body) (sizes : List Nat) (xs : List Part) : Prop :=
  ∀ x ∈ xs, x.Within B.allowed sizes ∧ x ∈ owner.parts

namespace Bounds

variable {B : Bounds} {owner : Body} {sizes : List Nat} {x : Part} {xs ys : List Part}

/-- No parts. -/
@[simp] theorem inside_nil : B.Inside owner sizes [] :=
  fun _ hx => absurd hx List.not_mem_nil

/-- Parts one by one. -/
@[simp] theorem inside_cons :
    B.Inside owner sizes (x :: xs) ↔
      (x.Within B.allowed sizes ∧ x ∈ owner.parts) ∧ B.Inside owner sizes xs := by
  simp [Inside]

/-- Parts of two pieces of code. -/
@[simp] theorem inside_append :
    B.Inside owner sizes (xs ++ ys) ↔ B.Inside owner sizes xs ∧ B.Inside owner sizes ys := by
  simp only [Inside, List.mem_append]
  exact ⟨fun h => ⟨fun x hx => h x (.inl hx), fun x hx => h x (.inr hx)⟩,
    fun h x hx => hx.elim (h.1 x) (h.2 x)⟩

end Bounds

/-- The first of allowed values, or nil. -/
theorem headD_only {allowed : Nat → Prop} {vs : List Value} (h : ∀ v ∈ vs, v.Only allowed) :
    (vs.headD .nil).Only allowed := by
  cases vs with
  | nil => trivial
  | cons v vs => exact h v List.mem_cons_self

section
variable {B : Bounds} {types : TypeTable}
variable {call : Value → List Value → Run (List Value)}
variable {call' : Watch → Value → List Value → Run (List Value)}
variable {owner : Body} {k : Nat} {sizes : List Nat}

mutual

/-- An expression has an allowed value. -/
theorem eval_keeps (hcalls : Calls B call call') :
    ∀ e : Code.Expr, B.Inside owner sizes e.parts →
      Keeps B (.inside B owner k sizes) (eval ⟨types, call⟩ (k + 1) e)
        (fun w => w.eval ⟨types, call' w⟩ (k + 1) e) (·.Only B.allowed)
  | .const v, h => by
      rw [Expr.parts, Bounds.inside_cons] at h
      exact .pure h.1.1
  | .load depth slot, h => by
      rw [Expr.parts, Bounds.inside_cons] at h
      have hcovers : B.Covers k sizes .read depth slot := Bounds.covers_of_lt h.1.1 .read
      exact .guard hcovers id (.bind (.ancestor hcovers) fun r hr => .loadSlot (hr rfl))
  | .expect c e, h =>
      .bind (eval_keeps hcalls e h) fun v hv => .check fun _ hc => hv.expect hc
  | .unary op kind e, h =>
      .bind (eval_keeps hcalls e h) fun v hv => .check fun _ hc => unaryValue_only hv hc
  | .binary op kind a b, h => by
      rw [Expr.parts, Bounds.inside_append] at h
      exact .bind (eval_keeps hcalls a h.1) fun va _ =>
        .bind (eval_keeps hcalls b h.2) fun vb _ => .check fun _ hc => binaryValues_only hc
  | .both a b, h => by
      rw [Expr.parts, Bounds.inside_append] at h
      exact .bind (eval_keeps hcalls a h.1) fun va _ =>
        .ite (eval_keeps hcalls b h.2) (.pure trivial)
  | .either a b, h => by
      rw [Expr.parts, Bounds.inside_append] at h
      exact .bind (eval_keeps hcalls a h.1) fun va _ =>
        .ite (.pure trivial) (eval_keeps hcalls b h.2)
  | .first call, h =>
      .bind (evalCall_keeps hcalls call h) fun vs hvs => .pure (headD_only hvs)
  | .convert ty e, h =>
      .bind (eval_keeps hcalls e h) fun v hv => .convert hv
  | .length e, h =>
      .bind (eval_keeps hcalls e h) fun v _ => .heap fun m _ => .pure trivial
  | .capacity e, h =>
      .bind (eval_keeps hcalls e h) fun v _ => by
        cases v <;> exact .pure trivial
  | .makeSlice len cap zero, h => by
      rw [Expr.parts, Bounds.inside_cons, Bounds.inside_append] at h
      exact .bind (eval_keeps hcalls len h.2.1) fun n _ =>
        .bind (evalIndex_keeps hcalls _ cap h.2.2) fun c _ => .makeSlice h.1.1
  | .makeMap, _ =>
      .bind (.onHeap fun _ hx => ⟨hx.newMap, trivial⟩) fun _ (_ : True) => .pure trivial
  | .append base elems, h => by
      rw [Expr.parts, Bounds.inside_append] at h
      exact .bind (eval_keeps hcalls base h.1) fun b hb =>
        .bind (evalAll_keeps hcalls elems h.2) fun vs hvs => .appendTo hvs
  | .sliceOf elems, h =>
      .bind (evalAll_keeps hcalls elems h) fun vs hvs => .newSlice hvs
  | .mapOf entries, h =>
      .bind (.onHeap fun _ hx => ⟨hx.newMap, trivial⟩) fun ref (_ : True) =>
        .bind (evalEntries_keeps hcalls ref entries h) fun _ _ => .pure trivial
  | .structOf fields, h =>
      .bind (evalAll_keeps hcalls fields h) fun vs hvs => .pure (Value.only_struct.2 hvs)
  | .mapGet map key zero, h => by
      rw [Expr.parts, Bounds.inside_cons, Bounds.inside_append] at h
      exact .bind (eval_keeps hcalls map h.2.1) fun m _ =>
        .bind (eval_keeps hcalls key h.2.2) fun k _ =>
          .heap fun _ hx => .check fun _ hc => hx.mapElement h.1.1 hc
  | .sliceGet slice index, h => by
      rw [Expr.parts, Bounds.inside_append] at h
      exact .bind (eval_keeps hcalls slice h.1) fun s _ =>
        .bind (eval_keeps hcalls index h.2) fun i _ =>
          .heap fun _ hx => .check fun _ hc => hx.sliceElement hc
  | .byteAt str index, h => by
      rw [Expr.parts, Bounds.inside_append] at h
      exact .bind (eval_keeps hcalls str h.1) fun s _ =>
        .bind (eval_keeps hcalls index h.2) fun i _ => .check fun _ hc => byteOf_only hc
  | .field index e, h =>
      .bind (eval_keeps hcalls e h) fun v hv =>
        .bind (.check fun _ hc => structFields_only hv hc) fun fields hfields =>
          .pure (fieldAt_only hfields index)
  | .closure body, h => by
      rw [Expr.parts, Bounds.inside_cons] at h
      exact .newClosure h.1.1 h.1.2
  | .bindMethod name recv method, h => by
      rw [Expr.parts, Bounds.inside_append] at h
      refine .bind (eval_keeps hcalls recv h.1) fun v hv =>
        .bind (eval_keeps hcalls method h.2) fun f hf => ?_
      cases f with
      | func ref n => exact .newBound hf hv
      | _ => exact .pure hf
  | .asIndex e, h =>
      .bind (eval_keeps hcalls e h) fun v _ => .pure trivial
  | .narrow kind e, h =>
      .bind (eval_keeps hcalls e h) fun v hv => .pure (narrowValue_only hv)
  | .ensure ty zero e, h => by
      rw [Expr.parts, Bounds.inside_cons] at h
      exact .bind (eval_keeps hcalls e h.2) fun v hv =>
        .check fun _ hc => ensure_only h.1.1 hv hc

/-- An optional index. -/
theorem evalIndex_keeps (hcalls : Calls B call call') (default : Int) :
    ∀ e : Option Code.Expr, B.Inside owner sizes (partsOf? e) →
      Keeps B (.inside B owner k sizes) (evalIndex? ⟨types, call⟩ (k + 1) default e)
        (fun w => w.evalIndex? ⟨types, call' w⟩ (k + 1) default e) fun _ => True
  | none, _ => .pure trivial
  | some e, h => .bind (eval_keeps hcalls e h) fun _ _ => .pure trivial

/-- Expressions have allowed values. -/
theorem evalAll_keeps (hcalls : Calls B call call') :
    ∀ es : List Code.Expr, B.Inside owner sizes (partsOf es) →
      Keeps B (.inside B owner k sizes) (evalAll ⟨types, call⟩ (k + 1) es)
        (fun w => w.evalAll ⟨types, call' w⟩ (k + 1) es) fun vs => ∀ v ∈ vs, v.Only B.allowed
  | [], _ => .pure (List.forall_mem_nil _)
  | e :: es, h => by
      rw [partsOf, Bounds.inside_append] at h
      exact .bind (eval_keeps hcalls e h.1) fun v hv =>
        .bind (evalAll_keeps hcalls es h.2) fun vs hvs =>
          .pure (List.forall_mem_cons.2 ⟨hv, hvs⟩)

/-- Entries of a map. -/
theorem evalEntries_keeps (hcalls : Calls B call call') (ref : Nat) :
    ∀ es : List (Code.Expr × Code.Expr), B.Inside owner sizes (partsOfEntries es) →
      Keeps B (.inside B owner k sizes) (evalEntries ⟨types, call⟩ (k + 1) ref es)
        (fun w => w.evalEntries ⟨types, call' w⟩ (k + 1) ref es) fun _ => True
  | [], _ => .pure trivial
  | (key, value) :: rest, h => by
      rw [partsOfEntries, Bounds.inside_append, Bounds.inside_append] at h
      exact .bind (eval_keeps hcalls key h.1) fun k _ =>
        .bind (eval_keeps hcalls value h.2.1) fun v hv =>
          .bind (.insertEntry hv) fun _ _ => evalEntries_keeps hcalls ref rest h.2.2

/-- A call gives allowed values. -/
theorem evalCall_keeps (hcalls : Calls B call call') :
    ∀ c : Call, B.Inside owner sizes c.parts →
      Keeps B (.inside B owner k sizes) (evalCall ⟨types, call⟩ (k + 1) c)
        (fun w => w.evalCall ⟨types, call' w⟩ (k + 1) c) fun vs => ∀ v ∈ vs, v.Only B.allowed
  | .direct func none args, h => by
      rw [Call.parts, Bounds.inside_append, Bounds.inside_append] at h
      exact .bind (eval_keeps hcalls func h.1) fun f hf =>
        .bind (evalArgs_keeps hcalls args h.2.2) fun vs hvs => .anywhere (hcalls f vs hf hvs)
  | .direct func (some recv) args, h => by
      rw [Call.parts, Bounds.inside_append, Bounds.inside_append] at h
      exact .bind (eval_keeps hcalls recv h.2.1) fun v hv =>
        .bind (eval_keeps hcalls func h.1) fun f hf =>
          .bind (evalArgs_keeps hcalls args h.2.2) fun vs hvs =>
            .anywhere (hcalls f (v :: vs) hf (List.forall_mem_cons.2 ⟨hv, hvs⟩))
  | .delete map key, h => by
      rw [Call.parts, Bounds.inside_append] at h
      exact .bind (eval_keeps hcalls map h.1) fun m _ =>
        .bind (eval_keeps hcalls key h.2) fun k _ => .removeKey

/-- Arguments are allowed values. -/
theorem evalArgs_keeps (hcalls : Calls B call call') :
    ∀ args : Args, B.Inside owner sizes args.parts →
      Keeps B (.inside B owner k sizes) (evalArgs ⟨types, call⟩ (k + 1) args)
        (fun w => w.evalArgs ⟨types, call' w⟩ (k + 1) args) fun vs => ∀ v ∈ vs, v.Only B.allowed
  | .list fixed none, h => evalAll_keeps hcalls fixed h
  | .list fixed (some rest), h => by
      rw [Args.parts, Bounds.inside_append] at h
      refine .bind (evalAll_keeps hcalls fixed h.1) fun vs hvs =>
        .bind (evalAll_keeps hcalls rest h.2) fun ws hws =>
          .bind (.pack hws) fun v hv => .pure ?_
      exact List.forall_mem_append.2 ⟨hvs, List.forall_mem_singleton.2 hv⟩
  | .forward call position, h =>
      .bind (evalCall_keeps hcalls call h) fun vs hvs => .packFrom hvs

end

/-- An optional expression. -/
theorem evalOption_keeps (hcalls : Calls B call call') (e : Option Code.Expr)
    (h : B.Inside owner sizes (partsOf? e)) :
    Keeps B (.inside B owner k sizes) (evalOption ⟨types, call⟩ (k + 1) e)
      (fun w => w.evalOption ⟨types, call' w⟩ (k + 1) e) fun _ => True := by
  cases e with
  | none => exact .pure trivial
  | some e => exact .bind (eval_keeps hcalls e h) fun _ _ => .pure trivial

end

/-! ### Locations -/

/-- The package variable that the location is part of may be read. -/
def Target.Readable (B : Bounds) : Target → Prop
  | .slot record s => record = Machine.globals → s < B.globals
  | .field base _ _ zero => base.Readable B ∧ zero.Only B.allowed
  | _ => True

/-- To store at the location, no package variable is read that may not be read. -/
def Target.Storable (B : Bounds) : Target → Prop
  | .field base _ _ zero => base.Readable B ∧ zero.Only B.allowed
  | _ => True

namespace Target

variable {B : Bounds} {K : Lasting} {t : Target}

/-- Where one may read one may store. -/
theorem Readable.storable (h : t.Readable B) : t.Storable B := by
  cases t with
  | field base key index zero => exact h
  | _ => trivial

/-- A location holds an allowed value. -/
theorem load_keeps (h : t.Readable B) {key : Option Value} {zero : Value}
    (hzero : zero.Only B.allowed) :
    Keeps B K (t.load key zero) (fun _ => t.load key zero) (·.Only B.allowed) := by
  induction t generalizing key zero with
  | slot record slot =>
      rw [load_slot]
      exact .loadSlot h
  | map ref =>
      cases key with
      | none => exact .pure hzero
      | some key =>
          refine .heap fun m hm =>
            .bind (Q := fun o => ∀ v ∈ o, v.Only B.allowed) (.check ?_) fun o ho => .pure ?_
          · rintro (_ | v) hv w hw
            · cases hw
            · cases hw
              exact hm.lookup hv
          · cases o with
            | none => exact hzero
            | some v => exact ho v rfl
  | nilMap => cases key <;> exact .pure hzero
  | slice s => cases key <;> exact .heap fun m hm => .check fun v hv => hm.getElem hv
  | field base fieldKey index fieldZero ih =>
      have hbase := @ih h.1 fieldKey _ h.2
      cases key <;> exact .bind hbase fun v hv =>
        .bind (.check fun _ hc => structFields_only hv hc) fun fields hfields =>
          .pure (fieldAt_only hfields index)

/-- An allowed value is stored at a location. -/
theorem store_keeps (h : t.Storable B) {key : Option Value} {v : Value} (hv : v.Only B.allowed) :
    Keeps B K (t.store key v) (fun _ => t.store key v) fun _ => True := by
  induction t generalizing key v with
  | slot record slot =>
      rw [store_slot]
      exact .storeSlot hv
  | map ref =>
      cases key with
      | none => exact .fail _
      | some key => exact .insertEntry hv
  | nilMap => cases key <;> exact .fail _
  | slice s => cases key <;> exact .setElem hv
  | field base fieldKey index fieldZero ih =>
      cases key <;> exact .bind (load_keeps h.1 h.2) fun w hw =>
        .bind (.check fun _ hc => structFields_only hw hc) fun fields hfields =>
          .ite (ih h.1.storable (Value.only_struct.2 fun x hx =>
            (List.mem_or_eq_of_mem_set hx).elim (hfields x) fun heq => heq ▸ hv)) (.fail _)

end Target

section
variable {B : Bounds} {types : TypeTable}
variable {call : Value → List Value → Run (List Value)}
variable {call' : Watch → Value → List Value → Run (List Value)}
variable {owner : Body} {k : Nat} {sizes : List Nat}

/-- A location may be read if the slots it is part of may be. -/
theorem locate_keeps (hcalls : Calls B call call') (a : Access) :
    ∀ c : Container, B.Inside owner sizes c.parts →
      Keeps B (.inside B owner k sizes) (locate ⟨types, call⟩ (k + 1) c)
        (fun w => w.locate ⟨types, call' w⟩ (k + 1) a c) (·.Readable B)
  | .var depth slot, h => by
      rw [Container.parts, Bounds.inside_cons] at h
      have hcovers : B.Covers k sizes .read depth slot := Bounds.covers_of_lt h.1.1 .read
      exact .guard hcovers (fun _ => rfl) (.bind (.ancestor hcovers) fun r hr => .pure (hr rfl))
  | .map e, h => by
      refine .bind (eval_keeps hcalls e h) fun v _ => ?_
      cases v with
      | map ref => exact .pure trivial
      | nil => exact .pure trivial
      | _ => exact .fail _
  | .slice e, h => by
      refine .bind (eval_keeps hcalls e h) fun v _ => ?_
      cases v with
      | slice s => exact .pure trivial
      | nil => exact .pure trivial
      | _ => exact .fail _
  | .field base key index zero, h => by
      rw [Container.parts, Bounds.inside_cons, Bounds.inside_append] at h
      exact .bind (locate_keeps hcalls .read base h.2.1) fun t ht =>
        .bind (evalOption_keeps hcalls key h.2.2) fun _ _ => .pure ⟨ht, h.1.1⟩

end

end ScriptCore
