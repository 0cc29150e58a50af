import ScriptCore.Machine.Execute

/-!
# Computations that give the count back

While bodies run they are counted.  A computation is balanced if it leaves the count as it was,
whatever way it ends.  All primitive steps are, and so is code whose calls are.

Two computations are alike at a count if both do the same from every machine with this count and
leave it as it is.  Code does the same in two contexts if the calls of the contexts are alike at the
count with which the code runs: whatever happens between two calls, they begin at the same count.

Main statements: `eval_alike` and its companions, and `execute_alike`.
-/

namespace ScriptCore

open Code

namespace Run

variable {α β : Type}

/-- The computation leaves the count of bodies as it was, whatever way it ends. -/
def Balanced (p : Run α) : Prop :=
  ∀ m, (after p m).depth = m.depth

/-- While `n` bodies are counted both computations do the same, and leave `n` counted. -/
def Alike (n : Nat) (p q : Run α) : Prop :=
  ∀ m : Machine, m.depth = n → p m = q m ∧ (after p m).depth = n

/-! ### Primitive steps -/

namespace Balanced

/-- A result. -/
theorem pure (a : α) : Balanced (Pure.pure a : Run α) :=
  fun _ => rfl

/-- A failure. -/
theorem throw (e : Failure) : Balanced (MonadExcept.throw e : Run α) :=
  fun _ => rfl

/-- A computation on values. -/
theorem check (e : Except EvalError α) : Balanced (Run.check e) := by
  cases e with
  | error e => exact .throw _
  | ok a => exact .pure a

/-- A change of the machine that is none of the count. -/
theorem modifyGet {f : Machine → α × Machine} (h : ∀ m, (f m).2.depth = m.depth) :
    Balanced (MonadStateOf.modifyGet f : Run α) :=
  h

/-- What is computed from the machine as it is. -/
theorem get {f : Machine → Run α} (h : ∀ m, Balanced (f m)) : Balanced (MonadState.get >>= f) :=
  fun m => h m m

/-- One computation after the other. -/
theorem bind {p : Run α} {f : α → Run β} (h : Balanced p) (hf : ∀ a, Balanced (f a)) :
    Balanced (p >>= f) := by
  intro m
  have hbind : (p >>= f) m = EStateM.bind p f m := rfl
  have hp := h m
  cases hrun : p m with
  | ok a m' =>
      rw [after, hrun] at hp
      have hrest : (p >>= f) m = f a m' := by rw [hbind, EStateM.bind, hrun]
      rw [after, hrest, ← after, hf a m', hp]
  | error e m' =>
      rw [after, hrun] at hp
      have hrest : (p >>= f) m = .error e m' := by rw [hbind, EStateM.bind, hrun]
      rw [after, hrest, hp]

/-- A computation on the heap. -/
theorem onHeap (f : Heap → α × Heap) : Balanced (Run.onHeap f) :=
  .modifyGet fun _ => rfl

/-- A record so many levels out is looked up. -/
theorem ancestor (r depth : Nat) : Balanced (Run.ancestor r depth) := by
  refine .get fun m => ?_
  split
  · exact .pure _
  · exact .throw _

/-- A slot is read. -/
theorem loadSlot (r slot : Nat) : Balanced (Run.loadSlot r slot) :=
  .get fun _ => .pure _

/-- A value is stored in a slot. -/
theorem storeSlot (r slot : Nat) (v : Value) : Balanced (Run.storeSlot r slot v) :=
  .modifyGet fun _ => rfl

/-- A new record. -/
theorem newRecord (count : Nat) (outer : Option Nat) (args : List Value) :
    Balanced (Run.newRecord count outer args) :=
  .modifyGet fun _ => rfl

/-- A new function value. -/
theorem newFunction (f : Function) (name : Name) : Balanced (Run.newFunction f name) :=
  .modifyGet fun _ => rfl

/-- A text is printed. -/
theorem print (text : String) : Balanced (Run.print text) :=
  .modifyGet fun _ => rfl

/-- A new slice. -/
theorem newSlice (vs : List Value) : Balanced (Run.newSlice vs) :=
  .onHeap _

/-- Trailing arguments. -/
theorem pack (vs : List Value) : Balanced (Run.pack vs) := by
  cases vs with
  | nil => exact .pure _
  | cons v vs => exact .newSlice _

/-- Arguments with the last ones packed into one value. -/
theorem packFrom (position : Option Nat) (vs : List Value) :
    Balanced (ScriptCore.packFrom position vs) := by
  cases position with
  | none => exact .pure vs
  | some n => exact .bind (.pack _) fun _ => .pure _

/-- A new slice of zeros. -/
theorem makeSlice (len cap : Int) (zero : Value) :
    Balanced (ScriptCore.makeSlice len cap zero) := by
  unfold ScriptCore.makeSlice
  split
  · exact .throw _
  · split
    · exact .throw _
    · exact .onHeap _

/-- A slice that grows. -/
theorem appendTo (base : Value) (vs : List Value) : Balanced (ScriptCore.appendTo base vs) := by
  unfold ScriptCore.appendTo
  split
  · exact .onHeap _
  · exact .newSlice _

/-- An element of a slice. -/
theorem setElem (s : Slice) (index : Int) (v : Value) : Balanced (Run.setElem s index v) :=
  .bind (.check _) fun _ => .onHeap _

/-- An entry of a map. -/
theorem insertEntry (ref : Nat) (key v : Value) : Balanced (Run.insertEntry ref key v) :=
  .bind (.check _) fun _ => .onHeap _

/-- Removal of a key. -/
theorem removeKey (map key : Value) : Balanced (ScriptCore.removeKey map key) := by
  unfold ScriptCore.removeKey
  split
  · exact .bind (.bind (.check _) fun _ => .onHeap _) fun _ => .pure _
  · exact .pure _

/-- Conversion of a value, which may make a new slice. -/
theorem convert (types : TypeTable) (ty : Ty) (v : Value) : Balanced (do
    let m ← MonadState.get
    let (v, heap) ← Run.check (m.heap.convert types v ty)
    set { m with heap }
    return v) := by
  intro m
  change (after (Run.check (m.heap.convert types v ty) >>= fun r => do
    set { m with heap := r.2 }
    return r.1) m).depth = m.depth
  cases m.heap.convert types v ty <;> rfl

/-- Values are stored in slots. -/
theorem storeEach (r : Nat) (slots : List (Option Nat)) (vs : List Value) :
    Balanced (ScriptCore.storeEach r slots vs) := by
  induction slots generalizing vs with
  | nil => exact .pure ()
  | cons slot slots ih =>
      cases vs with
      | nil => cases slot <;> exact .pure ()
      | cons v vs =>
          cases slot with
          | none => exact ih vs
          | some s => exact .bind (.storeSlot r s v) fun _ => ih vs

/-- A location is read. -/
theorem load (t : Target) (key : Option Value) (zero : Value) : Balanced (t.load key zero) := by
  induction t generalizing key zero with
  | slot record slot =>
      rw [Target.load_slot]
      exact .loadSlot record slot
  | map ref =>
      cases key with
      | none => exact .pure zero
      | some key => exact .get fun _ => .bind (.check _) fun _ => .pure _
  | nilMap => cases key <;> exact .pure zero
  | slice s => cases key <;> exact .get fun _ => .check _
  | field base fieldKey index fieldZero ih =>
      cases key <;> exact .bind (ih fieldKey fieldZero) fun _ => .bind (.check _) fun _ => .pure _

/-- A value is stored at a location. -/
theorem store (t : Target) (key : Option Value) (v : Value) : Balanced (t.store key v) := by
  induction t generalizing key v with
  | slot record slot =>
      rw [Target.store_slot]
      exact .storeSlot record slot v
  | map ref =>
      cases key with
      | none => exact .throw _
      | some key => exact .insertEntry ref key v
  | nilMap => cases key <;> exact .throw _
  | slice s => cases key <;> exact .setElem s _ v
  | field base fieldKey index fieldZero ih =>
      cases key <;> (
        refine .bind (.load base fieldKey fieldZero) fun w => .bind (.check _) fun fields => ?_
        split
        · exact ih fieldKey _
        · exact .throw _)

end Balanced

/-! ### Computations that are alike -/

namespace Alike

variable {n : Nat} {p q : Run α}

/-- A balanced computation and itself. -/
theorem same (h : Balanced p) : Alike n p p :=
  fun m hm => ⟨rfl, (h m).trans hm⟩

/-- A result. -/
theorem pure (a : α) : Alike n (Pure.pure a : Run α) (Pure.pure a) :=
  .same (.pure a)

/-- A failure. -/
theorem throw (e : Failure) : Alike n (MonadExcept.throw e : Run α) (MonadExcept.throw e) :=
  .same (.throw e)

/-- A computation on values. -/
theorem check (e : Except EvalError α) : Alike n (Run.check e) (Run.check e) :=
  .same (.check e)

/-- What is computed from the machine as it is. -/
theorem get {f g : Machine → Run α} (h : ∀ m, Alike n (f m) (g m)) :
    Alike n (MonadState.get >>= f) (MonadState.get >>= g) :=
  fun m hm => h m m hm

/-- One computation after the other. -/
theorem bind {f g : α → Run β} (h : Alike n p q) (hf : ∀ a, Alike n (f a) (g a)) :
    Alike n (p >>= f) (q >>= g) := by
  intro m hm
  obtain ⟨hsame, hdepth⟩ := h m hm
  have hp : (p >>= f) m = EStateM.bind p f m := rfl
  have hq : (q >>= g) m = EStateM.bind q g m := rfl
  cases hrun : p m with
  | ok a m' =>
      rw [after, hrun] at hdepth
      have hrest : (p >>= f) m = f a m' := by rw [hp, EStateM.bind, hrun]
      have hrest' : (q >>= g) m = g a m' := by rw [hq, EStateM.bind, ← hsame, hrun]
      obtain ⟨hlater, hlast⟩ := hf a m' hdepth
      exact ⟨by rw [hrest, hrest', hlater], by rwa [after, hrest, ← after]⟩
  | error e m' =>
      rw [after, hrun] at hdepth
      have hrest : (p >>= f) m = .error e m' := by rw [hp, EStateM.bind, hrun]
      have hrest' : (q >>= g) m = .error e m' := by rw [hq, EStateM.bind, ← hsame, hrun]
      exact ⟨hrest.trans hrest'.symm, by rwa [after, hrest]⟩

end Alike

end Run

/-! ### Code -/

/-- Calls of function values are alike while `n` bodies are counted. -/
def AlikeCalls (n : Nat) (call call' : Value → List Value → Run (List Value)) : Prop :=
  ∀ f args, Run.Alike n (call f args) (call' f args)

section
variable {n r : Nat} {types : TypeTable} {call call' : Value → List Value → Run (List Value)}

mutual

/-- An expression. -/
theorem eval_alike (h : AlikeCalls n call call') : ∀ e : Code.Expr,
    Run.Alike n (eval ⟨types, call⟩ r e) (eval ⟨types, call'⟩ r e)
  | .const v => .pure v
  | .load depth slot => .same (.bind (.ancestor r depth) fun a => .loadSlot a slot)
  | .expect _ e | .unary _ _ e | .ensure _ _ e => .bind (eval_alike h e) fun _ => .check _
  | .binary _ _ a b =>
      .bind (eval_alike h a) fun _ => .bind (eval_alike h b) fun _ => .check _
  | .both a b => .bind (eval_alike h a) fun v => by
      split
      · exact eval_alike h b
      · exact .pure _
  | .either a b => .bind (eval_alike h a) fun v => by
      split
      · exact .pure _
      · exact eval_alike h b
  | .first call => .bind (evalCall_alike h call) fun _ => .pure _
  | .convert ty e => .bind (eval_alike h e) fun v => .same (.convert types ty v)
  | .length e => .bind (eval_alike h e) fun _ => .get fun _ => .pure _
  | .capacity e => .bind (eval_alike h e) fun v => by cases v <;> exact .pure _
  | .makeSlice len cap zero =>
      .bind (eval_alike h len) fun _ => .bind (evalIndex_alike h _ cap) fun _ =>
        .same (.makeSlice _ _ zero)
  | .makeMap => .same (.bind (.onHeap _) fun _ => .pure _)
  | .append base elems =>
      .bind (eval_alike h base) fun b => .bind (evalAll_alike h elems) fun vs =>
        .same (.appendTo b vs)
  | .sliceOf elems => .bind (evalAll_alike h elems) fun vs => .same (.newSlice vs)
  | .mapOf entries =>
      .bind (.same (.onHeap _)) fun ref => .bind (evalEntries_alike h ref entries) fun _ => .pure _
  | .structOf fields => .bind (evalAll_alike h fields) fun _ => .pure _
  | .mapGet map key _ | .sliceGet map key =>
      .bind (eval_alike h map) fun _ => .bind (eval_alike h key) fun _ => .get fun _ => .check _
  | .byteAt str index =>
      .bind (eval_alike h str) fun _ => .bind (eval_alike h index) fun _ => .check _
  | .field _ e => .bind (eval_alike h e) fun _ => .bind (.check _) fun _ => .pure _
  | .closure body => .same (.newFunction (.closure body r) "func literal")
  | .bindMethod name recv method =>
      .bind (eval_alike h recv) fun v => .bind (eval_alike h method) fun f => by
        cases f with
        | func ref m => exact .same (.newFunction (.bound _ v) name)
        | _ => exact .pure _
  | .asIndex e | .narrow _ e => .bind (eval_alike h e) fun _ => .pure _

/-- An optional index. -/
theorem evalIndex_alike (h : AlikeCalls n call call') (default : Int) : ∀ e : Option Code.Expr,
    Run.Alike n (evalIndex? ⟨types, call⟩ r default e) (evalIndex? ⟨types, call'⟩ r default e)
  | none => .pure _
  | some e => .bind (eval_alike h e) fun _ => .pure _

/-- Expressions, one after the other. -/
theorem evalAll_alike (h : AlikeCalls n call call') : ∀ es : List Code.Expr,
    Run.Alike n (evalAll ⟨types, call⟩ r es) (evalAll ⟨types, call'⟩ r es)
  | [] => .pure _
  | e :: es => .bind (eval_alike h e) fun _ => .bind (evalAll_alike h es) fun _ => .pure _

/-- Entries of a map. -/
theorem evalEntries_alike (h : AlikeCalls n call call') (ref : Nat) :
    ∀ es : List (Code.Expr × Code.Expr),
      Run.Alike n (evalEntries ⟨types, call⟩ r ref es) (evalEntries ⟨types, call'⟩ r ref es)
  | [] => .pure _
  | (key, value) :: rest =>
      .bind (eval_alike h key) fun k => .bind (eval_alike h value) fun v =>
        .bind (.same (.insertEntry ref k v)) fun _ => evalEntries_alike h ref rest

/-- A call. -/
theorem evalCall_alike (h : AlikeCalls n call call') : ∀ c : Call,
    Run.Alike n (evalCall ⟨types, call⟩ r c) (evalCall ⟨types, call'⟩ r c)
  | .direct func none args =>
      .bind (eval_alike h func) fun f => .bind (evalArgs_alike h args) fun vs => h f vs
  | .direct func (some recv) args =>
      .bind (eval_alike h recv) fun v => .bind (eval_alike h func) fun f =>
        .bind (evalArgs_alike h args) fun vs => h f (v :: vs)
  | .delete map key =>
      .bind (eval_alike h map) fun m => .bind (eval_alike h key) fun k => .same (.removeKey m k)

/-- Arguments. -/
theorem evalArgs_alike (h : AlikeCalls n call call') : ∀ args : Args,
    Run.Alike n (evalArgs ⟨types, call⟩ r args) (evalArgs ⟨types, call'⟩ r args)
  | .list fixed none => evalAll_alike h fixed
  | .list fixed (some rest) =>
      .bind (evalAll_alike h fixed) fun _ => .bind (evalAll_alike h rest) fun ws =>
        .bind (.same (.pack ws)) fun _ => .pure _
  | .forward call position =>
      .bind (evalCall_alike h call) fun vs => .same (.packFrom position vs)

end

/-- An optional expression. -/
theorem evalOption_alike (h : AlikeCalls n call call') (e : Option Code.Expr) :
    Run.Alike n (evalOption ⟨types, call⟩ r e) (evalOption ⟨types, call'⟩ r e) := by
  cases e with
  | none => exact .pure _
  | some e => exact .bind (eval_alike h e) fun _ => .pure _

/-- The container of a location. -/
theorem locate_alike (h : AlikeCalls n call call') : ∀ c : Container,
    Run.Alike n (locate ⟨types, call⟩ r c) (locate ⟨types, call'⟩ r c)
  | .var depth slot => .same (.bind (.ancestor r depth) fun _ => .pure _)
  | .map e | .slice e => .bind (eval_alike h e) fun v => by
      cases v <;> first | exact .pure _ | exact .throw _
  | .field base key _ _ =>
      .bind (locate_alike h base) fun _ => .bind (evalOption_alike h key) fun _ => .pure _

/-- **An instruction does the same if its calls are alike.** -/
theorem execute_alike (h : AlikeCalls n call call') (i : Instr) :
    Run.Alike n (execute ⟨types, call⟩ r i) (execute ⟨types, call'⟩ r i) := by
  cases i with
  | eval e => exact .bind (eval_alike h e) fun _ => .pure _
  | run c => exact .bind (evalCall_alike h c) fun _ => .pure _
  | store container key value =>
      exact .bind (locate_alike h container) fun t => .bind (evalOption_alike h key) fun k =>
        .bind (eval_alike h value) fun v => .bind (.same (.store t k v)) fun _ => .pure _
  | update container key op kind value zero =>
      exact .bind (locate_alike h container) fun t => .bind (evalOption_alike h key) fun k =>
        .bind (eval_alike h value) fun v => .bind (.same (.load t k zero)) fun _ =>
          .bind (.check _) fun w => .bind (.same (.store t k w)) fun _ => .pure _
  | setSlots stores =>
      exact .bind (evalAll_alike h _) fun vs => .bind (.same (.storeEach r _ vs)) fun _ => .pure _
  | spread c depth slots =>
      exact .bind (evalCall_alike h c) fun vs => .bind (.same (.ancestor r depth)) fun a =>
        .bind (.same (.storeEach a slots vs)) fun _ => .pure _
  | jump label => exact .pure _
  | branch condition label =>
      refine .bind (eval_alike h condition) fun v => ?_
      split <;> exact .pure _
  | ret values => exact .bind (evalAll_alike h values) fun _ => .pure _
  | retCall c => exact .bind (evalCall_alike h c) fun _ => .pure _

end

end ScriptCore
