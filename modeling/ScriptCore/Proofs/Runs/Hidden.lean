import ScriptCore.Machine.Execute
import ScriptCore.Proofs.Addressing.Parts
import ScriptCore.Proofs.Runs.Sound

/-!
# Package variables that no code names

A machine is guarded if its functions mention none but certain package variables.  Code that does
not mention a variable cannot store in it: a record lies a fixed number of levels inside that of the
package variables, and only from so many levels out code gets at them.

A run spares the other variables if it leaves them and all records and functions as they are, and
the machine guarded, whatever way it ends.  This is kept by sequences, and most steps do nothing
that matters here: they work on the heap, print, or look at something.

Main statements: `Machine.Level.eq_of_ancestor`, `Machine.Guarded.stored` and
`Run.Sparing.bind`.
-/

namespace ScriptCore

open Code

namespace Machine

/-- The record lies so many levels inside that of the package variables. -/
inductive Level (m : Machine) : Nat → Nat → Prop
  | package : Level m globals 0
  | inner {r o d : Nat} (outer : (m.record r).outer = some o) (rest : Level m o d) :
      Level m r (d + 1)

/-- The functions of a machine mention only `named` package variables. -/
structure Guarded (named : Nat → Prop) (m : Machine) : Prop where
  outermost : (m.record globals).outer = none
  started : 0 < m.records.size
  closures : ∀ (n : Nat) body r, m.functions[n]? = some (.closure body r) →
    ∃ d, m.Level r d ∧ body.KeepsTo named d

/-- The machine `m'` is guarded, and has all that `m` has, but for what `m` has in `named` package
variables and in other records. -/
structure Spares (named : Nat → Prop) (m m' : Machine) : Prop where
  guarded : m'.Guarded named
  hidden : ∀ s, ¬named s → (m'.record globals).get s = (m.record globals).get s
  outer : ∀ r o, (m.record r).outer = some o → (m'.record r).outer = some o
  functions : ∀ (n : Nat) f, m.functions[n]? = some f → m'.functions[n]? = some f

/-- Nothing happens to the records, and there are no more closures. -/
structure Aside (m m' : Machine) : Prop where
  records : m'.records = m.records
  functions : ∀ (n : Nat) f, m.functions[n]? = some f → m'.functions[n]? = some f
  closures : ∀ (n : Nat) body r, m'.functions[n]? = some (.closure body r) →
    m.functions[n]? = some (.closure body r)

variable {named : Nat → Prop} {m m' m'' : Machine} {r d : Nat}

/-- **Only from one number of levels out** code gets at the package variables. -/
theorem Level.eq_of_ancestor (h : m.Level r d) (houtermost : (m.record globals).outer = none)
    {depth : Nat} (ha : m.ancestor? r depth = some globals) : depth = d := by
  induction h generalizing depth with
  | package =>
      cases depth with
      | zero => rfl
      | succ depth =>
          rw [ancestor?, houtermost] at ha
          cases ha
  | @inner r o d outer rest ih =>
      cases depth with
      | zero =>
          cases ha
          rw [houtermost] at outer
          cases outer
      | succ depth =>
          rw [ancestor?, outer] at ha
          rw [ih ha]

/-- Levels stay when records stay where they are. -/
theorem Level.later (h : m.Level r d)
    (houter : ∀ r o, (m.record r).outer = some o → (m'.record r).outer = some o) :
    m'.Level r d := by
  induction h with
  | package => exact .package
  | inner outer _ ih => exact .inner (houter _ _ outer) ih

/-- Closures that were there are guarded as they were. -/
theorem Guarded.later (h : m.Guarded named) (houtermost : (m'.record globals).outer = none)
    (hstarted : 0 < m'.records.size)
    (houter : ∀ r o, (m.record r).outer = some o → (m'.record r).outer = some o)
    (hclosures : ∀ (n : Nat) body r, m'.functions[n]? = some (.closure body r) →
      m.functions[n]? = some (.closure body r) ∨ ∃ d, m.Level r d ∧ body.KeepsTo named d) :
    m'.Guarded named := by
  refine ⟨houtermost, hstarted, fun n body r hf => ?_⟩
  obtain ⟨d, hlevel, hbody⟩ := (hclosures n body r hf).elim (h.closures n body r) id
  exact ⟨d, hlevel.later houter, hbody⟩

namespace Spares

/-- Nothing has changed. -/
protected theorem refl (h : m.Guarded named) : m.Spares named m :=
  ⟨h, fun _ _ => rfl, fun _ _ h => h, fun _ _ h => h⟩

/-- One after the other. -/
theorem trans (h : m.Spares named m') (h' : m'.Spares named m'') : m.Spares named m'' :=
  ⟨h'.guarded, fun s hs => (h'.hidden s hs).trans (h.hidden s hs),
    fun r o ho => h'.outer r o (h.outer r o ho),
    fun n f hf => h'.functions n f (h.functions n f hf)⟩

end Spares

/-- What happens aside spares all package variables. -/
theorem Guarded.aside (h : m.Guarded named) (haside : m.Aside m') : m.Spares named m' := by
  have hrecord : ∀ r, m'.record r = m.record r := fun r => by
    unfold record
    rw [haside.records]
  refine ⟨h.later ?_ ?_ ?_ fun n body r hf => .inl (haside.closures n body r hf), fun s _ => ?_,
    fun r o ho => ?_, haside.functions⟩
  · rw [hrecord, h.outermost]
  · rw [haside.records]
    exact h.started
  · exact fun r o ho => (hrecord r).symm ▸ ho
  · rw [hrecord]
  · rw [hrecord, ho]

/-- A value is stored in a slot, which is that of a named package variable if it is that of a
package variable. -/
theorem Guarded.stored (h : m.Guarded named) {a slot : Nat} (v : Value)
    (hslot : a = globals → named slot) : m.Spares named (m.stored a slot v) := by
  have houter : ∀ r o, (m.record r).outer = some o →
      ((m.stored a slot v).record r).outer = some o := fun r o ho => by
    rcases record_stored m a slot v r with heq | heq
    · rw [heq, ho]
    · rw [heq, Record.outer_set, ho]
  refine ⟨h.later ?_ ?_ houter fun _ _ _ hf => .inl hf, fun s hs => ?_, houter, fun _ _ hf => hf⟩
  · rcases record_stored m a slot v globals with heq | heq
    · rw [heq, h.outermost]
    · rw [heq, Record.outer_set, h.outermost]
  · rw [Machine.stored, Array.size_modify]
    exact h.started
  · by_cases ha : a = globals
    · rcases record_stored m a slot v globals with heq | heq
      · rw [heq]
      · rw [heq]
        exact Record.get_set_ne _ _ fun hne => hs (hne ▸ hslot ha)
    · rw [Machine.stored, record, record, Array.getElem?_modify, if_neg ha]

/-- A new record gets its place. -/
theorem Guarded.invoked (h : m.Guarded named) (body : Body) (outer : Nat) (args : List Value) :
    m.Spares named (m.invoked body outer args) := by
  have hne : ∀ r, r < m.records.size → (m.invoked body outer args).record r = m.record r :=
    fun r hr => record_invoked_ne (Nat.ne_of_lt hr)
  have houter : ∀ r o, (m.record r).outer = some o →
      ((m.invoked body outer args).record r).outer = some o := fun r o ho => by
    rcases Nat.lt_or_ge r m.records.size with hr | hr
    · rw [hne r hr, ho]
    · rw [record_of_ge hr] at ho
      cases ho
  refine ⟨h.later ?_ ?_ houter fun _ _ _ hf => .inl hf, fun s _ => ?_, houter, fun _ _ hf => hf⟩
  · rw [hne globals h.started, h.outermost]
  · rw [Machine.invoked, Array.size_push]
    exact Nat.succ_pos _
  · rw [hne globals h.started]

/-- The new record lies one level further inside. -/
theorem Level.invoked (hlevel : m.Level r d) (h : m.Guarded named) (body : Body)
    (args : List Value) : (m.invoked body r args).Level m.records.size (d + 1) :=
  .inner (by rw [record_invoked_self]; rfl) (hlevel.later (h.invoked body r args).outer)

/-- A new closure keeps to named package variables. -/
theorem Guarded.defined (h : m.Guarded named) {body : Body} (hlevel : m.Level r d)
    (hbody : body.KeepsTo named d) : m.Spares named (m.defined (.closure body r)) := by
  refine ⟨h.later h.outermost h.started (fun _ _ ho => ho) fun n b a hf => ?_, fun _ _ => rfl,
    fun _ _ ho => ho, fun n f hf => ?_⟩
  · rw [Machine.defined, Array.getElem?_push] at hf
    split at hf
    · cases hf
      exact .inr ⟨d, hlevel, hbody⟩
    · exact .inl hf
  · rw [Machine.defined, Array.getElem?_push_lt (Array.getElem?_eq_some_iff.1 hf).1]
    exact congrArg some (Array.getElem?_eq_some_iff.1 hf).2

end Machine

namespace Run

variable {α β : Type}

/-- What a sequence leaves behind. -/
theorem after_bind (p : Run α) (f : α → Run β) (m : Machine) :
    (∃ a, p m = .ok a (after p m) ∧ after (p >>= f) m = after (f a) (after p m)) ∨
      after (p >>= f) m = after p m := by
  have hbind : (p >>= f) m = EStateM.bind p f m := rfl
  cases hp : p m with
  | ok a m₁ =>
      refine .inl ⟨a, ?_, ?_⟩
      · rw [after, hp]
      · rw [after, hbind, EStateM.bind, hp, after, after, hp]
  | error e m₁ =>
      refine .inr ?_
      rw [after, hbind, EStateM.bind, hp, after, hp]

/-! ### Steps aside -/

/-- A computation that gets at no record and makes no closure. -/
def Aside (p : Run α) : Prop :=
  ∀ m : Machine, m.Aside (after p m)

namespace Aside

variable {p : Run α}

/-- A result. -/
theorem pure (a : α) : Aside (Pure.pure a : Run α) :=
  fun _ => ⟨rfl, fun _ _ h => h, fun _ _ _ h => h⟩

/-- A failure. -/
theorem throw (e : Failure) : Aside (MonadExcept.throw e : Run α) :=
  fun _ => ⟨rfl, fun _ _ h => h, fun _ _ _ h => h⟩

/-- A computation on values. -/
theorem check (e : Except EvalError α) : Aside (Run.check e) := by
  cases e with
  | error e => exact .throw _
  | ok a => exact .pure a

/-- One computation after the other. -/
theorem bind {f : α → Run β} (h : Aside p) (hf : ∀ a, Aside (f a)) : Aside (p >>= f) := by
  intro m
  rcases after_bind p f m with ⟨a, -, heq⟩ | heq
  · have h₁ := h m
    have h₂ := hf a (after p m)
    rw [heq]
    exact ⟨h₂.records.trans h₁.records, fun n g hg => h₂.functions n g (h₁.functions n g hg),
      fun n body r hg => h₁.closures n body r (h₂.closures n body r hg)⟩
  · rw [heq]
    exact h m

/-- What is computed from the machine as it is. -/
theorem get {f : Machine → Run α} (h : ∀ m, Aside (f m)) : Aside (MonadState.get >>= f) :=
  fun m => h m m

/-- A computation on the heap. -/
theorem onHeap (f : Heap → α × Heap) : Aside (Run.onHeap f) :=
  fun _ => ⟨rfl, fun _ _ h => h, fun _ _ _ h => h⟩

/-- A record so many levels out is looked up. -/
theorem ancestor (r depth : Nat) : Aside (Run.ancestor r depth) := by
  refine .get fun m => ?_
  split
  · exact .pure _
  · exact .throw _

/-- A slot is read. -/
theorem loadSlot (r slot : Nat) : Aside (Run.loadSlot r slot) :=
  .get fun _ => .pure _

/-- A method with its receiver is no closure. -/
theorem newBound (method recv : Value) (name : Name) :
    Aside (Run.newFunction (.bound method recv) name) := by
  refine fun m => ⟨rfl, fun n f hf => ?_, fun n body r hf => ?_⟩
  · change (m.functions.push _)[n]? = _
    rw [Array.getElem?_push_lt (Array.getElem?_eq_some_iff.1 hf).1]
    exact congrArg some (Array.getElem?_eq_some_iff.1 hf).2
  · change (m.functions.push _)[n]? = _ at hf
    rw [Array.getElem?_push] at hf
    split at hf
    · cases hf
    · exact hf

/-! #### Operations of the heap -/

/-- A new slice. -/
theorem newSlice (vs : List Value) : Aside (Run.newSlice vs) :=
  .onHeap _

/-- Trailing arguments. -/
theorem pack (vs : List Value) : Aside (Run.pack vs) := by
  cases vs with
  | nil => exact .pure _
  | cons v vs => exact .newSlice _

/-- Arguments with the last ones packed into one value. -/
theorem packFrom (position : Option Nat) (vs : List Value) : Aside (packFrom position vs) := by
  cases position with
  | none => exact .pure vs
  | some n => exact .bind (.pack _) fun _ => .pure _

/-- A new slice of zeros. -/
theorem makeSlice (len cap : Int) (zero : Value) : Aside (makeSlice len cap zero) := by
  unfold ScriptCore.makeSlice
  split
  · exact .throw _
  · split
    · exact .throw _
    · exact .onHeap _

/-- A slice that grows. -/
theorem appendTo (base : Value) (vs : List Value) : Aside (appendTo base vs) := by
  unfold ScriptCore.appendTo
  split
  · exact .onHeap _
  · exact .newSlice _

/-- An element of a slice. -/
theorem setElem (s : Slice) (index : Int) (v : Value) : Aside (Run.setElem s index v) :=
  .bind (.check _) fun _ => .onHeap _

/-- An entry of a map. -/
theorem insertEntry (ref : Nat) (key v : Value) : Aside (Run.insertEntry ref key v) :=
  .bind (.check _) fun _ => .onHeap _

/-- Removal of a key. -/
theorem removeKey (map key : Value) : Aside (removeKey map key) := by
  unfold ScriptCore.removeKey
  split
  · exact .bind (.bind (.check _) fun _ => .onHeap _) fun _ => .pure _
  · exact .pure _

/-- Conversion of a value, which may make a new slice. -/
theorem convert (types : TypeTable) (ty : Ty) (v : Value) : Aside (do
    let m ← MonadState.get
    let (v, heap) ← Run.check (m.heap.convert types v ty)
    set { m with heap }
    return v) := by
  intro m
  change m.Aside (after (Run.check (m.heap.convert types v ty) >>= fun r => do
    set { m with heap := r.2 }
    return r.1) m)
  cases m.heap.convert types v ty <;> exact ⟨rfl, fun _ _ h => h, fun _ _ _ h => h⟩

end Aside

/-! ### Runs that spare variables -/

/-- From every guarded machine in which the record `r` lies `d` levels inside, the computation
spares the variables that are not named, and gives results with the property. -/
def Sparing (named : Nat → Prop) (r d : Nat) (p : Run α) (Q : α → Prop) : Prop :=
  ∀ m : Machine, m.Guarded named → m.Level r d →
    m.Spares named (after p m) ∧ ∀ a m', p m = .ok a m' → Q a

namespace Sparing

variable {named : Nat → Prop} {r d : Nat} {p : Run α} {Q Q' : α → Prop} {R : β → Prop}

/-- What happens aside spares all package variables. -/
theorem of_aside (h : Aside p) : Sparing named r d p fun _ => True :=
  fun m hm _ => ⟨hm.aside (h m), fun _ _ _ => trivial⟩

/-- A result. -/
theorem pure {a : α} (h : Q a) : Sparing named r d (Pure.pure a) Q := by
  refine fun m hm _ => ⟨.refl hm, ?_⟩
  rintro b m' ⟨⟩
  exact h

/-- A failure. -/
theorem throw (e : Failure) : Sparing named r d (MonadExcept.throw e : Run α) Q := by
  refine fun m hm _ => ⟨.refl hm, ?_⟩
  rintro b m' ⟨⟩

/-- One computation after the other. -/
theorem bind {f : α → Run β} (h : Sparing named r d p Q)
    (hf : ∀ a, Q a → Sparing named r d (f a) R) : Sparing named r d (p >>= f) R := by
  intro m hm hlevel
  obtain ⟨hspares, hresults⟩ := h m hm hlevel
  have hbind : (p >>= f) m = EStateM.bind p f m := rfl
  cases hp : p m with
  | error e m₁ =>
      have hrun : (p >>= f) m = .error e m₁ := by rw [hbind, EStateM.bind, hp]
      rw [after, hp] at hspares
      exact ⟨by rwa [after, hrun], fun b m' hb => by rw [hrun] at hb; cases hb⟩
  | ok a m₁ =>
      have hrun : (p >>= f) m = f a m₁ := by rw [hbind, EStateM.bind, hp]
      rw [after, hp] at hspares
      obtain ⟨hrest, hlast⟩ := hf a (hresults a m₁ hp) m₁ hspares.guarded
        (hlevel.later hspares.outer)
      have hafter : after (p >>= f) m = after (f a) m₁ := by rw [after, hrun, after]
      exact ⟨hafter ▸ hspares.trans hrest, fun b m' hb => hlast b m' (hrun ▸ hb)⟩

/-- What holds of the package variables holds anywhere. -/
theorem anywhere (h : Sparing named Machine.globals 0 p Q) : Sparing named r d p Q :=
  fun m hm _ => h m hm .package

end Sparing

end Run

end ScriptCore
