import ScriptCore.Machine.Basic
import ScriptCore.Proofs.Addressing.Parts
import ScriptCore.Proofs.Runs.Values

/-!
# Sound machines

Every record but that of the package variables belongs to a body: the one for whose invocation it
was made.  The body that owns a record stands as a function literal in the body that owns the record
around it, or is a function of the package if that is the record of the package variables.  So the
records around a record belong to the bodies around its body, in the same order.  Records get
neither smaller nor other records around them, and functions stay what they are.

A machine is sound within bounds if its records nest, its values refer to none but allowed
functions, and what an allowed function can run keeps to the records around it and to the bounds.
Package variables beyond the bound may hold what they started with; code within the bounds does not
read them.

Main statements: `Machine.Chain.ancestor` (where records of known sizes lie around a record, none of
them is missing), `Machine.Later.trans`, and how a machine stays sound: `Sound.of_same` (another
heap), `Sound.store`, `Sound.newRecord` and `Sound.newFunction`.
-/

namespace ScriptCore

open Code

/-! ### Nested records -/

/-- The body stands where a function made in the record of the given number can stand: outside all
bodies, or in the body that owns the record. -/
def Stands (tops : Body → Prop) (owners : List Body) : Nat → Body → Prop
  | 0, body => tops body
  | k + 1, body => ∃ owner, owners[k]? = some owner ∧ .literal body ∈ owner.parts

/-- Records get more. -/
theorem Stands.mono {tops : Body → Prop} {owners more : List Body} (h : owners <+: more) {r : Nat}
    {body : Body} (hs : Stands tops owners r body) : Stands tops more r body := by
  cases r with
  | zero => exact hs
  | succ k =>
      obtain ⟨owner, howner, hmem⟩ := hs
      obtain ⟨rest, rfl⟩ := h
      refine ⟨owner, ?_, hmem⟩
      rw [List.getElem?_append_left (List.getElem?_eq_some_iff.1 howner).1]
      exact howner

namespace Machine

/-- Records and functions nest as the bodies do.  Record `k + 1` belongs to `owners[k]`. -/
structure Nested (tops : Body → Prop) (owners : List Body) (m : Machine) : Prop where
  size : m.records.size = owners.length + 1
  outermost : (m.record globals).outer = none
  /-- A record lies in that of the body around its owner and has room for the slots of its owner. -/
  records : ∀ (k : Nat) owner, owners[k]? = some owner → ∃ o ≤ k,
    (m.record (k + 1)).outer = some o ∧ Stands tops owners o owner ∧
      owner.slots ≤ (m.record (k + 1)).slots.size
  /-- A function will run in the record of the body in which it stands. -/
  closures : ∀ (n : Nat) body r, m.functions[n]? = some (.closure body r) →
    Stands tops owners r body

/-- Records of at least the given sizes lie around a record, the innermost first; the last one is
that of the package variables, for which `g` is the size. -/
inductive Chain (m : Machine) (g : Nat) : Nat → List Nat → Prop
  | globals (room : g ≤ (m.record globals).slots.size) : Chain m g globals [g]
  | inner {k o n : Nat} {sizes : List Nat} (outer : (m.record (k + 1)).outer = some o)
      (room : n ≤ (m.record (k + 1)).slots.size) (rest : Chain m g o sizes) :
      Chain m g (k + 1) (n :: sizes)

/-- **No record of a chain is missing**, and each has the size that the chain gives. -/
theorem Chain.ancestor {m : Machine} {g r : Nat} {sizes : List Nat} (h : m.Chain g r sizes)
    {depth n : Nat} (hn : sizes[depth]? = some n) :
    ∃ a, m.ancestor? r depth = some a ∧ n ≤ (m.record a).slots.size ∧
      (a = Machine.globals → n = g) := by
  induction h generalizing depth with
  | globals room =>
      cases depth with
      | zero =>
          cases hn
          exact ⟨Machine.globals, rfl, room, fun _ => rfl⟩
      | succ depth => cases hn
  | @inner k o n' sizes outer room rest ih =>
      cases depth with
      | zero =>
          cases hn
          exact ⟨k + 1, rfl, room, fun h => by cases h⟩
      | succ depth =>
          obtain ⟨a, ha, hroom⟩ := ih hn
          exact ⟨a, by rw [ancestor?, outer]; exact ha, hroom⟩

/-- With more room for the package variables the chain has more room. -/
theorem Chain.roomier {m : Machine} {g g' r : Nat} {sizes : List Nat} (h : m.Chain g r sizes)
    (hg : g ≤ g') (room : g' ≤ (m.record Machine.globals).slots.size) :
    ∃ sizes', m.Chain g' r sizes' ∧ Roomier sizes sizes' := by
  induction h with
  | globals => exact ⟨[g'], .globals room, Roomier.cons hg (.refl [])⟩
  | @inner k o n sizes outer hroom rest ih =>
      obtain ⟨sizes', hchain, hroomier⟩ := ih
      exact ⟨n :: sizes', .inner outer hroom hchain, hroomier.cons (Nat.le_refl n)⟩

/-- A machine with its owners after another one. -/
structure Later (owners : List Body) (m : Machine) (owners' : List Body) (m' : Machine) :
    Prop where
  owners : owners <+: owners'
  sizes : ∀ r, (m.record r).slots.size ≤ (m'.record r).slots.size
  outer : ∀ r o, (m.record r).outer = some o → (m'.record r).outer = some o
  functions : ∀ (n : Nat) f, m.functions[n]? = some f → m'.functions[n]? = some f

namespace Later

variable {owners owners₁ owners₂ : List Body} {m m₁ m₂ : Machine}

/-- Nothing has changed. -/
protected theorem refl (owners : List Body) (m : Machine) : Later owners m owners m :=
  ⟨List.prefix_refl owners, fun _ => Nat.le_refl _, fun _ _ h => h, fun _ _ h => h⟩

/-- One after the other. -/
theorem trans (h : Later owners m owners₁ m₁) (h' : Later owners₁ m₁ owners₂ m₂) :
    Later owners m owners₂ m₂ :=
  ⟨h.owners.trans h'.owners, fun r => Nat.le_trans (h.sizes r) (h'.sizes r),
    fun r o ho => h'.outer r o (h.outer r o ho),
    fun n f hf => h'.functions n f (h.functions n f hf)⟩

/-- Chains stay. -/
theorem chain (h : Later owners m owners₁ m₁) {g r : Nat} {sizes : List Nat}
    (hc : m.Chain g r sizes) : m₁.Chain g r sizes := by
  induction hc with
  | globals room => exact .globals (Nat.le_trans room (h.sizes _))
  | inner outer room _ ih => exact .inner (h.outer _ _ outer) (Nat.le_trans room (h.sizes _)) ih

/-- An owner stays. -/
theorem owner (h : Later owners m owners₁ m₁) {k : Nat} {body : Body}
    (hk : owners[k]? = some body) : owners₁[k]? = some body := by
  obtain ⟨rest, rfl⟩ := h.owners
  rw [List.getElem?_append_left (List.getElem?_eq_some_iff.1 hk).1]
  exact hk

end Later

end Machine

/-! ### Bounds -/

/-- What code may get at. -/
structure Bounds where
  /-- Functions that values may refer to. -/
  allowed : Nat → Prop
  /-- Number of package variables that may be read. -/
  globals : Nat
  /-- Number of package variables in which something may be stored. -/
  room : Nat
  /-- What the variables beyond those may hold that may be read. -/
  initial : Nat → Value → Prop
  /-- Bodies outside all other bodies. -/
  tops : Body → Prop

/-- What a function does keeps to the bounds. -/
def Function.Keeps (B : Bounds) (m : Machine) : Function → Prop
  | .closure body r => ∃ sizes, m.Chain B.globals r sizes ∧ body.Within B.allowed sizes
  | .host _ => True
  | .bound method recv => method.Only B.allowed ∧ recv.Only B.allowed

/-- A machine whose code keeps to the bounds. -/
structure Sound (B : Bounds) (owners : List Body) (m : Machine) : Prop where
  nested : m.Nested B.tops owners
  le : B.globals ≤ B.room
  room : B.room ≤ (m.record Machine.globals).slots.size
  globals : ∀ (s : Nat) v, (m.record Machine.globals).slots[s]? = some v →
    v.Only B.allowed ∨ (B.globals ≤ s ∧ B.initial s v)
  locals : ∀ (k s : Nat) v, (m.record (k + 1)).slots[s]? = some v → v.Only B.allowed
  heap : m.heap.Only B.allowed
  functions : ∀ (n : Nat) f, m.functions[n]? = some f → B.allowed n → f.Keeps B m
  /-- Functions that will be made are allowed. -/
  fresh : ∀ n, m.functions.size ≤ n → B.allowed n

/-- What a function does stays within the bounds. -/
theorem Function.Keeps.later {B : Bounds} {owners owners' : List Body} {m m' : Machine}
    {f : Function} (h : m.Later owners owners' m') (hf : f.Keeps B m) : f.Keeps B m' := by
  cases f with
  | closure body r =>
      obtain ⟨sizes, hchain, hbody⟩ := hf
      exact ⟨sizes, h.chain hchain, hbody⟩
  | host _ => trivial
  | bound _ _ => exact hf

/-! ### Slots -/

namespace Record

variable {rec : Record} {slot s : Nat} {v w : Value}

/-- Storing in a slot does not make a record smaller. -/
theorem size_le_set (rec : Record) (slot : Nat) (v : Value) :
    rec.slots.size ≤ (rec.set slot v).slots.size := by
  unfold set
  split
  · simp
  · simp only [Array.size_append, Array.size_push, Array.size_replicate]
    omega

/-- The record around a record stays. -/
@[simp] theorem outer_set (rec : Record) (slot : Nat) (v : Value) :
    (rec.set slot v).outer = rec.outer := by
  unfold set
  split <;> rfl

/-- What a slot holds after something was stored in a slot. -/
theorem of_set (h : (rec.set slot v).slots[s]? = some w) :
    rec.slots[s]? = some w ∨ w = v ∨ w = .nil := by
  unfold set at h
  split at h
  · rw [Array.getElem?_setIfInBounds] at h
    split at h
    · exact .inr (.inl (Option.some.inj h).symm)
    · exact .inl h
  · rw [Array.getElem?_append] at h
    split at h
    · exact .inl h
    · rw [Array.getElem?_push] at h
      split at h
      · exact .inr (.inl (Option.some.inj h).symm)
      · rw [Array.getElem?_replicate] at h
        split at h
        · exact .inr (.inr (Option.some.inj h).symm)
        · cases h

end Record

namespace Machine

/-- The machine with a value stored in a slot of a record. -/
def stored (m : Machine) (r slot : Nat) (v : Value) : Machine :=
  { m with records := m.records.modify r fun rec => rec.set slot v }

variable {m : Machine} {r slot : Nat} {v : Value} {owners : List Body}

/-- Each record is the one it was, or has a value stored in it. -/
theorem record_stored (m : Machine) (r slot : Nat) (v : Value) (a : Nat) :
    (m.stored r slot v).record a = m.record a ∨
      (m.stored r slot v).record a = (m.record a).set slot v := by
  unfold stored record
  rw [Array.getElem?_modify]
  split
  · next heq =>
    cases ha : m.records[a]? with
    | none => exact .inl (by rfl)
    | some rec => exact .inr (by rfl)
  · exact .inl rfl

/-- A machine in which something has been stored comes later. -/
theorem later_stored (owners : List Body) (m : Machine) (r slot : Nat) (v : Value) :
    m.Later owners owners (m.stored r slot v) where
  owners := List.prefix_refl owners
  sizes a := by
    rcases record_stored m r slot v a with h | h
    · exact Nat.le_of_eq (by rw [h])
    · rw [h]
      exact Record.size_le_set _ _ _
  outer a o ho := by
    rcases record_stored m r slot v a with h | h <;> rw [h]
    · exact ho
    · rw [Record.outer_set]
      exact ho
  functions _ _ hf := hf

end Machine

namespace Sound

variable {B : Bounds} {owners : List Body} {m : Machine}

/-- Package variables that may be read hold allowed values, and so do all slots of other
records. -/
theorem get (h : Sound B owners m) {a slot : Nat} (hslot : a = Machine.globals → slot < B.globals) :
    ((m.record a).get slot).Only B.allowed := by
  unfold Record.get
  cases hv : (m.record a).slots[slot]? with
  | none => trivial
  | some v =>
      cases a with
      | zero =>
          rcases h.globals slot v hv with hv | ⟨hge, -⟩
          · exact hv
          · exact absurd (hslot rfl) (Nat.not_lt.2 hge)
      | succ k => exact h.locals k slot v hv

/-- Storing an allowed value keeps a machine sound. -/
theorem store (h : Sound B owners m) {r slot : Nat} {v : Value} (hv : v.Only B.allowed) :
    Sound B owners (m.stored r slot v) := by
  have hlater := Machine.later_stored owners m r slot v
  -- a slot holds what it held, or an allowed value
  have hslots : ∀ (a s : Nat) w, ((m.stored r slot v).record a).slots[s]? = some w →
      (m.record a).slots[s]? = some w ∨ w.Only B.allowed := by
    intro a s w hw
    rcases Machine.record_stored m r slot v a with heq | heq <;> rw [heq] at hw
    · exact .inl hw
    · rcases Record.of_set hw with hw | rfl | rfl
      · exact .inl hw
      · exact .inr hv
      · exact .inr trivial
  constructor
  case nested =>
    refine ⟨?_, ?_, fun k owner hk => ?_, h.nested.closures⟩
    · exact (Array.size_modify ..).trans h.nested.size
    · rcases Machine.record_stored m r slot v Machine.globals with heq | heq <;> rw [heq]
      · exact h.nested.outermost
      · rw [Record.outer_set]
        exact h.nested.outermost
    · obtain ⟨o, ho, houter, hstands, hroom⟩ := h.nested.records k owner hk
      exact ⟨o, ho, hlater.outer _ _ houter, hstands, Nat.le_trans hroom (hlater.sizes _)⟩
  case le => exact h.le
  case room => exact Nat.le_trans h.room (hlater.sizes _)
  case globals =>
    intro s w hw
    rcases hslots _ s w hw with hw | hw
    · exact h.globals s w hw
    · exact .inl hw
  case locals =>
    intro k s w hw
    rcases hslots _ s w hw with hw | hw
    · exact h.locals k s w hw
    · exact hw
  case heap => exact h.heap
  case functions => exact fun n f hf hn => (h.functions n f hf hn).later hlater
  case fresh => exact h.fresh

/-! ### The heap, the output and the number of bodies being executed -/

/-- A machine with the same records and functions comes later. -/
theorem later_of_same {m' : Machine} (hrecords : m'.records = m.records)
    (hfunctions : m'.functions = m.functions) : m.Later owners owners m' := by
  have hrecord : ∀ r, m'.record r = m.record r := fun r => by
    unfold Machine.record
    rw [hrecords]
  exact ⟨List.prefix_refl owners, fun r => Nat.le_of_eq (by rw [hrecord]),
    fun r o ho => by rw [hrecord, ho],
    fun n f hf => by rw [hfunctions, hf]⟩

/-- Records and functions stay what they are, and the heap holds allowed values. -/
theorem of_same (h : Sound B owners m) {m' : Machine} (hrecords : m'.records = m.records)
    (hfunctions : m'.functions = m.functions) (hheap : m'.heap.Only B.allowed) :
    Sound B owners m' := by
  have hlater : m.Later owners owners m' := later_of_same hrecords hfunctions
  have hrecord : ∀ r, m'.record r = m.record r := fun r => by
    unfold Machine.record
    rw [hrecords]
  constructor
  case nested =>
    refine ⟨hrecords ▸ h.nested.size, ?_, ?_, hfunctions ▸ h.nested.closures⟩
    · rw [hrecord]
      exact h.nested.outermost
    · simpa only [hrecord] using h.nested.records
  case le => exact h.le
  case room =>
    rw [hrecord]
    exact h.room
  case globals => simpa only [hrecord] using h.globals
  case locals => simpa only [hrecord] using h.locals
  case heap => exact hheap
  case functions =>
    rw [hfunctions]
    exact fun n f hf hn => (h.functions n f hf hn).later hlater
  case fresh =>
    rw [hfunctions]
    exact h.fresh

end Sound

/-! ### Records -/

namespace Machine

/-- The machine with a record for the invocation of a body. -/
def invoked (m : Machine) (body : Body) (outer : Nat) (args : List Value) : Machine :=
  { m with records := m.records.push (.new body.slots (some outer) args) }

/-- The machine with one function more. -/
def defined (m : Machine) (f : Function) : Machine :=
  { m with functions := m.functions.push f }

variable {m : Machine} {body : Body} {outer : Nat} {args : List Value} {owners : List Body}

/-- The new record. -/
theorem record_invoked_self (m : Machine) (body : Body) (outer : Nat) (args : List Value) :
    (m.invoked body outer args).record m.records.size = .new body.slots (some outer) args := by
  simp [invoked, record]

/-- The other records stay. -/
theorem record_invoked_ne {r : Nat} (h : r ≠ m.records.size) :
    (m.invoked body outer args).record r = m.record r := by
  simp only [invoked, record, Array.getElem?_push]
  rw [if_neg h]

/-- A record that does not exist is empty. -/
theorem record_of_ge {r : Nat} (h : m.records.size ≤ r) : m.record r = ⟨#[], none⟩ := by
  simp [record, h]

/-- The machine comes later, and the body owns the new record. -/
theorem later_invoked : m.Later owners (owners ++ [body]) (m.invoked body outer args) where
  owners := List.prefix_append owners [body]
  sizes r := by
    by_cases hr : r = m.records.size
    · rw [record_of_ge (Nat.le_of_eq hr.symm)]
      exact Nat.zero_le _
    · exact Nat.le_of_eq (by rw [record_invoked_ne hr])
  outer r o ho := by
    by_cases hr : r = m.records.size
    · rw [record_of_ge (Nat.le_of_eq hr.symm)] at ho
      cases ho
    · rw [record_invoked_ne hr]
      exact ho
  functions _ _ hf := hf

end Machine

namespace Record

variable {count : Nat} {outer : Option Nat} {args : List Value}

/-- A new record has room for its slots. -/
theorem size_new : count ≤ (Record.new count outer args).slots.size := by
  simp only [new, List.size_toArray, List.length_append, List.length_replicate]
  omega

/-- A new record holds the arguments. -/
theorem of_new {s : Nat} {v : Value} (h : (Record.new count outer args).slots[s]? = some v) :
    v ∈ args ∨ v = .nil := by
  rw [new, List.getElem?_toArray] at h
  rcases List.mem_append.1 (List.mem_of_getElem? h) with hv | hv
  · exact .inl hv
  · exact .inr (List.eq_of_mem_replicate hv)

end Record

namespace Sound

variable {B : Bounds} {owners : List Body} {m : Machine}

/-- A body that stands at a record keeps a machine sound when it gets a record of its own there. -/
theorem invoke (h : Sound B owners m) {body : Body} {outer : Nat} {args : List Value}
    (hstands : Stands B.tops owners outer body) (hargs : ∀ v ∈ args, v.Only B.allowed) :
    Sound B (owners ++ [body]) (m.invoked body outer args) := by
  have hsize := h.nested.size
  have hlater : m.Later owners (owners ++ [body]) (m.invoked body outer args) :=
    Machine.later_invoked
  have hself := Machine.record_invoked_self m body outer args
  have hne : ∀ r, r ≠ owners.length + 1 → (m.invoked body outer args).record r = m.record r :=
    fun r hr => Machine.record_invoked_ne (hsize ▸ hr)
  rw [hsize] at hself
  constructor
  case nested =>
    constructor
    case size => simp [Machine.invoked, hsize]
    case outermost =>
      rw [hne Machine.globals (Nat.succ_ne_zero _).symm]
      exact h.nested.outermost
    case records =>
      intro k owner hk
      rw [List.getElem?_append] at hk
      split at hk
      · next hlt =>
        obtain ⟨o, ho, houter, hs, hroom⟩ := h.nested.records k owner hk
        exact ⟨o, ho, hlater.outer _ _ houter, hs.mono hlater.owners,
          Nat.le_trans hroom (hlater.sizes _)⟩
      · next hge =>
        obtain ⟨hk0, hlen⟩ := List.getElem?_eq_some_iff.1 hk
        have hk' : k = owners.length := by
          rw [List.length_singleton] at hk0
          omega
        subst hk'
        simp only [Nat.sub_self, List.getElem_cons_zero] at hlen
        subst hlen
        rw [hself]
        refine ⟨outer, ?_, rfl, hstands.mono hlater.owners, Record.size_new⟩
        cases outer with
        | zero => exact Nat.zero_le _
        | succ o =>
            obtain ⟨owner, howner, -⟩ := hstands
            exact (List.getElem?_eq_some_iff.1 howner).1
    case closures => exact fun n b r hf => (h.nested.closures n b r hf).mono hlater.owners
  case le => exact h.le
  case room => exact Nat.le_trans h.room (hlater.sizes _)
  case globals =>
    intro s v hv
    rw [hne Machine.globals (Nat.succ_ne_zero _).symm] at hv
    exact h.globals s v hv
  case locals =>
    intro k s v hv
    by_cases hk : k = owners.length
    · subst hk
      rw [hself] at hv
      rcases Record.of_new hv with hv | rfl
      · exact hargs v hv
      · trivial
    · rw [hne _ (by omega)] at hv
      exact h.locals k s v hv
  case heap => exact h.heap
  case functions => exact fun n f hf hn => (h.functions n f hf hn).later hlater
  case fresh => exact h.fresh

/-- The chain of a new record. -/
theorem chain_invoked (h : Sound B owners m) {body : Body} {outer : Nat} {args : List Value}
    {sizes : List Nat} (hchain : m.Chain B.globals outer sizes) :
    (m.invoked body outer args).Chain B.globals (owners.length + 1) (body.slots :: sizes) := by
  have hself := Machine.record_invoked_self m body outer args
  rw [h.nested.size] at hself
  refine .inner (o := outer) (by rw [hself]; rfl) (by rw [hself]; exact Record.size_new) ?_
  exact (Machine.later_invoked : m.Later owners (owners ++ [body]) _).chain hchain

/-! ### Functions -/

/-- A function that keeps to the bounds, and stands where it will run. -/
theorem define (h : Sound B owners m) {f : Function} (hf : f.Keeps B m)
    (hstands : ∀ body r, f = .closure body r → Stands B.tops owners r body) :
    Sound B owners (m.defined f) ∧ m.Later owners owners (m.defined f) := by
  have hlater : m.Later owners owners (m.defined f) :=
    ⟨List.prefix_refl owners, fun _ => Nat.le_refl _, fun _ _ ho => ho, fun n g hg => by
      rw [Machine.defined, Array.getElem?_push_lt (Array.getElem?_eq_some_iff.1 hg).1]
      exact congrArg some (Array.getElem?_eq_some_iff.1 hg).2⟩
  -- a function is one that was there or the new one
  have hcases : ∀ (n : Nat) g, (m.defined f).functions[n]? = some g →
      m.functions[n]? = some g ∨ g = f := by
    intro n g hg
    rw [Machine.defined, Array.getElem?_push] at hg
    split at hg
    · exact .inr (Option.some.inj hg).symm
    · exact .inl hg
  refine ⟨?_, hlater⟩
  constructor
  case nested =>
    refine ⟨h.nested.size, h.nested.outermost, h.nested.records, fun n body r hg => ?_⟩
    rcases hcases n _ hg with hg | heq
    · exact h.nested.closures n body r hg
    · exact hstands body r heq.symm
  case le => exact h.le
  case room => exact h.room
  case globals => exact h.globals
  case locals => exact h.locals
  case heap => exact h.heap
  case functions =>
    intro n g hg hn
    rcases hcases n g hg with hg | rfl
    · exact (h.functions n g hg hn).later hlater
    · exact hf.later hlater
  case fresh =>
    intro n hn
    rw [Machine.defined, Array.size_push] at hn
    exact h.fresh n (by omega)

end Sound

end ScriptCore
