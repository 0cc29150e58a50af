import ScriptCore.Proofs.Straight.Expression
import ScriptCore.Proofs.Control.Structured

/-!
# Variables in slots and in registers

One compiler keeps the variables of a body in slots of an activation record, and a declaration takes
a new slot even if the name is known; the other one keeps them in registers, one for each name.  The
invariant links a slot to every register that stands for a variable: `Linked` is what holds while
both compilers work, and `Agree` what holds while both codes run.  A result without a name has a
register and no slot; it stays at zero.

Main statements: `Agree.store`, `Linked.declare` and `Agree.declare` (an assignment and a new slot
keep the invariant).
-/

namespace ScriptCore

open Registers (File)

namespace StraightLine

/-! ### Steps of a straight line -/

section
variable {α β : Type} {v v' : Variables} {s s' : Registers.Lowering}

/-- A step ends with a result, having written register code. -/
def Ends (step : Straight α) (v : Variables) (s : Registers.Lowering) (a : α) (v' : Variables)
    (s' : Registers.Lowering) : Prop :=
  Registers.Lower.Ends (step.run.run v) s (some a, v') s'

/-- A result without a step. -/
theorem ends_pure {a b : α} : Ends (pure a) v s b v' s' ↔ a = b ∧ v = v' ∧ s = s' := by
  constructor
  · intro h
    cases h
    exact ⟨rfl, rfl, rfl⟩
  · rintro ⟨rfl, rfl, rfl⟩
    rfl

/-- Two steps. -/
theorem ends_bind {step : Straight α} {next : α → Straight β} {b : β} :
    Ends (step >>= next) v s b v' s' ↔
      ∃ a v₁ s₁, Ends step v s a v₁ s₁ ∧ Ends (next a) v₁ s₁ b v' s' := by
  have hrun : (step >>= next).run.run v = (do
      let r ← step.run.run v
      match r with
      | (some a, v₁) => (next a).run.run v₁
      | (none, v₁) => return (none, v₁)) := by
    simp only [OptionT.run_bind, Option.elimM, StateT.run_bind]
    refine bind_congr fun r => ?_
    rcases r with ⟨_ | a, v₁⟩ <;> rfl
  unfold Ends
  rw [hrun, Registers.Lower.ends_bind]
  constructor
  · rintro ⟨⟨_ | a, v₁⟩, s₁, h₁, h₂⟩
    · cases h₂
    · exact ⟨a, v₁, s₁, h₁, h₂⟩
  · rintro ⟨a, v₁, s₁, h₁, h₂⟩
    exact ⟨(some a, v₁), s₁, h₁, h₂⟩

/-- Register code is written. -/
theorem ends_write {step : Registers.Lower α} {a : α} :
    Ends (write step) v s a v' s' ↔ step.Ends s a s' ∧ v = v' := by
  unfold Ends
  change Registers.Lower.Ends (do return (some (← step), v)) s (some a, v') s' ↔ _
  rw [Registers.Lower.ends_bind]
  constructor
  · rintro ⟨b, s₁, h, hb⟩
    obtain ⟨heq, rfl⟩ := Registers.Lower.ends_pure.1 hb
    cases heq
    exact ⟨h, rfl⟩
  · rintro ⟨h, rfl⟩
    exact ⟨a, s', h, Registers.Lower.ends_pure.2 ⟨rfl, rfl⟩⟩

/-- A value that is needed is there. -/
theorem ends_need {o : Option α} {a : α} :
    Ends (need o) v s a v' s' ↔ o = some a ∧ v = v' ∧ s = s' := by
  cases o with
  | some b => simp [need, ends_pure]
  | none =>
      constructor
      · intro h
        cases h
      · rintro ⟨h, -⟩
        cases h

/-- Nothing comes from a refusal. -/
theorem not_ends_refuse {a : α} : ¬ Ends (refuse : Straight α) v s a v' s' := by
  intro h
  cases h

/-- The variables are looked at. -/
theorem ends_get {w : Variables} : Ends get v s w v' s' ↔ v = w ∧ v = v' ∧ s = s' := by
  constructor
  · intro h
    cases h
    exact ⟨rfl, rfl, rfl⟩
  · rintro ⟨rfl, rfl, rfl⟩
    rfl

/-- The variables change. -/
theorem ends_modify {f : Variables → Variables} {u : Unit} :
    Ends (modify f) v s u v' s' ↔ f v = v' ∧ s = s' := by
  constructor
  · intro h
    cases h
    exact ⟨rfl, rfl⟩
  · rintro ⟨rfl, rfl⟩
    rfl

end

/-! ### The invariant -/

/-- Where code with slots keeps what a register holds: in a slot, or nowhere because it is zero. -/
abbrev Source := Option Nat

/-- The value of a source. -/
def Source.value (r : Nat) (m : Machine) (k : Registers.Kind) : Source → Value
  | some slot => (m.record r).get slot
  | none => k.cast 0

/-- Sources of registers. -/
abbrev Links := List (Source × Registers.Reg)

/-- Registers with a name while register code is written: they are in use, and no two names or
variables have the same. -/
structure Bound (v : Variables) (s : Registers.Lowering) : Prop where
  live : ∀ reg ∈ v.bound, s.isLive reg.id = true
  apart : ∀ a ∈ v.bound, ∀ b ∈ v.bound, a.id = b.id → a = b
  mem : ∀ name reg, register? v.registers name = some reg → reg ∈ v.bound
  blank : register? v.registers blank = none
  unique : ∀ name other reg, register? v.registers name = some reg →
    register? v.registers other = some reg → name = other

/-- Links between slots and registers while both compilers work.  Each register is linked to at most
one source and each slot to at most one register. -/
structure Linked (t : TypeTable) (f : Frame) (v : Variables) (links : Links) : Prop where
  mem : ∀ p ∈ links, p.2 ∈ v.bound
  slots : ∀ p ∈ links, ∀ n, p.1 = some n → n < f.slots
  slot_unique : ∀ p ∈ links, ∀ q ∈ links, ∀ n, p.1 = some n → q.1 = some n → p = q
  reg_unique : ∀ p ∈ links, ∀ q ∈ links, p.2 = q.2 → p = q
  named : ∀ name reg, register? v.registers name = some reg →
    ∃ w, f.find? name = some w ∧ (some w.slot, reg) ∈ links ∧
      ofKind? (t.kind w.type) = some reg.kind
  known : ∀ name w, f.find? name = some w → ∃ reg, register? v.registers name = some reg

/-- Slots and registers that are linked hold the same while both codes run. -/
structure Agree (v : Variables) (links : Links) (r : Nat) (m : Machine) (file : File) : Prop where
  record : r < m.records.size
  kinds : ∀ reg ∈ v.bound, file.kinds reg.id = reg.kind
  values : ∀ p ∈ links, p.1.value r m p.2.kind = file.values p.2.id
  has : ∀ p ∈ links, p.2.kind.Has (file.values p.2.id)

end StraightLine

/-- The machine with a value stored in a slot. -/
def Machine.store (m : Machine) (r slot : Nat) (v : Value) : Machine :=
  { m with records := m.records.modify r fun rec => rec.set slot v }

/-- The record in which a value is stored. -/
theorem Machine.store_record (m : Machine) {r : Nat} (h : r < m.records.size) (slot : Nat)
    (v : Value) : (m.store r slot v).record r = (m.record r).set slot v := by
  simp only [store, record, Array.getElem?_modify, if_true, Array.getElem?_eq_getElem h]
  rfl

/-- No record is added. -/
@[simp] theorem Machine.store_size (m : Machine) (r slot : Nat) (v : Value) :
    (m.store r slot v).records.size = m.records.size := by
  simp [store]

namespace StraightLine

variable {t : TypeTable} {f : Frame} {v v' : Variables} {s s' : Registers.Lowering} {links : Links}
  {r : Nat} {m : Machine} {file file' : File} {reg : Registers.Reg} {slot : Nat} {w : Value}

/-- Linked variables are variables of the body. -/
theorem Linked.scoped (h : Linked t f v links) : Scoped t f v.registers := by
  intro name reg hreg
  obtain ⟨w, hw, -, hkind⟩ := h.named name reg hreg
  exact ⟨w, hw, hkind⟩

/-- Variables hold what their registers hold. -/
theorem Agree.sees (h : Agree v links r m file) (hlinked : Linked t f v links) :
    Sees f v.registers r m file := by
  intro name reg w hreg hw
  obtain ⟨w', hw', hmem, -⟩ := hlinked.named name reg hreg
  obtain rfl : w = w' := Option.some.inj (hw.symm.trans hw')
  exact ⟨h.values _ hmem, h.has _ hmem⟩

/-- Storing in a slot leaves the other sources alone. -/
theorem Source.value_store (h : r < m.records.size) {k : Registers.Kind} {source : Source}
    (hne : source ≠ some slot) :
    source.value r (m.store r slot w) k = source.value r m k := by
  cases source with
  | none => rfl
  | some other =>
      have hother : other ≠ slot := fun heq => hne (congrArg some heq)
      change ((m.store r slot w).record r).get other = (m.record r).get other
      rw [Machine.store_record m h, Record.get_set_ne _ _ hother]

/-- What is stored in a slot is its value. -/
theorem Source.value_store_self (h : r < m.records.size) {k : Registers.Kind} :
    Source.value r (m.store r slot w) k (some slot) = w := by
  change ((m.store r slot w).record r).get slot = w
  rw [Machine.store_record m h, Record.get_set_self]

/-- What is kept besides a register that is set. -/
theorem Bound.values_ne (hbound : Bound v s) (hreg : reg ∈ v.bound)
    (hkeeps : (file.set reg.id w).Keeps s file') {b : Registers.Reg} (hb : b ∈ v.bound)
    (hne : b ≠ reg) : file'.values b.id = file.values b.id := by
  have hid : b.id ≠ reg.id := fun heq => hne (hbound.apart b hb reg hreg heq)
  rw [(hkeeps b.id (hbound.live b hb)).1, File.set_ne _ hid]

/-- What a register holds that is set. -/
theorem Bound.values_self (hbound : Bound v s) (hreg : reg ∈ v.bound)
    (hkeeps : (file.set reg.id w).Keeps s file') : file'.values reg.id = w := by
  rw [(hkeeps reg.id (hbound.live reg hreg)).1, File.set_self]

/-- Kinds are kept. -/
theorem Bound.kinds (hbound : Bound v s) (hkeeps : (file.set reg.id w).Keeps s file')
    (h : ∀ b ∈ v.bound, file.kinds b.id = b.kind) :
    ∀ b ∈ v.bound, file'.kinds b.id = b.kind := by
  intro b hb
  rw [(hkeeps b.id (hbound.live b hb)).2, File.set_kinds, h b hb]

/-- **An assignment** to a variable keeps the invariant. -/
theorem Agree.store (h : Agree v links r m file) (hbound : Bound v s) (hlinked : Linked t f v links)
    (hmem : (some slot, reg) ∈ links) (hw : reg.kind.Has w)
    (hkeeps : (file.set reg.id w).Keeps s file') :
    Agree v links r (m.store r slot w) file' := by
  have hreg := hlinked.mem _ hmem
  refine ⟨by rw [Machine.store_size]; exact h.record, hbound.kinds hkeeps h.kinds, fun p hp => ?_,
    fun p hp => ?_⟩
  · by_cases hp' : p = (some slot, reg)
    · subst hp'
      rw [Source.value_store_self h.record, hbound.values_self hreg hkeeps]
    · have hsource : p.1 ≠ some slot := fun heq =>
        hp' (hlinked.slot_unique p hp _ hmem slot heq rfl)
      have hne : p.2 ≠ reg := fun heq => hp' (hlinked.reg_unique p hp _ hmem heq)
      rw [Source.value_store h.record hsource, hbound.values_ne hreg hkeeps (hlinked.mem p hp) hne,
        h.values p hp]
  · by_cases hp' : p = (some slot, reg)
    · subst hp'
      rw [hbound.values_self hreg hkeeps]
      exact hw
    · have hne : p.2 ≠ reg := fun heq => hp' (hlinked.reg_unique p hp _ hmem heq)
      rw [hbound.values_ne hreg hkeeps (hlinked.mem p hp) hne]
      exact h.has p hp

/-- Register code that leaves the same registers in use. -/
theorem Bound.of_live (h : Bound v s) (hlive : ∀ i, s'.isLive i = true ↔ s.isLive i = true) :
    Bound v s' :=
  ⟨fun b hb => (hlive b.id).2 (h.live b hb), h.apart, h.mem, h.blank, h.unique⟩

/-! ### Declarations -/

/-- The other names mean what they meant before a declaration. -/
theorem find?_declare_ne (f : Frame) {name other : Name} (hne : other ≠ name) (ty : Ty) :
    (f.declare name ty).2.find? other = f.find? other := by
  have hfalse : (name == other) = false := by simpa using fun heq => hne heq.symm
  obtain ⟨blocks, slots, results, named⟩ := f
  cases blocks with
  | nil => simp [Frame.declare, Frame.find?, Frame.findIn, hfalse]
  | cons block outer =>
      simp only [Frame.declare, Frame.find?, Frame.findIn, List.findSome?_cons, List.find?_cons,
        hfalse]

/-- The links after a register has got a new slot. -/
def Links.declare (links : Links) (slot : Nat) (reg : Registers.Reg) : Links :=
  (some slot, reg) :: links.filter fun p => p.2 ≠ reg

/-- A link after a register has got a new slot. -/
theorem Links.mem_declare {links : Links} {p : Source × Registers.Reg} :
    p ∈ links.declare slot reg ↔ p = (some slot, reg) ∨ p ∈ links ∧ p.2 ≠ reg := by
  simp [Links.declare]

/-- **A new slot** for the register of a name links the two, whether the register is new or not. -/
theorem Linked.declare (h : Linked t f v links) (hbound : Bound v' s')
    (hle : ∀ b ∈ v.bound, b ∈ v'.bound) {name : Name}
    (hreg : register? v'.registers name = some reg)
    (hother : ∀ other, other ≠ name → register? v'.registers other = register? v.registers other)
    {ty : Ty} (hkind : ofKind? (t.kind ty) = some reg.kind) :
    Linked t (f.declare name ty).2 v' (links.declare f.slots reg) where
  mem p hp := by
    rcases Links.mem_declare.1 hp with rfl | ⟨hp, -⟩
    · exact hbound.mem name reg hreg
    · exact hle _ (h.mem p hp)
  slots p hp n hn := by
    rw [(Frame.declare_slots f name ty).2]
    rcases Links.mem_declare.1 hp with rfl | ⟨hp, -⟩
    · cases hn
      exact Nat.lt_succ_self _
    · exact Nat.lt_succ_of_lt (h.slots p hp n hn)
  slot_unique p hp q hq n hn hn' := by
    rcases Links.mem_declare.1 hp with rfl | ⟨hp, -⟩ <;>
      rcases Links.mem_declare.1 hq with rfl | ⟨hq, -⟩
    · rfl
    · cases hn
      exact absurd (h.slots q hq _ hn') (Nat.lt_irrefl _)
    · cases hn'
      exact absurd (h.slots p hp _ hn) (Nat.lt_irrefl _)
    · exact h.slot_unique p hp q hq n hn hn'
  reg_unique p hp q hq heq := by
    rcases Links.mem_declare.1 hp with rfl | ⟨hp, hne⟩ <;>
      rcases Links.mem_declare.1 hq with rfl | ⟨hq, hne'⟩
    · rfl
    · exact absurd heq.symm hne'
    · exact absurd heq hne
    · exact h.reg_unique p hp q hq heq
  named other reg' hreg' := by
    by_cases hname : other = name
    · subst hname
      obtain rfl : reg = reg' := Option.some.inj (hreg.symm.trans hreg')
      exact ⟨⟨f.slots, ty⟩, Frame.find?_declare f other ty, Links.mem_declare.2 (.inl rfl), hkind⟩
    · obtain ⟨w, hw, hmem, hkind'⟩ := h.named other reg' (by rw [← hother other hname, hreg'])
      refine ⟨w, by rw [find?_declare_ne f hname, hw],
        Links.mem_declare.2 (.inr ⟨hmem, ?_⟩), hkind'⟩
      rintro rfl
      exact hname (hbound.unique other name reg' hreg' hreg)
  known other w hw := by
    by_cases hname : other = name
    · subst hname
      exact ⟨reg, hreg⟩
    · rw [find?_declare_ne f hname] at hw
      rw [hother other hname]
      exact h.known other w hw

/-- **A new slot** in which the value of its register is stored keeps the invariant. -/
theorem Agree.declare (h : Agree v' links r m file) (hbound : Bound v' s')
    (hlinked : Linked t f v links) (hle : ∀ b ∈ v.bound, b ∈ v'.bound) (hreg : reg ∈ v'.bound)
    (hw : reg.kind.Has w) (hkeeps : (file.set reg.id w).Keeps s' file') :
    Agree v' (links.declare f.slots reg) r (m.store r f.slots w) file' := by
  refine ⟨by rw [Machine.store_size]; exact h.record, hbound.kinds hkeeps h.kinds, fun p hp => ?_,
    fun p hp => ?_⟩
  · rcases Links.mem_declare.1 hp with rfl | ⟨hp, hne⟩
    · rw [Source.value_store_self h.record, hbound.values_self hreg hkeeps]
    · have hsource : p.1 ≠ some f.slots := fun heq =>
        Nat.lt_irrefl _ (hlinked.slots p hp f.slots heq)
      rw [Source.value_store h.record hsource,
        hbound.values_ne hreg hkeeps (hle _ (hlinked.mem p hp)) hne, h.values p hp]
  · rcases Links.mem_declare.1 hp with rfl | ⟨hp, hne⟩
    · rw [hbound.values_self hreg hkeeps]
      exact hw
    · rw [hbound.values_ne hreg hkeeps (hle _ (hlinked.mem p hp)) hne]
      exact h.has p hp

/-! ### New registers -/

/-- The variables with a new register, which a name stands for. -/
def Variables.bind (v : Variables) (name : Name) (reg : Registers.Reg) : Variables :=
  ⟨(name, reg) :: v.registers, v.bound ++ [reg]⟩

/-- The register that a new name stands for. -/
theorem register?_bind (v : Variables) (name : Name) (reg : Registers.Reg) :
    register? (v.bind name reg).registers name = some reg := by
  simp [Variables.bind, register?]

/-- The other names stand for what they stood for. -/
theorem register?_bind_ne (v : Variables) {name other : Name} (hne : other ≠ name)
    (reg : Registers.Reg) :
    register? (v.bind name reg).registers other = register? v.registers other := by
  have hfalse : (other == name) = false := by simpa using hne
  simp [Variables.bind, register?, List.lookup_cons, hfalse]

/-- A register that has just been allocated is none of those before. -/
theorem Bound.fresh (h : Bound v s) {k : Registers.Kind} (halloc : s.alloc k = (reg, s')) :
    reg ∉ v.bound := by
  intro hmem
  have hlive := h.live reg hmem
  have hfresh := s.alloc_fresh k
  rw [halloc] at hfresh
  rw [hfresh] at hlive
  cases hlive

/-- Allocated registers are in use, and so are those before. -/
theorem Bound.alloc_live (h : Bound v s) {k : Registers.Kind} (halloc : s.alloc k = (reg, s')) :
    ∀ b ∈ v.bound ++ [reg], s'.isLive b.id = true := by
  intro b hb
  have hlive := s.alloc_isLive k b.id
  rw [halloc] at hlive
  rcases List.mem_append.1 hb with hb | hb
  · exact hlive.2 (.inr (h.live b hb))
  · obtain rfl := List.mem_singleton.1 hb
    exact hlive.2 (.inl rfl)

/-- An allocated register has a number of its own. -/
theorem Bound.alloc_apart (h : Bound v s) {k : Registers.Kind} (halloc : s.alloc k = (reg, s')) :
    ∀ a ∈ v.bound ++ [reg], ∀ b ∈ v.bound ++ [reg], a.id = b.id → a = b := by
  have hfresh : s.isLive reg.id = false := by
    have hfresh := s.alloc_fresh k
    rwa [halloc] at hfresh
  have hne (b : Registers.Reg) (hb : b ∈ v.bound) : b.id ≠ reg.id := by
    intro heq
    have hlive := h.live b hb
    rw [heq, hfresh] at hlive
    cases hlive
  intro a ha b hb heq
  rcases List.mem_append.1 ha with ha' | ha' <;> rcases List.mem_append.1 hb with hb' | hb'
  · exact h.apart a ha' b hb' heq
  · obtain rfl := List.mem_singleton.1 hb'
    exact absurd heq (hne a ha')
  · obtain rfl := List.mem_singleton.1 ha'
    exact absurd heq.symm (hne b hb')
  · rw [List.mem_singleton.1 ha', List.mem_singleton.1 hb']

/-- **A new register** for a new name. -/
theorem Bound.bind (h : Bound v s) {k : Registers.Kind} (halloc : s.alloc k = (reg, s'))
    {name : Name} (hname : name ≠ ScriptCore.blank) : Bound (v.bind name reg) s' where
  live := h.alloc_live halloc
  apart := h.alloc_apart halloc
  mem other reg' hreg' := by
    by_cases heq : other = name
    · subst heq
      rw [register?_bind] at hreg'
      cases hreg'
      exact List.mem_append_right _ (List.mem_singleton_self _)
    · rw [register?_bind_ne v heq] at hreg'
      exact List.mem_append_left _ (h.mem other reg' hreg')
  blank := by rw [register?_bind_ne v hname.symm, h.blank]
  unique first second reg' h₁ h₂ := by
    have hnew := h.fresh halloc
    by_cases heq₁ : first = name <;> by_cases heq₂ : second = name
    · rw [heq₁, heq₂]
    · subst heq₁
      rw [register?_bind] at h₁
      cases h₁
      rw [register?_bind_ne v heq₂] at h₂
      exact absurd (h.mem second _ h₂) hnew
    · subst heq₂
      rw [register?_bind] at h₂
      cases h₂
      rw [register?_bind_ne v heq₁] at h₁
      exact absurd (h.mem first _ h₁) hnew
    · rw [register?_bind_ne v heq₁] at h₁
      rw [register?_bind_ne v heq₂] at h₂
      exact h.unique first second reg' h₁ h₂

/-- **A new register** for something without a name. -/
theorem Bound.unnamed (h : Bound v s) {k : Registers.Kind} (halloc : s.alloc k = (reg, s')) :
    Bound ⟨v.registers, v.bound ++ [reg]⟩ s' where
  live := h.alloc_live halloc
  apart := h.alloc_apart halloc
  mem name b hb := List.mem_append_left _ (h.mem name b hb)
  blank := h.blank
  unique := h.unique

/-- A new register has its kind, and the others keep theirs. -/
theorem Agree.alloc (h : Agree v links r m file) (hbound : Bound v s)
    {k : Registers.Kind} (halloc : s.alloc k = (reg, s'))
    (registers : List (Name × Registers.Reg)) :
    Agree ⟨registers, v.bound ++ [reg]⟩ links r m (file.alloc reg) := by
  refine ⟨h.record, fun b hb => ?_, h.values, h.has⟩
  rcases List.mem_append.1 hb with hb' | hb'
  · have hid : b.id ≠ reg.id := fun heq => by
      have heq' := hbound.alloc_apart halloc b hb reg (by simp) heq
      subst heq'
      exact hbound.fresh halloc hb'
    rw [File.alloc_ne _ hid, h.kinds b hb']
  · obtain rfl := List.mem_singleton.1 hb'
    exact File.alloc_self _ _

end StraightLine

end ScriptCore
