import ScriptCore.Proofs.Straight.Routine

/-!
# Parameters and results

At the entry of a body, parameters and named results take the first slots, and parameters and
results take the first registers, with the same numbers.  A result that has no slot because no
result has a name comes behind all slots; its register starts at zero if it could be read.

Main statements: `bindSlots_paired` (parameters in slots and in registers), `Paired.linked` and
`exec_clearing` (named results start at zero).
-/

namespace ScriptCore

open Registers (File)

namespace StraightLine

/-- The name that a parameter or result can be used by. -/
def visible : Option Name → Option Name
  | some name => if name = blank then none else some name
  | none => none

/-- A visible name is not blank. -/
theorem visible_ne_blank {o : Option Name} {name : Name} (h : visible o = some name) :
    name ≠ blank := by
  unfold visible at h
  split at h
  · split at h
    · cases h
    · cases h
      assumption
  · cases h

/-- A visible name is the name. -/
theorem eq_of_visible {o : Option Name} {name : Name} (h : visible o = some name) :
    o = some name := by
  unfold visible at h
  split at h
  · split at h
    · cases h
    · exact h
  · cases h

/-- Registers of some kinds, numbered from `n` on. -/
def numbered (n : Nat) : List Registers.Kind → List Registers.Reg
  | [] => []
  | k :: ks => ⟨n, k⟩ :: numbered (n + 1) ks

/-- The variables with a new register for a parameter or result. -/
def Variables.enter (v : Variables) (name : Option Name) (reg : Registers.Reg) : Variables :=
  match visible name with
  | some name => v.bind name reg
  | none => ⟨v.registers, v.bound ++ [reg]⟩

/-- The frame with a new slot for a parameter or result. -/
def enterFrame (f : Frame) (name : Option Name) (ty : Ty) : Frame :=
  match visible name with
  | some name => (f.declare name ty).2
  | none => f.alloc.2

variable {t : TypeTable} {f : Frame} {v v' : Variables} {s s' : Registers.Lowering}
  {c c' : Compiler} {reg : Registers.Reg} {k : Registers.Kind} {name : Option Name} {ty : Ty}

/-- There is one register more. -/
@[simp] theorem Variables.enter_bound (v : Variables) (name : Option Name)
    (reg : Registers.Reg) : (v.enter name reg).bound = v.bound ++ [reg] := by
  unfold enter
  split <;> rfl

/-- There is one slot more. -/
@[simp] theorem enterFrame_slots (f : Frame) (name : Option Name) (ty : Ty) :
    (enterFrame f name ty).slots = f.slots + 1 := by
  unfold enterFrame
  split <;> rfl

/-- A slot of a parameter changes nothing else. -/
theorem enterFrame_results (f : Frame) (name : Option Name) (ty : Ty) :
    (enterFrame f name ty).results = f.results ∧
      (enterFrame f name ty).namedResults = f.namedResults := by
  unfold enterFrame
  split <;> exact ⟨rfl, rfl⟩

/-- A register is allocated for a parameter or result. -/
theorem bind_enters (h : Ends (bind name k) v s reg v' s') :
    s.alloc k = (reg, s') ∧ v' = v.enter name reg := by
  simp only [bind, ends_bind, ends_write, ends_modify, ends_pure, Registers.Lower.ends_alloc] at h
  obtain ⟨reg, _, _, ⟨halloc, rfl⟩, _, _, _, ⟨rfl, rfl⟩, rfl, rfl, rfl⟩ := h
  refine ⟨halloc, ?_⟩
  unfold Variables.enter visible
  cases name with
  | none => rfl
  | some n => by_cases hblank : n = blank <;> simp [hblank, Variables.bind]

/-- A slot is allocated for a parameter or result. -/
theorem bindSlot_enters {slot : Nat} (h : Compile.bindSlot name ty c = .ok (slot, c')) :
    slot = c.frame.slots ∧ c' = { c with frame := enterFrame c.frame name ty } := by
  unfold Compile.bindSlot at h
  unfold enterFrame visible
  cases name with
  | none =>
      cases h
      exact ⟨rfl, rfl⟩
  | some n =>
      by_cases hblank : n = blank
      · simp only [hblank, if_true] at h ⊢
        cases h
        exact ⟨rfl, rfl⟩
      · simp only [hblank, if_false] at h ⊢
        cases h
        exact ⟨rfl, rfl⟩

/-! ### Registers -/

/-- All registers so far have been bound, one after the other. -/
structure Filled (v : Variables) (s : Registers.Lowering) : Prop extends Bound v s where
  inUse : s.inUse = List.replicate v.bound.length true
  ids : ∀ (i : Nat) (b : Registers.Reg), v.bound[i]? = some b → b.id = i

namespace Filled

/-- Before the first register. -/
theorem start : Filled ⟨[], []⟩ .empty := by
  refine ⟨⟨?_, ?_, ?_, rfl, ?_⟩, rfl, ?_⟩
  all_goals simp [register?]

/-- The next register has the next number. -/
theorem alloc (h : Filled v s) (halloc : s.alloc k = (reg, s')) :
    reg = ⟨v.bound.length, k⟩ ∧ s'.code = s.code.push (.alloc reg) ∧
      s'.inUse = List.replicate (v.bound.length + 1) true := by
  have hidx (n : Nat) : (List.replicate n true).idxOf false = n := by simp
  have hfree : s.lowestFree = v.bound.length := by
    rw [Registers.Lowering.lowestFree, h.inUse, hidx]
  rw [Registers.Lowering.alloc, hfree] at halloc
  cases halloc
  refine ⟨rfl, rfl, ?_⟩
  simp [h.inUse, List.replicate_succ']

/-- One register more. -/
theorem enter (h : Filled v s) (halloc : s.alloc k = (reg, s')) (name : Option Name) :
    Filled (v.enter name reg) s' := by
  obtain ⟨hreg, -, hinUse⟩ := h.alloc halloc
  have hbound : Bound (v.enter name reg) s' := by
    unfold Variables.enter
    split
    · exact h.toBound.bind halloc (visible_ne_blank ‹_›)
    · exact h.toBound.unnamed halloc
  refine ⟨hbound, by simpa using hinUse, fun i b hb => ?_⟩
  rw [Variables.enter_bound, List.getElem?_append] at hb
  split at hb
  · exact h.ids i b hb
  · obtain ⟨hi, rfl⟩ := List.getElem?_eq_some_iff.1 hb
    rw [List.length_singleton] at hi
    rw [List.getElem_singleton, hreg]
    change v.bound.length = i
    omega

end Filled

/-- The kinds of variables when parameters or results are known. -/
def enterKinds : List (Option Name) → List Registers.Kind → (Name → Option Registers.Kind) →
    Name → Option Registers.Kind
  | name :: names, k :: ks, kinds =>
    enterKinds names ks ((visible name).elim kinds fun n => kindsWith kinds n k)
  | _, _, kinds => kinds

/-- A name that is known after a parameter is one that was known, or that of the parameter. -/
theorem register?_enter {n : Name} {b : Registers.Reg}
    (h : register? (v.enter name reg).registers n = some b) :
    register? v.registers n = some b ∨ b = reg ∧ name = some n := by
  unfold Variables.enter at h
  cases hname : visible name with
  | none =>
      rw [hname] at h
      exact .inl h
  | some n' =>
      rw [hname] at h
      by_cases heq : n = n'
      · subst heq
        rw [register?_bind] at h
        cases h
        exact .inr ⟨rfl, eq_of_visible hname⟩
      · rw [register?_bind_ne v heq] at h
        exact .inl h

/-- The kinds of variables after a parameter. -/
theorem kindsIn_enter : kindsIn (v.enter name reg).registers =
    (visible name).elim (kindsIn v.registers) fun n =>
      kindsWith (kindsIn v.registers) n reg.kind := by
  unfold Variables.enter
  cases visible name with
  | none => rfl
  | some n =>
      funext other
      change kindsIn (v.bind n reg).registers other =
        kindsWith (kindsIn v.registers) n reg.kind other
      unfold kindsIn kindsWith
      by_cases hother : other = n
      · subst hother
        rw [register?_bind, if_pos rfl]
        rfl
      · rw [register?_bind_ne v hother, if_neg hother]

/-- What registers parameters or results of some kinds have. -/
structure Allotted (v v' : Variables) (s s' : Registers.Lowering) (params : List (Option Name))
    (ks : List Registers.Kind) (outs : List Registers.Reg) : Prop where
  filled : Filled v' s'
  numbers : outs = numbered v.bound.length ks
  bound : v'.bound = v.bound ++ outs
  code : s'.code = s.code.pushAll (outs.map .alloc)
  kinds : kindsIn v'.registers = enterKinds params ks (kindsIn v.registers)
  old : ∀ name reg, register? v'.registers name = some reg → reg ∈ v.bound →
    register? v.registers name = some reg
  names : List.Forall₂ (fun out name => ∀ n, register? v'.registers n = some out → name = some n)
    outs params

/-- Parameters or results take the next registers. -/
theorem bindEach_allotted {params : List Param} {ks : List Registers.Kind}
    {regs : List Registers.Reg} (h : Filled v s) (hlength : params.length = ks.length)
    (hends : Ends (bindEach params ks) v s regs v' s') :
    Allotted v v' s s' (params.map Param.name) ks regs := by
  induction params generalizing ks regs v s with
  | nil =>
      obtain rfl : ks = [] := List.length_eq_zero_iff.1 hlength.symm
      obtain ⟨rfl, rfl, rfl⟩ := ends_pure.1 hends
      exact ⟨h, rfl, (List.append_nil _).symm, rfl, rfl, fun _ _ hn _ => hn, .nil⟩
  | cons p params ih =>
      obtain ⟨k, ks, rfl⟩ := List.exists_cons_of_length_eq_add_one hlength.symm
      obtain ⟨reg, v₁, s₁, hfirst, hends⟩ := ends_bind.1 hends
      obtain ⟨regs, v₂, s₂, hrest, hends⟩ := ends_bind.1 hends
      obtain ⟨rfl, rfl, rfl⟩ := ends_pure.1 hends
      obtain ⟨halloc, rfl⟩ := bind_enters hfirst
      obtain ⟨hreg, hcode, -⟩ := h.alloc halloc
      have hnew := h.toBound.fresh halloc
      have hrest := ih (h.enter halloc p.name) (by simpa using hlength) hrest
      refine ⟨hrest.filled, ?_, ?_, ?_, ?_, fun n b hb hmem => ?_,
        .cons (fun n hn => ?_) hrest.names⟩
      · rw [numbered, ← hreg, hrest.numbers, Variables.enter_bound, List.length_append]
        rfl
      · rw [hrest.bound, Variables.enter_bound, List.append_assoc]
        rfl
      · rw [hrest.code, hcode]
        rfl
      · rw [hrest.kinds, kindsIn_enter, hreg]
        rfl
      · rcases register?_enter (hrest.old n b hb (by simp [hmem])) with hb' | ⟨rfl, -⟩
        · exact hb'
        · exact absurd hmem hnew
      · rcases register?_enter (hrest.old n reg hn (by simp)) with hn' | ⟨-, hname⟩
        · exact absurd (h.mem n reg hn') hnew
        · exact hname

/-! ### Slots -/

/-- The registers of names are numbered as their slots. -/
structure Paired (t : TypeTable) (f : Frame) (v : Variables) : Prop where
  named : ∀ name reg, register? v.registers name = some reg →
    ∃ w, f.find? name = some w ∧ w.slot = reg.id ∧ w.slot < f.slots ∧
      ofKind? (t.kind w.type) = some reg.kind
  known : ∀ name w, f.find? name = some w → ∃ reg, register? v.registers name = some reg

namespace Paired

/-- Before the first parameter. -/
theorem start {results : List Ty} {named : Option (List Nat)} :
    Paired t ⟨[[]], 0, results, named⟩ ⟨[], []⟩ := by
  refine ⟨fun name reg hreg => ?_, fun name w hw => ?_⟩
  · cases hreg
  · cases hw

/-- A slot and a register with the same number. -/
theorem enter (h : Paired t f v) (name : Option Name) (hslots : reg.id = f.slots)
    (hkind : ofKind? (t.kind ty) = some reg.kind) :
    Paired t (enterFrame f name ty) (v.enter name reg) := by
  unfold Variables.enter enterFrame
  cases visible name with
  | none =>
      refine ⟨fun name b hb => ?_, h.known⟩
      obtain ⟨w, hw, hslot, hlt, hkind⟩ := h.named name b hb
      exact ⟨w, hw, hslot, Nat.lt_succ_of_lt hlt, hkind⟩
  | some name =>
      refine ⟨fun other b hb => ?_, fun other w hw => ?_⟩
      · by_cases hother : other = name
        · subst hother
          rw [register?_bind] at hb
          cases hb
          exact ⟨⟨f.slots, ty⟩, Frame.find?_declare f other ty, hslots.symm, Nat.lt_succ_self _,
            hkind⟩
        · rw [register?_bind_ne v hother] at hb
          obtain ⟨w, hw, hslot, hlt, hkind⟩ := h.named other b hb
          exact ⟨w, by rw [find?_declare_ne f hother, hw], hslot, Nat.lt_succ_of_lt hlt, hkind⟩
      · by_cases hother : other = name
        · subst hother
          exact ⟨reg, register?_bind v other reg⟩
        · rw [find?_declare_ne f hother] at hw
          rw [register?_bind_ne v hother]
          exact h.known other w hw

/-- In a block without names. -/
theorem nested (h : Paired t f v) : Paired t f.nested v := by
  have hfind (name : Name) : f.nested.find? name = f.find? name := by
    unfold Frame.nested Frame.find?
    rw [List.findSome?_cons]
    rfl
  refine ⟨fun name reg hreg => ?_, fun name w hw => ?_⟩
  · rw [hfind]
    exact h.named name reg hreg
  · rw [hfind] at hw
    exact h.known name w hw

end Paired

/-- Slots for parameters or results change nothing but the frame. -/
structure Slotted (c c' : Compiler) (count : Nat) (slots : List Nat) : Prop where
  state : c' = { c with frame := c'.frame }
  slots : slots = List.range' c.frame.slots count
  count : c'.frame.slots = c.frame.slots + count
  results : c'.frame.results = c.frame.results
  named : c'.frame.namedResults = c.frame.namedResults

/-- Parameters or results take the next slots, and names mean the registers with the same
numbers. -/
theorem bindSlots_paired {params : List Param} {entries : List (Option Name × Ty)}
    {ks : List Registers.Kind} {regs : List Registers.Reg} {slots : List Nat} (hfilled : Filled v s)
    (hpaired : Paired t c.frame v) (hslots : c.frame.slots = v.bound.length)
    (hnames : entries.map Prod.fst = params.map Param.name)
    (hkinds : List.Forall₂ (fun e k => ofKind? (t.kind e.2) = some k) entries ks)
    (hends : Ends (bindEach params ks) v s regs v' s')
    (hcompile : Compile.bindSlots entries c = .ok (slots, c')) :
    Slotted c c' entries.length slots ∧ Paired t c'.frame v' := by
  induction hkinds generalizing params regs slots v s c with
  | nil =>
      obtain rfl : params = [] := by simpa using hnames.symm
      obtain ⟨-, rfl, rfl⟩ := ends_pure.1 hends
      obtain ⟨rfl, rfl⟩ := Compile.pure_ok.1 hcompile
      exact ⟨⟨rfl, rfl, rfl, rfl, rfl⟩, hpaired⟩
  | @cons e k entries ks hkind hkinds ih =>
      obtain ⟨p, params, rfl⟩ : ∃ p ps, params = p :: ps := by
        cases params with
        | nil => cases hnames
        | cons p ps => exact ⟨p, ps, rfl⟩
      obtain ⟨name, ty⟩ := e
      rw [List.map_cons, List.map_cons, List.cons_eq_cons] at hnames
      obtain ⟨rfl, hnames⟩ := hnames
      obtain ⟨reg, v₁, s₁, hfirst, hends⟩ := ends_bind.1 hends
      obtain ⟨regs, v₂, s₂, hrest, hends⟩ := ends_bind.1 hends
      obtain ⟨-, rfl, rfl⟩ := ends_pure.1 hends
      obtain ⟨halloc, rfl⟩ := bind_enters hfirst
      obtain ⟨hreg, -, -⟩ := hfilled.alloc halloc
      rw [Compile.bindSlots] at hcompile
      obtain ⟨slot, c₁, hslot, hcompile⟩ := Compile.bind_ok.1 hcompile
      obtain ⟨slots, c₂, hmore, hcompile⟩ := Compile.bind_ok.1 hcompile
      obtain ⟨rfl, rfl⟩ := Compile.pure_ok.1 hcompile
      obtain ⟨rfl, rfl⟩ := bindSlot_enters hslot
      have hslot : reg.id = c.frame.slots := by rw [hreg, hslots]
      have hpaired₁ := hpaired.enter p.name hslot (by rw [hreg]; exact hkind)
      obtain ⟨hslotted, hpaired'⟩ := ih (hfilled.enter halloc p.name) hpaired₁ (by simp [hslots])
        hnames hrest hmore
      refine ⟨⟨?_, ?_, ?_, ?_, ?_⟩, hpaired'⟩
      · exact hslotted.state
      · rw [hslotted.slots, List.length_cons, List.range'_succ]
        simp
      · rw [hslotted.count]
        simp
        omega
      · rw [hslotted.results]
        exact (enterFrame_results _ _ _).1
      · rw [hslotted.named]
        exact (enterFrame_results _ _ _).2

/-- Without names, nothing new is known. -/
theorem bindEach_unnamed {params : List Param} {ks : List Registers.Kind}
    {regs : List Registers.Reg} (hnone : ∀ p ∈ params, p.name = none)
    (hends : Ends (bindEach params ks) v s regs v' s') : v'.registers = v.registers := by
  fun_induction bindEach params ks generalizing regs v s with
  | case1 p params k ks ih =>
      obtain ⟨reg, v₁, s₁, hfirst, hends⟩ := ends_bind.1 hends
      obtain ⟨regs, v₂, s₂, hrest, hends⟩ := ends_bind.1 hends
      obtain ⟨-, rfl, rfl⟩ := ends_pure.1 hends
      obtain ⟨-, rfl⟩ := bind_enters hfirst
      rw [ih (fun q hq => hnone q (List.mem_cons_of_mem p hq)) hrest,
        hnone p List.mem_cons_self]
      rfl
  | case2 =>
      obtain ⟨-, rfl, -⟩ := ends_pure.1 hends
      rfl

/-! ### Links -/

/-- Where code with slots keeps the parameters and results of a body with `n` slots so far. -/
def sources (n : Nat) (regs : List Registers.Reg) : Links :=
  regs.map fun reg => (if reg.id < n then some reg.id else none, reg)

/-- A register with its source. -/
theorem mem_sources {n : Nat} {regs : List Registers.Reg} {p : Source × Registers.Reg} :
    p ∈ sources n regs ↔ p.2 ∈ regs ∧ p.1 = if p.2.id < n then some p.2.id else none := by
  obtain ⟨source, reg⟩ := p
  simp only [sources, List.mem_map, Prod.mk.injEq]
  constructor
  · rintro ⟨reg', hmem, rfl, rfl⟩
    exact ⟨hmem, rfl⟩
  · rintro ⟨hmem, rfl⟩
    exact ⟨reg, hmem, rfl, rfl⟩

/-- **Parameters and results are linked** to the slots with the same numbers, as far as there are
slots. -/
theorem Paired.linked (h : Paired t f v) (hbound : Bound v s) {regs : List Registers.Reg}
    (hsub : ∀ b ∈ regs, b ∈ v.bound) (hall : ∀ b ∈ v.bound, b.id < f.slots → b ∈ regs) :
    Linked t f v (sources f.slots regs) where
  mem p hp := hsub _ (mem_sources.1 hp).1
  slots p hp n hn := by
    rw [(mem_sources.1 hp).2] at hn
    split at hn
    · cases hn
      assumption
    · cases hn
  slot_unique p hp q hq n hn hn' := by
    obtain ⟨hp, hsource⟩ := mem_sources.1 hp
    obtain ⟨hq, hsource'⟩ := mem_sources.1 hq
    have hid : p.2.id = q.2.id := by
      rw [hsource] at hn
      rw [hsource'] at hn'
      split at hn
      · split at hn'
        · exact (Option.some.inj hn).trans (Option.some.inj hn').symm
        · cases hn'
      · cases hn
    have heq : p.2 = q.2 := hbound.apart _ (hsub _ hp) _ (hsub _ hq) hid
    exact Prod.ext (by rw [hn, hn']) heq
  reg_unique p hp q hq heq := by
    refine Prod.ext ?_ heq
    rw [(mem_sources.1 hp).2, (mem_sources.1 hq).2, heq]
  named name reg hreg := by
    obtain ⟨w, hw, hslot, hlt, hkind⟩ := h.named name reg hreg
    rw [hslot] at hlt
    refine ⟨w, hw, mem_sources.2 ⟨hall reg (hbound.mem name reg hreg) hlt, ?_⟩, hkind⟩
    rw [if_pos hlt, hslot]
  known := h.known

/-! ### The first values -/

/-- A function with new values at the numbers of registers. -/
def putEach {α : Type} (value : Registers.Reg → α) : List Registers.Reg → (Nat → α) → Nat → α
  | [], g => g
  | reg :: regs, g => putEach value regs fun i => if i = reg.id then value reg else g i

/-- Other numbers are left alone. -/
theorem putEach_ne {α : Type} {value : Registers.Reg → α} {regs : List Registers.Reg}
    {g : Nat → α} {i : Nat} (h : ∀ reg ∈ regs, reg.id ≠ i) : putEach value regs g i = g i := by
  induction regs generalizing g with
  | nil => rfl
  | cons reg regs ih =>
      rw [putEach, ih fun b hb => h b (List.mem_cons_of_mem reg hb),
        if_neg (h reg List.mem_cons_self).symm]

/-- The number of a register has its value. -/
theorem putEach_mem {α : Type} {value : Registers.Reg → α} {regs : List Registers.Reg}
    {g : Nat → α} {reg : Registers.Reg} (hmem : reg ∈ regs)
    (h : ∀ b ∈ regs, b.id = reg.id → b = reg) : putEach value regs g reg.id = value reg := by
  induction regs generalizing g with
  | nil => cases hmem
  | cons first regs ih =>
      rw [putEach]
      by_cases hrest : reg ∈ regs
      · exact ih hrest fun b hb => h b (List.mem_cons_of_mem first hb)
      · obtain rfl : reg = first := (List.mem_cons.1 hmem).resolve_right hrest
        rw [putEach_ne, if_pos rfl]
        intro b hb hid
        rw [h b (List.mem_cons_of_mem reg hb) hid] at hb
        exact hrest hb

/-- Allocations give registers their kinds. -/
theorem runAll_alloc (regs : List Registers.Reg) (file : File) :
    Registers.runAll (regs.map .alloc) file =
      .ok { file with kinds := putEach Registers.Reg.kind regs file.kinds } := by
  induction regs generalizing file with
  | nil => rfl
  | cons reg regs ih => exact ih (file.alloc reg)

/-- Zero of a kind. -/
def zeroOf (reg : Registers.Reg) : Value :=
  reg.kind.cast 0

/-- Code that computes zero into a register. -/
def zeroing (reg : Registers.Reg) : Registers.Instr :=
  .update .assign (.imm (.zero reg.kind)) (.reg reg.id)

/-- The immediate zero. -/
theorem zero_value (k : Registers.Kind) : (Registers.Imm.zero k).value = k.cast 0 := by
  cases k <;> rfl

/-- Registers start at zero. -/
theorem runAll_zeroing (regs : List Registers.Reg) (file : File) :
    Registers.runAll (regs.map zeroing) file =
      .ok { file with values := putEach zeroOf regs file.values } := by
  induction regs generalizing file with
  | nil => rfl
  | cons reg regs ih =>
      have hrun : (zeroing reg).run file = .ok (file.set reg.id (zeroOf reg)) := by
        change Except.ok (file.set reg.id (Registers.Imm.zero reg.kind).value) = _
        rw [zero_value]
        rfl
      rw [List.map_cons, Registers.runAll, hrun]
      exact ih _

/-- Code that zeroes registers. -/
theorem zeroEach_ends {regs : List Registers.Reg} {u : Unit}
    (h : Ends (zeroEach regs) v s u v' s') :
    v' = v ∧ s'.code = s.code.pushAll (regs.map zeroing) ∧ s'.inUse = s.inUse := by
  induction regs generalizing s with
  | nil =>
      obtain ⟨-, rfl, rfl⟩ := ends_pure.1 h
      exact ⟨rfl, rfl, rfl⟩
  | cons reg regs ih =>
      obtain ⟨_, v₁, s₁, hfirst, hrest⟩ := ends_bind.1 h
      obtain ⟨hwrite, rfl⟩ := ends_write.1 hfirst
      obtain rfl := Registers.Lower.ends_emit.1 hwrite
      obtain ⟨rfl, hcode, hinUse⟩ := ih hrest
      exact ⟨rfl, hcode, hinUse⟩

/-- Named results start at zero. -/
def clearing (regs : List Registers.Reg) : Code.Instr :=
  .setSlots (regs.map fun reg => (some reg.id, .const (zeroOf reg)))

/-- The values of result types are the zeros of the kinds of their registers. -/
theorem clearing_eq {results : List (Option Name × Ty)} {ks : List Registers.Kind}
    (hkinds : List.Forall₂ (fun e k => ofKind? (t.kind e.2) = some k) results ks) (n : Nat) :
    Code.Instr.setSlots (((List.range' n results.length).zip results).map fun (slot, e) =>
      (some slot, .const (t.zero e.2))) = clearing (numbered n ks) := by
  unfold clearing
  congr 1
  induction hkinds generalizing n with
  | nil => rfl
  | @cons e k results ks hkind _ ih =>
      rw [List.length_cons, List.range'_succ, List.zip_cons_cons, List.map_cons, numbered,
        List.map_cons, ih (n + 1)]
      dsimp only
      rw [zero_cast hkind]
      rfl

/-- Values are stored in slots one after the other. -/
theorem storeEach_put {r : Nat} (regs : List Registers.Reg) {m : Machine}
    (hr : r < m.records.size) : ∃ m',
      storeEach r (regs.map fun reg => some reg.id) (regs.map zeroOf) m = .ok () m' ∧
        r < m'.records.size ∧ (m'.record r).get = putEach zeroOf regs (m.record r).get := by
  induction regs generalizing m with
  | nil => exact ⟨m, rfl, hr, rfl⟩
  | cons reg regs ih =>
      have hr' : r < (m.store r reg.id (zeroOf reg)).records.size := by
        rw [Machine.store_size]
        exact hr
      obtain ⟨m', hstore, hsize, hget⟩ := ih hr'
      refine ⟨m', hstore, hsize, ?_⟩
      rw [hget, putEach]
      congr 1
      funext i
      rw [Machine.store_record m hr]
      split
      · subst i
        exact Record.get_set_self _ _ _
      · exact Record.get_set_ne _ _ ‹_›

/-- A body with named results begins with their zeros. -/
theorem exec_clearing {ctx : Context} {r : Nat} (regs : List Registers.Reg) {m : Machine}
    (hr : r < m.records.size) : ∃ m' log, actAll ctx r [clearing regs] m = ⟨.normal, m', log⟩ ∧
      r < m'.records.size ∧ (m'.record r).get = putEach zeroOf regs (m.record r).get := by
  obtain ⟨m', hstore, hsize, hget⟩ := storeEach_put regs hr
  have hvalues : evalAll ctx r ((regs.map zeroOf).map .const) m = .ok (regs.map zeroOf) m :=
    evalAll_consts _ m
  have hexec : execute ctx r (clearing regs) m = .ok .advance m' := by
    rw [List.map_map] at hvalues
    rw [clearing, execute, List.map_map, List.map_map]
    exact (Run.bind_result hvalues _).trans (Run.bind_result hstore _)
  refine ⟨m', [(.act (clearing regs), m)], ?_, hsize, hget⟩
  rw [actAll, hexec]
  rfl

end StraightLine

end ScriptCore
