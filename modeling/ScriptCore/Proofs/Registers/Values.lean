import ScriptCore.Proofs.Registers.Execution

/-!
# Lowered expressions compute their values

A register expression has a value in every register file, or an error.  Its lowering is code that
computes the value into an operand, or fails with the error; every register that was in use before
keeps what it held, and apart from the one temporary that holds the result, the same registers are
in use afterwards.

Main statements: `lower_spec`, `assign_spec`, `update_spec` and `adjust_spec`.
-/

namespace ScriptCore.Registers

/-- Value of an expression, computed at the kinds of its parts. -/
def Expr.value (f : File) : Expr → Except EvalError Value
  | imm c => .ok c.value
  | reg r => .ok (f.values r.id)
  | unary op x => do unaryValue op.operator (unary op x).kind.scalar (← x.value f)
  | binary op x y => do
    let a ← x.value f
    let b ← y.value f
    binaryValues op (binary op x y).kind.scalar a b

/-- The registers of an expression are in use. -/
def Expr.Live (s : Lowering) : Expr → Prop
  | imm _ => True
  | reg r => s.isLive r.id = true
  | unary _ x => x.Live s
  | binary _ x y => x.Live s ∧ y.Live s

/-- What is in use keeps its kind and what it holds. -/
def File.Keeps (s : Lowering) (f f' : File) : Prop :=
  ∀ i, s.isLive i = true → f'.values i = f.values i ∧ f'.kinds i = f.kinds i

namespace File.Keeps

variable {s s' : Lowering} {f f' f'' : File}

/-- Nothing happens. -/
protected theorem refl (s : Lowering) (f : File) : f.Keeps s f :=
  fun _ _ => ⟨rfl, rfl⟩

/-- First one and then another. -/
protected theorem trans (h : f.Keeps s f') (h' : f'.Keeps s f'') : f.Keeps s f'' :=
  fun i hi => ⟨(h' i hi).1.trans (h i hi).1, (h' i hi).2.trans (h i hi).2⟩

/-- Fewer registers are in use. -/
theorem mono (hle : ∀ i, s.isLive i = true → s'.isLive i = true) (h : f.Keeps s' f') :
    f.Keeps s f' :=
  fun i hi => h i (hle i hi)

end File.Keeps

namespace Lower

variable {α β : Type} {s s' : Lowering}

/-- A step ends with a result in a state. -/
def Ends (step : Lower α) (s : Lowering) (a : α) (s' : Lowering) : Prop :=
  step.run.run s = (.ok a, s')

/-- A result without a step. -/
theorem ends_pure {a b : α} : Ends (pure a) s b s' ↔ a = b ∧ s = s' := by
  constructor
  · intro h
    cases h
    exact ⟨rfl, rfl⟩
  · rintro ⟨rfl, rfl⟩
    rfl

/-- Two steps. -/
theorem ends_bind {step : Lower α} {next : α → Lower β} {b : β} :
    Ends (step >>= next) s b s' ↔ ∃ a s₁, Ends step s a s₁ ∧ Ends (next a) s₁ b s' := by
  have hrun : (step >>= next).run.run s = match step.run.run s with
      | (.ok a, s₁) => (next a).run.run s₁
      | (.error e, s₁) => (.error e, s₁) := by
    simp only [ExceptT.run_bind, StateT.run_bind]
    rcases step.run.run s with ⟨e | a, s₁⟩ <;> rfl
  unfold Ends
  rw [hrun]
  rcases step.run.run s with ⟨e | a, s₁⟩
  · constructor
    · intro h
      cases h
    · rintro ⟨a, s₂, heq, h⟩
      cases heq
  · constructor
    · intro h
      exact ⟨a, s₁, rfl, h⟩
    · rintro ⟨a', s₂, heq, h⟩
      cases heq
      exact h

/-- An instruction is written. -/
theorem ends_emit {i : Instr} {u : Unit} : Ends (emit i) s u s' ↔ s.push i = s' := by
  constructor
  · intro h
    cases h
    rfl
  · rintro rfl
    rfl

/-- What is required holds. -/
theorem ends_require {ok : Bool} {op : String} {kind : Kind} {u : Unit} :
    Ends (require ok op kind) s u s' ↔ ok = true ∧ s = s' := by
  unfold require
  cases ok with
  | true => simp [ends_pure]
  | false =>
      simp only [Bool.false_eq_true, if_false, false_and, iff_false]
      intro h
      cases h

/-- A register is allocated. -/
theorem ends_alloc {kind : Kind} {reg : Reg} :
    Ends (alloc kind) s reg s' ↔ s.alloc kind = (reg, s') := by
  constructor
  · intro h
    cases h
    rfl
  · intro h
    change (Except.ok (s.alloc kind).1, (s.alloc kind).2) = _
    rw [h]

/-- A register is released. -/
theorem ends_free {reg : Reg} {u : Unit} : Ends (free reg) s u s' ↔ s.free reg = s' := by
  constructor
  · intro h
    cases h
    rfl
  · rintro rfl
    rfl

end Lower

/-! ### Registers in use -/

namespace Lowering

/-- The lowest free register is not in use. -/
theorem not_isLive_lowestFree (s : Lowering) : s.isLive s.lowestFree = false := by
  unfold isLive lowestFree
  by_cases h : List.idxOf false s.inUse < s.inUse.length
  · rw [List.getElem?_eq_getElem h, List.getElem_idxOf h]
    rfl
  · rw [List.getElem?_eq_none (by omega)]
    rfl

/-- An allocated register was not in use. -/
theorem alloc_fresh (s : Lowering) (kind : Kind) : s.isLive (s.alloc kind).1.id = false :=
  s.not_isLive_lowestFree

/-- An allocation puts one register into use. -/
theorem alloc_isLive (s : Lowering) (kind : Kind) (i : Nat) :
    (s.alloc kind).2.isLive i = true ↔ i = (s.alloc kind).1.id ∨ s.isLive i = true := by
  by_cases hi : i = (s.alloc kind).1.id
  · subst hi
    simp [alloc_live]
  · simp only [hi, false_or]
    have hle := s.lowestFree_le
    simp only [alloc, isLive] at hi ⊢
    split
    · rw [List.getElem?_set_ne (Ne.symm hi)]
    · rw [List.getElem?_append]
      split
      · rfl
      · rename_i h h'
        have hne : i - s.inUse.length ≠ 0 := by omega
        rw [List.getElem?_eq_none (l := s.inUse) (by omega),
          List.getElem?_eq_none (l := [true]) (by simp; omega)]

/-- A release takes one register out of use. -/
theorem free_isLive (s : Lowering) (reg : Reg) (i : Nat) :
    (s.free reg).isLive i = true ↔ s.isLive i = true ∧ i ≠ reg.id := by
  by_cases hi : i = reg.id
  · subst hi
    simp [free_not_live]
  · simp only [ne_eq, hi, not_false_eq_true, and_true]
    unfold free
    split
    · simp only [isLive]
      rw [List.getElem?_set_ne (Ne.symm hi)]
    · rfl

end Lowering

/-! ### Destinations -/

/-- The temporaries of lowered operands. -/
def temps (xs : List Lowered) : List Reg :=
  xs.filterMap Lowered.temp

/-- A destination is one of the temporaries or a new register. -/
theorem destination_spec {xs : List Lowered} {kind : Kind} {s s' : Lowering} {dst : Reg}
    (h : (destination xs kind).Ends s dst s') :
    dst.kind = kind ∧ (dst ∈ temps xs ∧ s' = s ∨ s.alloc kind = (dst, s')) := by
  unfold destination at h
  split at h
  · rename_i temp hfind
    obtain ⟨rfl, rfl⟩ := Lower.ends_pure.1 h
    have hkind := List.find?_some hfind
    exact ⟨by simpa using hkind, .inl ⟨List.mem_of_find?_eq_some hfind, rfl⟩⟩
  · have halloc := Lower.ends_alloc.1 h
    have hkind : (s.alloc kind).1.kind = kind := rfl
    rw [halloc] at hkind
    exact ⟨hkind, .inr halloc⟩

/-- A release changes no register. -/
theorem Lowering.free_code (s : Lowering) (reg : Reg) :
    ∃ is, (s.free reg).code = s.code.pushAll is ∧ ∀ f, runAll is f = .ok f := by
  unfold free
  split
  · exact ⟨[.free reg], rfl, fun _ => rfl⟩
  · exact ⟨[], rfl, fun _ => rfl⟩

/-- Release the temporaries of lowered operands unless they are `keep`. -/
def releaseAll (keep : Option Reg) : List Lowered → Lower Unit
  | [] => pure ()
  | x :: xs => do
    release x keep
    releaseAll keep xs

/-- Releases change no register; all temporaries but the one to keep are out of use. -/
theorem releases_spec {xs : List Lowered} {keep : Option Reg} {s s' : Lowering} {u : Unit}
    (h : (releaseAll keep xs).Ends s u s') :
    ∃ is, s'.code = s.code.pushAll is ∧ (∀ f, runAll is f = .ok f) ∧
      ∀ i, s'.isLive i = true ↔
        s.isLive i = true ∧ ∀ t ∈ temps xs, some t ≠ keep → t.id ≠ i := by
  induction xs generalizing s with
  | nil =>
      obtain ⟨-, rfl⟩ := Lower.ends_pure.1 h
      exact ⟨[], rfl, fun f => rfl, fun i => by simp [temps]⟩
  | cons x xs ih =>
      rw [releaseAll, Lower.ends_bind] at h
      obtain ⟨_, s₁, hx, hxs⟩ := h
      obtain ⟨is, hcode, hrun, hlive⟩ := ih hxs
      unfold release at hx
      split at hx
      · rename_i temp htemp
        split at hx
        · rename_i hkeep
          obtain ⟨-, rfl⟩ := Lower.ends_pure.1 hx
          refine ⟨is, hcode, hrun, fun i => ?_⟩
          subst hkeep
          rw [hlive]
          simp only [temps, List.filterMap_cons, htemp, List.mem_cons, forall_eq_or_imp, ne_eq,
            not_true_eq_false, false_imp_iff, true_and]
        · rename_i hkeep
          have hfree := Lower.ends_free.1 hx
          subst hfree
          obtain ⟨js, hjs, hrunjs⟩ := s.free_code temp
          refine ⟨js ++ is, ?_, fun f => ?_, fun i => ?_⟩
          · rw [hcode, hjs, Stream.pushAll_append]
          · rw [runAll_append, hrunjs]
            exact hrun f
          · rw [hlive, Lowering.free_isLive]
            simp only [temps, List.filterMap_cons, htemp, List.mem_cons, forall_eq_or_imp]
            constructor
            · rintro ⟨⟨hi, hne⟩, hrest⟩
              exact ⟨hi, fun _ => Ne.symm hne, hrest⟩
            · rintro ⟨hi, hne, hrest⟩
              exact ⟨⟨hi, Ne.symm (hne hkeep)⟩, hrest⟩
      · rename_i htemp
        obtain ⟨-, rfl⟩ := Lower.ends_pure.1 hx
        refine ⟨is, hcode, hrun, fun i => ?_⟩
        rw [hlive]
        simp [temps, htemp]

/-- An instruction into a destination, after which the operands are released. -/
def finish (xs : List Lowered) (kind : Kind) (instr : Nat → Instr) : Lower Reg := do
  let dst ← destination xs kind
  emit (instr dst.id)
  releaseAll (some dst) xs
  return dst

/-- **The destination** is computed by the instruction, at the kind that was asked for; of the
temporaries, it is the only one in use afterwards. -/
theorem finish_spec {xs : List Lowered} {kind : Kind} {instr : Nat → Instr} {s s' : Lowering}
    {dst : Reg} (h : (finish xs kind instr).Ends s dst s')
    (hlive : ∀ t ∈ temps xs, s.isLive t.id = true)
    (hinj : ∀ t ∈ temps xs, ∀ u ∈ temps xs, t.id = u.id → t = u) :
    ∃ is, s'.code = s.code.pushAll is ∧ dst.kind = kind ∧
      (dst ∈ temps xs ∨ s.isLive dst.id = false) ∧
      (∀ i, s'.isLive i = true ↔
        i = dst.id ∨ s.isLive i = true ∧ ∀ t ∈ temps xs, t.id ≠ i) ∧
      ∀ f, (∀ t ∈ temps xs, f.kinds t.id = t.kind) → ∃ f₀ : File, f₀.values = f.values ∧
        (∀ i, i ≠ dst.id → f₀.kinds i = f.kinds i) ∧ f₀.kinds dst.id = kind ∧
        runAll is f = (instr dst.id).run f₀ := by
  simp only [finish, Lower.ends_bind, Lower.ends_emit, Lower.ends_pure] at h
  obtain ⟨dst, s₁, hdst, _, s₂, rfl, _, s₃, hrelease, rfl, rfl⟩ := h
  obtain ⟨hkind, hcases⟩ := destination_spec hdst
  obtain ⟨is, hcode, hrun, hafter⟩ := releases_spec hrelease
  have hfinish (f : File) : runAll (instr dst.id :: is) f = (instr dst.id).run f := by
    rw [runAll]
    cases (instr dst.id).run f with
    | error e => rfl
    | ok f' => exact hrun f'
  rcases hcases with ⟨hmem, rfl⟩ | halloc
  · refine ⟨instr dst.id :: is, hcode, hkind, .inl hmem, fun i => ?_, fun f hkinds => ?_⟩
    · rw [hafter]
      constructor
      · rintro ⟨hi, hne⟩
        by_cases hid : i = dst.id
        · exact .inl hid
        · refine .inr ⟨hi, fun t ht heq => ?_⟩
          by_cases htd : t = dst
          · exact hid (by rw [← heq, htd])
          · exact hne t ht (by simpa using htd) heq
      · rintro (rfl | ⟨hi, hne⟩)
        · refine ⟨hlive dst hmem, fun t ht htd heq => htd ?_⟩
          rw [hinj t ht dst hmem heq]
        · exact ⟨hi, fun t ht _ => hne t ht⟩
    · exact ⟨f, rfl, fun _ _ => rfl, (hkinds dst hmem).trans hkind, hfinish f⟩
  · have hs₁ : s₁ = (s.alloc kind).2 := by rw [halloc]
    have hid : (s.alloc kind).1 = dst := by rw [halloc]
    have hfresh : s.isLive dst.id = false := hid ▸ s.alloc_fresh kind
    have hne (t : Reg) (ht : t ∈ temps xs) : t.id ≠ dst.id := by
      intro heq
      have ht' := hlive t ht
      rw [heq, hfresh] at ht'
      cases ht'
    refine ⟨.alloc dst :: instr dst.id :: is, ?_, hkind, .inr hfresh, fun i => ?_, fun f _ => ?_⟩
    · rw [hcode, hs₁, ← hid]
      rfl
    · have hpush : (s₁.push (instr dst.id)).isLive i = s₁.isLive i := rfl
      rw [hafter, hpush, hs₁, Lowering.alloc_isLive, hid]
      constructor
      · rintro ⟨rfl | hi, hrest⟩
        · exact .inl rfl
        · refine .inr ⟨hi, fun t ht => hrest t ht fun heq => hne t ht ?_⟩
          rw [Option.some.inj heq]
      · rintro (rfl | ⟨hi, hrest⟩)
        · exact ⟨.inl rfl, fun t ht _ => hne t ht⟩
        · exact ⟨.inr hi, fun t ht _ => hrest t ht⟩
    · refine ⟨f.alloc dst, rfl, fun i hi => f.alloc_ne hi, ?_, hfinish _⟩
      rw [File.alloc_self, hkind]

/-! ### Expressions -/

/-- The lowering of a unary computation. -/
theorem lower_unary (op : Unary) (x : Expr) :
    lower (.unary op x) = do
      require (op.accepts x.kind) op.text x.kind
      let a ← lower x
      let dst ← finish [a] (Expr.unary op x).kind fun id => .unary op a.operand id
      return ⟨.reg dst.id, some dst⟩ := by
  simp only [lower, finish, releaseAll, bind_assoc, pure_bind]

/-- The lowering of a binary computation. -/
theorem lower_binary (op : BinaryOp) (x y : Expr) :
    lower (.binary op x y) = do
      require (accepts op x.kind) (mnemonic op) x.kind
      let a ← lower x
      let b ← lower y
      let dst ← finish [a, b] (Expr.binary op x y).kind fun id =>
        .binary op a.operand b.operand id
      return ⟨.reg dst.id, some dst⟩ := by
  simp only [lower, finish, releaseAll, bind_assoc, pure_bind]

/-- The operand of a lowered expression: an immediate, a register in use, or the one register that
has come into use. -/
structure Lowered.Fits (l : Lowered) (s s' : Lowering) (kind : Kind) : Prop where
  live : ∀ i, s'.isLive i = true ↔ s.isLive i = true ∨ ∃ t, l.temp = some t ∧ t.id = i
  temp : ∀ t, l.temp = some t →
    l.operand = .reg t.id ∧ t.kind = kind ∧ s.isLive t.id = false
  leaf : ∀ id, l.temp = none → l.operand = .reg id → s.isLive id = true

/-- Code computes a value into an operand, or fails with an error. -/
def Computes (is : List Instr) (s : Lowering) (l : Lowered) (f : File) :
    Except EvalError Value → Prop
  | .ok v => ∃ f', runAll is f = .ok f' ∧ f.Keeps s f' ∧ l.operand.value f' = v ∧
      ∀ t, l.temp = some t → f'.kinds t.id = t.kind
  | .error e => runAll is f = .error e

/-- Temporaries that have come into use for operands. -/
structure Operands (xs : List Lowered) (s s' : Lowering) : Prop where
  live : ∀ i, s'.isLive i = true ↔ s.isLive i = true ∨ ∃ t ∈ temps xs, t.id = i
  fresh : ∀ t ∈ temps xs, s.isLive t.id = false
  apart : ∀ t ∈ temps xs, ∀ u ∈ temps xs, t.id = u.id → t = u

namespace Operands

variable {a b : Lowered} {s s₁ s₂ : Lowering} {kind kind' : Kind}

/-- The temporary of one operand. -/
theorem mem_temps_single (a : Lowered) (t : Reg) : t ∈ temps [a] ↔ a.temp = some t := by
  cases ha : a.temp <;> simp [temps, ha, eq_comm]

/-- The temporaries of two operands. -/
theorem mem_temps_pair (a b : Lowered) (t : Reg) :
    t ∈ temps [a, b] ↔ a.temp = some t ∨ b.temp = some t := by
  cases ha : a.temp <;> cases hb : b.temp <;> simp [temps, ha, hb, eq_comm]

/-- One operand. -/
theorem single (h : a.Fits s s₁ kind) : Operands [a] s s₁ := by
  refine ⟨by simpa [mem_temps_single] using h.live, fun t ht => ?_, fun t ht u hu _ => ?_⟩
  · exact (h.temp t ((mem_temps_single a t).1 ht)).2.2
  · rw [mem_temps_single] at ht hu
    exact Option.some.inj (ht.symm.trans hu)

/-- Two operands, the second of which is lowered while the first one is kept. -/
theorem pair (hA : a.Fits s s₁ kind) (hB : b.Fits s₁ s₂ kind') : Operands [a, b] s s₂ := by
  have hapart (t u : Reg) (ht : a.temp = some t) (hu : b.temp = some u) : t.id ≠ u.id := by
    intro heq
    have hnot := (hB.temp u hu).2.2
    rw [← heq, (hA.live t.id).2 (.inr ⟨t, ht, rfl⟩)] at hnot
    cases hnot
  refine ⟨fun i => ?_, fun t ht => ?_, fun t ht u hu heq => ?_⟩
  · simp only [hB.live, hA.live, mem_temps_pair, or_assoc, or_and_right, exists_or]
  · rcases (mem_temps_pair a b t).1 ht with ht | ht
    · exact (hA.temp t ht).2.2
    · cases hs : s.isLive t.id with
      | false => rfl
      | true =>
          have hnot := (hB.temp t ht).2.2
          rw [(hA.live t.id).2 (.inl hs)] at hnot
          cases hnot
  · rw [mem_temps_pair] at ht hu
    rcases ht with ht | ht <;> rcases hu with hu | hu
    · exact Option.some.inj (ht.symm.trans hu)
    · exact absurd heq (hapart t u ht hu)
    · exact absurd heq.symm (hapart u t hu ht)
    · exact Option.some.inj (ht.symm.trans hu)

/-- Temporaries are in use. -/
theorem temps_live {xs : List Lowered} (h : Operands xs s s₁) (t : Reg) (ht : t ∈ temps xs) :
    s₁.isLive t.id = true :=
  (h.live t.id).2 (.inr ⟨t, ht, rfl⟩)

/-- The registers that are in use besides the temporaries. -/
theorem others_live {xs : List Lowered} (h : Operands xs s s₁) (i : Nat) :
    (s₁.isLive i = true ∧ ∀ t ∈ temps xs, t.id ≠ i) ↔ s.isLive i = true := by
  rw [h.live]
  constructor
  · rintro ⟨hi | ⟨t, ht, heq⟩, hne⟩
    · exact hi
    · exact absurd heq (hne t ht)
  · intro hi
    refine ⟨.inl hi, fun t ht heq => ?_⟩
    rw [← heq, h.fresh t ht] at hi
    cases hi

end Operands

/-- An operand is what registers hold. -/
theorem Operand.value_congr {f f' : File} (h : f.values = f'.values) (o : Operand) :
    o.value f = o.value f' := by
  cases o with
  | reg id => exact congrFun h id
  | imm c => rfl

/-- An operand that is in use is kept. -/
theorem Operand.value_keeps {s : Lowering} {f f' : File} (h : f.Keeps s f') {o : Operand}
    (hlive : ∀ id, o = .reg id → s.isLive id = true) : o.value f' = o.value f := by
  cases o with
  | reg id => exact (h id (hlive id rfl)).1
  | imm c => rfl

/-- The operand of a lowered expression is in use. -/
theorem Lowered.Fits.operand_live {l : Lowered} {s s' : Lowering} {kind : Kind}
    (h : l.Fits s s' kind) (id : Nat) (hid : l.operand = .reg id) : s'.isLive id = true := by
  rw [h.live]
  cases ht : l.temp with
  | none => exact .inl (h.leaf id ht hid)
  | some t =>
      have hreg := (h.temp t ht).1
      rw [hid] at hreg
      cases hreg
      exact .inr ⟨t, rfl, rfl⟩

/-- Code prepares the operands of an instruction that computes a result at a kind, or fails. -/
def Prepares (is : List Instr) (s : Lowering) (xs : List Lowered) (kind : Kind)
    (instr : Nat → Instr) (f : File) (r : Except EvalError Value) : Prop :=
  (∃ e, runAll is f = .error e ∧ r = .error e) ∨
    ∃ f₁, runAll is f = .ok f₁ ∧ f.Keeps s f₁ ∧ (∀ t ∈ temps xs, f₁.kinds t.id = t.kind) ∧
      ∀ (f₀ : File) id, f₀.values = f₁.values → f₀.scalar id = kind.scalar →
        (instr id).run f₀ = do return f₀.set id (← r)

namespace Prepares

variable {s s₁ s₂ : Lowering} {a b : Lowered} {kind : Kind} {f : File} {is js : List Instr}

/-- The operand of a unary computation. -/
theorem unary {op : Unary} {r : Except EvalError Value} (h : Computes is s a f r) :
    Prepares is s [a] kind (fun id => .unary op a.operand id) f
      (do unaryValue op.operator kind.scalar (← r)) := by
  cases r with
  | error e => exact .inl ⟨e, h, rfl⟩
  | ok v =>
      obtain ⟨f₁, hrun, hkeeps, hvalue, hkinds⟩ := h
      refine .inr ⟨f₁, hrun, hkeeps, fun t ht => ?_, fun f₀ id hvalues hscalar => ?_⟩
      · exact hkinds t ((Operands.mem_temps_single a t).1 ht)
      · rw [Instr.run, hscalar, Operand.value_congr hvalues, hvalue]
        rfl

/-- The operands of a binary computation. -/
theorem binary {op : BinaryOp} {r : Except EvalError Value} {r' : Except EvalError Value}
    {kindA : Kind} (hfits : a.Fits s s₁ kindA) (h : Computes is s a f r)
    (h' : ∀ f', f.Keeps s f' → Computes js s₁ b f' r') :
    Prepares (is ++ js) s [a, b] kind (fun id => .binary op a.operand b.operand id) f
      (do
        let v ← r
        let w ← r'
        binaryValues op kind.scalar v w) := by
  cases r with
  | error e =>
      refine .inl ⟨e, ?_, rfl⟩
      rw [runAll_append, show runAll is f = .error e from h]
      rfl
  | ok v =>
      obtain ⟨f₁, hrun, hkeeps, hvalue, hkinds⟩ := h
      have hb := h' f₁ hkeeps
      cases r' with
      | error e =>
          refine .inl ⟨e, ?_, rfl⟩
          rw [runAll_append, hrun]
          exact hb
      | ok w =>
          obtain ⟨f₂, hrun', hkeeps', hvalue', hkinds'⟩ := hb
          have hle (i : Nat) (hi : s.isLive i = true) : s₁.isLive i = true :=
            (hfits.live i).2 (.inl hi)
          have hfirst := a.operand.value_keeps hkeeps' hfits.operand_live
          rw [hvalue] at hfirst
          refine .inr ⟨f₂, ?_, hkeeps.trans (hkeeps'.mono hle), fun t ht => ?_,
            fun f₀ id hvalues hscalar => ?_⟩
          · rw [runAll_append, hrun]
            exact hrun'
          · rcases (Operands.mem_temps_pair a b t).1 ht with ht | ht
            · have hlive := (hfits.live t.id).2 (.inr ⟨t, ht, rfl⟩)
              exact ((hkeeps' t.id hlive).2).trans (hkinds t ht)
            · exact hkinds' t ht
          · rw [Instr.run, hscalar, Operand.value_congr hvalues, Operand.value_congr hvalues,
              hfirst, hvalue']
            rfl

end Prepares

/-- An instruction computes a result into the temporary that holds it, which is the one register
that has come into use. -/
theorem finish_computes {xs : List Lowered} {kind : Kind} {instr : Nat → Instr} {s s₁ s' : Lowering}
    {dst : Reg} {is : List Instr} {r : File → Except EvalError Value} (hops : Operands xs s s₁)
    (hcode : s₁.code = s.code.pushAll is) (hprepares : ∀ f, Prepares is s xs kind instr f (r f))
    (h : (finish xs kind instr).Ends s₁ dst s') :
    (Lowered.mk (.reg dst.id) (some dst)).Fits s s' kind ∧
      ∃ is', s'.code = s.code.pushAll is' ∧
        ∀ f, Computes is' s ⟨.reg dst.id, some dst⟩ f (r f) := by
  obtain ⟨js, hcode', hkind, hdst, hafter, hrun⟩ := finish_spec h hops.temps_live hops.apart
  have hnew : s.isLive dst.id = false := by
    rcases hdst with hmem | hnot
    · exact hops.fresh dst hmem
    · cases hs : s.isLive dst.id with
      | false => rfl
      | true => rw [(hops.live dst.id).2 (.inl hs)] at hnot; cases hnot
  refine ⟨⟨fun i => ?_, ?_, fun id hnone => by cases hnone⟩, is ++ js, ?_, fun f => ?_⟩
  · rw [hafter, hops.others_live, or_comm]
    refine or_congr_right ⟨fun hi => ⟨dst, rfl, hi.symm⟩, ?_⟩
    rintro ⟨t, ⟨rfl⟩, hi⟩
    exact hi.symm
  · rintro t ⟨rfl⟩
    exact ⟨rfl, hkind, hnew⟩
  · rw [hcode', hcode, Stream.pushAll_append]
  · rcases hprepares f with ⟨e, herror, hr⟩ | ⟨f₁, hfirst, hkeeps, hkinds, hinstr⟩
    · rw [hr]
      change runAll (is ++ js) f = .error e
      rw [runAll_append, herror]
      rfl
    · obtain ⟨f₀, hvalues, hother, hself, hstep⟩ := hrun f₁ hkinds
      have hthen : runAll (is ++ js) f = do return f₀.set dst.id (← r f) := by
        rw [runAll_append, hfirst]
        exact hstep.trans (hinstr f₀ dst.id hvalues (by rw [File.scalar, hself]))
      cases hr : r f with
      | error e =>
          rw [hr] at hthen
          exact hthen
      | ok v =>
          rw [hr] at hthen
          refine ⟨f₀.set dst.id v, hthen, fun i hi => ?_, File.set_self f₀ dst.id v, ?_⟩
          · have hne : i ≠ dst.id := by
              rintro rfl
              rw [hnew] at hi
              cases hi
            rw [File.set_ne f₀ hne, hvalues, File.set_kinds, hother i hne]
            exact hkeeps i hi
          · rintro t ⟨rfl⟩
            exact hself.trans hkind.symm

/-- Registers that are in use stay in use while an expression is lowered. -/
theorem Expr.Live.mono {s s' : Lowering} (hle : ∀ i, s.isLive i = true → s'.isLive i = true)
    {e : Expr} (h : e.Live s) : e.Live s' := by
  induction e with
  | imm c => trivial
  | reg r => exact hle r.id h
  | unary op x ih => exact ih h
  | binary op x y ihx ihy => exact ⟨ihx h.1, ihy h.2⟩

/-- The value of an expression is kept if its registers are in use. -/
theorem Expr.value_keeps {s : Lowering} {f f' : File} (h : f.Keeps s f') {e : Expr}
    (hlive : e.Live s) : e.value f' = e.value f := by
  induction e with
  | imm c => rfl
  | reg r => exact congrArg Except.ok (h r.id hlive).1
  | unary op x ih => rw [value, value, ih hlive]
  | binary op x y ihx ihy => rw [value, value, ihx hlive.1, ihy hlive.2]

/-- Two expressions are lowered one after the other. -/
theorem pair_prepares {x y : Expr} {op : BinaryOp} {kind : Kind} {s s₁ : Lowering}
    {a b : Lowered} {is js : List Instr} (hfits : a.Fits s s₁ x.kind)
    (hx : ∀ f, Computes is s a f (x.value f)) (hy : ∀ f, Computes js s₁ b f (y.value f))
    (hlive : y.Live s) (f : File) :
    Prepares (is ++ js) s [a, b] kind (fun id => .binary op a.operand b.operand id) f
      (do
        let v ← x.value f
        let w ← y.value f
        binaryValues op kind.scalar v w) := by
  refine .binary hfits (hx f) fun f' hkeeps => ?_
  have hb := hy f'
  rwa [Expr.value_keeps hkeeps hlive] at hb

/-- **A lowered expression has its value**: the code that lowering writes computes it into the
operand that is returned. -/
theorem lower_spec (e : Expr) {s s' : Lowering} {l : Lowered} (h : (lower e).Ends s l s')
    (hlive : e.Live s) :
    l.Fits s s' e.kind ∧
      ∃ is, s'.code = s.code.pushAll is ∧ ∀ f, Computes is s l f (e.value f) := by
  induction e generalizing s s' l with
  | imm c =>
      obtain ⟨rfl, rfl⟩ := Lower.ends_pure.1 h
      refine ⟨⟨by simp, by simp, by simp⟩, [], rfl, fun f => ?_⟩
      exact ⟨f, rfl, .refl s f, rfl, by simp⟩
  | reg r =>
      obtain ⟨rfl, rfl⟩ := Lower.ends_pure.1 h
      refine ⟨⟨by simp, by simp, fun id _ hid => ?_⟩, [], rfl, fun f => ?_⟩
      · cases hid
        exact hlive
      · exact ⟨f, rfl, .refl s f, rfl, by simp⟩
  | unary op x ih =>
      rw [lower_unary] at h
      simp only [Lower.ends_bind, Lower.ends_require, Lower.ends_pure] at h
      obtain ⟨_, _, ⟨-, rfl⟩, a, s₁, hx, dst, s₂, hfinish, rfl, rfl⟩ := h
      obtain ⟨hfits, is, hcode, hcomputes⟩ := ih hx hlive
      exact finish_computes (.single hfits) hcode (fun f => .unary (hcomputes f)) hfinish
  | binary op x y ihx ihy =>
      rw [lower_binary] at h
      simp only [Lower.ends_bind, Lower.ends_require, Lower.ends_pure] at h
      obtain ⟨_, _, ⟨-, rfl⟩, a, s₁, hx, b, s₂, hy, dst, s₃, hfinish, rfl, rfl⟩ := h
      obtain ⟨hfitsA, is, hcodeA, hcomputesA⟩ := ihx hx hlive.1
      have hle (i : Nat) (hi : s.isLive i = true) : s₁.isLive i = true :=
        (hfitsA.live i).2 (.inl hi)
      obtain ⟨hfitsB, js, hcodeB, hcomputesB⟩ := ihy hy (hlive.2.mono hle)
      have hcode : s₂.code = s.code.pushAll (is ++ js) := by
        rw [hcodeB, hcodeA, Stream.pushAll_append]
      exact finish_computes (.pair hfitsA hfitsB) hcode
        (pair_prepares hfitsA hcomputesA hcomputesB hlive.2) hfinish

/-! ### Statements -/

/-- Code puts a result into a register and keeps the others that are in use, or fails. -/
def Puts (is : List Instr) (s : Lowering) (dst : Nat) (f : File) :
    Except EvalError Value → Prop
  | .ok v => ∃ f', runAll is f = .ok f' ∧ (f.set dst v).Keeps s f'
  | .error e => runAll is f = .error e

/-- Code that has been written leaves the same registers in use. -/
structure Writes (is : List Instr) (s s' : Lowering) : Prop where
  code : s'.code = s.code.pushAll is
  live : ∀ i, s'.isLive i = true ↔ s.isLive i = true

/-- The last instruction of a statement comes after its operands and before releases. -/
theorem emit_writes {xs : List Lowered} {i : Instr} {s s₁ s' : Lowering} {u : Unit}
    {is : List Instr} (hops : Operands xs s s₁) (hcode : s₁.code = s.code.pushAll is)
    (h : (do emit i; releaseAll none xs : Lower Unit).Ends s₁ u s') :
    ∃ is', Writes is' s s' ∧ ∀ f, runAll is' f = (runAll is f >>= fun f₁ => i.run f₁) := by
  simp only [Lower.ends_bind, Lower.ends_emit] at h
  obtain ⟨_, s₂, rfl, hrelease⟩ := h
  obtain ⟨js, hcode', hrun, hafter⟩ := releases_spec hrelease
  refine ⟨is ++ i :: js, ⟨?_, fun r => ?_⟩, fun f => ?_⟩
  · rw [hcode', Stream.pushAll_append, ← hcode]
    rfl
  · rw [hafter, ← hops.others_live]
    simp [Lowering.push, Lowering.isLive]
  · rw [runAll_append]
    refine bind_congr fun f₁ => ?_
    rw [runAll]
    cases i.run f₁ with
    | error e => rfl
    | ok f₂ => exact hrun f₂

/-- A result that is put into a register. -/
theorem Puts.of_run {is : List Instr} {s : Lowering} {dst : Nat} {f f₁ : File}
    {r : Except EvalError Value} (hkeeps : f.Keeps s f₁)
    (hrun : runAll is f = (do return f₁.set dst (← r))) : Puts is s dst f r := by
  cases r with
  | error e => exact hrun
  | ok v =>
      refine ⟨f₁.set dst v, hrun, fun i hi => ⟨?_, (hkeeps i hi).2⟩⟩
      by_cases hid : i = dst
      · subst hid
        rw [File.set_self, File.set_self]
      · rw [File.set_ne f₁ hid, File.set_ne f hid]
        exact (hkeeps i hi).1

/-- An instruction computes a result into a register that is in use. -/
theorem emit_puts {xs : List Lowered} {kind : Kind} {instr : Nat → Instr} {s s₁ s' : Lowering}
    {dst : Nat} {u : Unit} {is : List Instr} {r : File → Except EvalError Value}
    (hops : Operands xs s s₁) (hcode : s₁.code = s.code.pushAll is)
    (hprepares : ∀ f, Prepares is s xs kind instr f (r f)) (hdst : s.isLive dst = true)
    (h : (do emit (instr dst); releaseAll none xs : Lower Unit).Ends s₁ u s') :
    ∃ is', Writes is' s s' ∧ ∀ f, f.kinds dst = kind → Puts is' s dst f (r f) := by
  obtain ⟨is', hwrites, hrun⟩ := emit_writes hops hcode h
  refine ⟨is', hwrites, fun f hkind => ?_⟩
  rcases hprepares f with ⟨e, herror, hr⟩ | ⟨f₁, hfirst, hkeeps, -, hinstr⟩
  · rw [hr]
    change runAll is' f = .error e
    rw [hrun, herror]
    rfl
  · refine .of_run hkeeps ?_
    rw [hrun, hfirst]
    exact hinstr f₁ dst rfl (by rw [File.scalar, (hkeeps dst hdst).2, hkind])

/-- The assignment of a unary computation. -/
theorem assign_unary (op : Unary) (x : Expr) (dst : Reg) :
    assign (.unary op x) dst = (do
      require (op.accepts x.kind) op.text x.kind
      let a ← lower x
      emit (.unary op a.operand dst.id)
      releaseAll none [a]) := by
  simp only [assign, releaseAll, bind_pure_unit]

/-- The assignment of a binary computation. -/
theorem assign_binary (op : BinaryOp) (x y : Expr) (dst : Reg) :
    assign (.binary op x y) dst = (do
      require (accepts op x.kind) (mnemonic op) x.kind
      let a ← lower x
      let b ← lower y
      emit (.binary op a.operand b.operand dst.id)
      releaseAll none [a, b]) := by
  simp only [assign, releaseAll, bind_pure_unit]

/-- **An assignment** puts the value of the expression into the register. -/
theorem assign_spec {e : Expr} {dst : Reg} {s s' : Lowering} {u : Unit}
    (h : (assign e dst).Ends s u s') (hlive : e.Live s) (hdst : s.isLive dst.id = true) :
    ∃ is, Writes is s s' ∧ ∀ f, f.kinds dst.id = e.kind → Puts is s dst.id f (e.value f) := by
  cases e with
  | imm c =>
      have hs := Lower.ends_emit.1 h
      subst hs
      refine ⟨[.update .assign (.imm c) (.reg dst.id)], ⟨rfl, fun i => Iff.rfl⟩, fun f _ => ?_⟩
      exact ⟨f.set dst.id c.value, rfl, .refl s _⟩
  | reg r =>
      have hs := Lower.ends_emit.1 h
      subst hs
      refine ⟨[.update .assign (.reg r.id) (.reg dst.id)], ⟨rfl, fun i => Iff.rfl⟩, fun f _ => ?_⟩
      exact ⟨f.set dst.id (f.values r.id), rfl, .refl s _⟩
  | unary op x =>
      rw [assign_unary, Lower.ends_bind] at h
      obtain ⟨_, _, hrequire, h⟩ := h
      obtain ⟨-, rfl⟩ := Lower.ends_require.1 hrequire
      obtain ⟨a, s₁, hx, h⟩ := Lower.ends_bind.1 h
      obtain ⟨hfits, is, hcode, hcomputes⟩ := lower_spec x hx hlive
      exact emit_puts (.single hfits) hcode (fun f => .unary (hcomputes f)) hdst h
  | binary op x y =>
      rw [assign_binary, Lower.ends_bind] at h
      obtain ⟨_, _, hrequire, h⟩ := h
      obtain ⟨-, rfl⟩ := Lower.ends_require.1 hrequire
      obtain ⟨a, s₁, hx, h⟩ := Lower.ends_bind.1 h
      obtain ⟨b, s₂, hy, h⟩ := Lower.ends_bind.1 h
      obtain ⟨hfitsA, is, hcodeA, hcomputesA⟩ := lower_spec x hx hlive.1
      have hle (i : Nat) (hi : s.isLive i = true) : s₁.isLive i = true :=
        (hfitsA.live i).2 (.inl hi)
      obtain ⟨hfitsB, js, hcodeB, hcomputesB⟩ := lower_spec y hy (hlive.2.mono hle)
      have hcode : s₂.code = s.code.pushAll (is ++ js) := by
        rw [hcodeB, hcodeA, Stream.pushAll_append]
      exact emit_puts (.pair hfitsA hfitsB) hcode
        (pair_prepares hfitsA hcomputesA hcomputesB hlive.2) hdst h

/-- **A step** adds one to a register or subtracts it. -/
theorem adjust_spec {increment : Bool} {dst : Reg} {s s' : Lowering} {u : Unit}
    (h : (adjust (if increment then .inc else .dec) dst).Ends s u s') :
    ∃ is, Writes is s s' ∧ ∀ f, f.kinds dst.id = dst.kind → Puts is s dst.id f
      (binaryValues (if increment then .add else .sub) dst.kind.scalar (f.values dst.id)
        (dst.kind.cast 1)) := by
  simp only [adjust, Lower.ends_bind, Lower.ends_require, Lower.ends_emit] at h
  obtain ⟨_, _, ⟨-, rfl⟩, rfl⟩ := h
  refine ⟨[.adjust (if increment then .inc else .dec) (.reg dst.id)], ⟨rfl, fun i => Iff.rfl⟩,
    fun f hkind => ?_⟩
  have hstep : runAll [.adjust (if increment then .inc else .dec) (.reg dst.id)] f = (do
      let v ← binaryValues (if increment then .add else .sub) dst.kind.scalar
        (f.values dst.id) (dst.kind.cast 1)
      return f.set dst.id v) := by
    rw [← hkind]
    cases increment <;> exact bind_pure _
  exact .of_run (.refl s f) hstep

/-- **An update** applies an operator to a register and the value of an expression. -/
theorem update_spec {op : BinaryOp} {inst : Update} {e : Expr} {dst : Reg} {s s' : Lowering}
    {u : Unit} (hinst : Update.ofOp? op = some inst) (h : (update inst e dst).Ends s u s')
    (hlive : e.Live s) (hdst : s.isLive dst.id = true) :
    ∃ is, Writes is s s' ∧ ∀ f, f.kinds dst.id = dst.kind → Puts is s dst.id f (do
      let v ← e.value f
      binaryValues op dst.kind.scalar (f.values dst.id) v) := by
  have hop := Update.ofOp?_eq_some_iff.1 hinst
  have hne : inst ≠ .assign := by
    rintro rfl
    cases hop
  rw [update, if_neg hne, Lower.ends_bind] at h
  obtain ⟨_, _, hrequire, h⟩ := h
  obtain ⟨-, rfl⟩ := Lower.ends_require.1 hrequire
  obtain ⟨a, s₁, hsrc, h⟩ := Lower.ends_bind.1 h
  obtain ⟨hfits, is, hcode, hcomputes⟩ := lower_spec e hsrc hlive
  rw [← bind_pure_unit (x := release a none)] at h
  obtain ⟨is', hwrites, hrun⟩ := emit_writes (.single hfits) hcode h
  refine ⟨is', hwrites, fun f hkind => ?_⟩
  have hc := hcomputes f
  cases hv : e.value f with
  | error err =>
      rw [hv] at hc
      change runAll is' f = .error err
      rw [hrun, show runAll is f = .error err from hc]
      rfl
  | ok v =>
      rw [hv] at hc
      obtain ⟨f₁, hfirst, hkeeps, hvalue, -⟩ := hc
      refine .of_run hkeeps ?_
      rw [hrun, hfirst]
      change inst.run (a.operand.value f₁) dst.id f₁ = _
      rw [Update.run, hop, hvalue, File.scalar, (hkeeps dst.id hdst).2, (hkeeps dst.id hdst).1,
        hkind]
      rfl

end ScriptCore.Registers
