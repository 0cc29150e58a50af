import Mathlib.Logic.Function.Basic
import ScriptCore.Proofs.Registers.Values

/-!
# Register discipline

What the instructions of a stream may name.  An allocation takes the lowest number that is not live,
a release names a live register with the kind it was allocated with, and every other instruction
names live registers only, all of one kind, which is also the kind of its immediates; only the count
of a shift has a kind of its own.

Lowering keeps the discipline: while an expression is lowered, an operand may come into a temporary,
and apart from that temporary the same registers are live afterwards, with the same kinds.

Main statements: `lower_follows`, `assign_follows`, `update_follows` and `adjust_follows`.
-/

namespace ScriptCore.Registers

/-- The registers that are live, with the kinds they were allocated with. -/
abbrev Allocation := Nat → Option Kind

/-- No register is live. -/
def Allocation.empty : Allocation := fun _ => none

/-- Live registers stay live when another one becomes live. -/
theorem Allocation.keeps_update {a : Allocation} {id : Nat} (hnone : a id = none)
    (o : Option Kind) (i : Nat) (kind : Kind) (hi : a i = some kind) :
    Function.update a id o i = some kind := by
  have hne : i ≠ id := by
    rintro rfl
    rw [hnone] at hi
    cases hi
  rw [Function.update_of_ne hne, hi]

/-- An operand of a kind: an immediate of that kind, or a live register that was allocated with
it. -/
def Operand.HasKind (a : Allocation) (k : Kind) : Operand → Prop
  | reg id => a id = some k
  | imm c => c.kind = k

/-- An operand keeps its kind while registers become live. -/
theorem Operand.HasKind.mono {a b : Allocation} {k : Kind} {o : Operand} (h : o.HasKind a k)
    (hle : ∀ i kind, a i = some kind → b i = some kind) : o.HasKind b k := by
  cases o with
  | reg id => exact hle id k h
  | imm c => exact h

/-- The second operand of an operator whose first operand has a kind: it has the same kind, unless
it is the count of a shift. -/
def Operand.Suits (a : Allocation) (op : BinaryOp) (k : Kind) (o : Operand) : Prop :=
  ∃ k', o.HasKind a k' ∧ (op.isShift = false → k' = k)

/-- What an instruction asks of the registers that are live. -/
def Instr.Obeys (a : Allocation) : Instr → Prop
  | unary _ src dst => ∃ k, a dst = some k ∧ src.HasKind a k
  | binary op x y dst => ∃ k, a dst = some k ∧ x.HasKind a k ∧ y.Suits a op k
  | adjust _ dst => ∃ id k, dst = .reg id ∧ a id = some k
  | update op src dst => ∃ id k, dst = .reg id ∧ a id = some k ∧
      match op.op with
      | none => src.HasKind a k
      | some o => src.Suits a o k
  | alloc reg => a reg.id = none ∧ ∀ id < reg.id, a id ≠ none
  | free reg => a reg.id = some reg.kind

/-- The registers that are live after an instruction. -/
def Instr.after (a : Allocation) : Instr → Allocation
  | alloc reg => Function.update a reg.id (some reg.kind)
  | free reg => Function.update a reg.id none
  | _ => a

/-- Instructions that keep the discipline one after the other; the second allocation is what is live
at the end. -/
def ObeyAll : List Instr → Allocation → Allocation → Prop
  | [], a, b => a = b
  | i :: is, a, b => i.Obeys a ∧ ObeyAll is (i.after a) b

/-- One part after the other. -/
theorem obeyAll_append {is js : List Instr} {a c : Allocation} :
    ObeyAll (is ++ js) a c ↔ ∃ b, ObeyAll is a b ∧ ObeyAll js b c := by
  induction is generalizing a with
  | nil => simp [ObeyAll]
  | cons i is ih => simp [ObeyAll, ih, and_assoc]

/-- An instruction without effect makes no register live and releases none. -/
theorem Instr.after_void {i : Instr} (h : i.isVoid = true) (a : Allocation) : i.after a = a := by
  cases i <;> first | rfl | cases h

/-- Instructions without effect can be left out. -/
theorem ObeyAll.filter {is : List Instr} {a b : Allocation} (h : ObeyAll is a b) :
    ObeyAll (is.filter fun i => !i.isVoid) a b := by
  induction is generalizing a with
  | nil => exact h
  | cons i is ih =>
      obtain ⟨hi, his⟩ := h
      cases hvoid : i.isVoid with
      | true =>
          rw [List.filter_cons_of_neg (by simp [hvoid])]
          rw [Instr.after_void hvoid] at his
          exact ih his
      | false =>
          rw [List.filter_cons_of_pos (by simp [hvoid])]
          exact ⟨hi, ih his⟩

/-! ### Steps of lowering -/

/-- The registers in use are those that are live. -/
def Accounts (s : Lowering) (a : Allocation) : Prop :=
  ∀ i, s.isLive i = (a i).isSome

/-- **An allocation** takes the lowest number that is not live. -/
theorem Accounts.alloc {s s' : Lowering} {a : Allocation} {k : Kind} {reg : Reg} (h : Accounts s a)
    (halloc : s.alloc k = (reg, s')) :
    reg.kind = k ∧ (Instr.alloc reg).Obeys a ∧ s'.code = s.code.push (.alloc reg) ∧
      Accounts s' (Function.update a reg.id (some k)) := by
  obtain ⟨hreg, hs'⟩ := Prod.ext_iff.1 halloc
  dsimp only at hreg hs'
  have hfree : a reg.id = none := by
    have hfresh := s.alloc_fresh k
    rw [hreg, h] at hfresh
    simpa using hfresh
  have hlowest : ∀ id < reg.id, a id ≠ none := by
    intro id hid hnone
    have hlt : id < s.inUse.idxOf false := by rwa [← hreg] at hid
    have hbound : id < s.inUse.length := Nat.lt_of_lt_of_le hlt s.lowestFree_le
    have htrue : s.inUse[id] = true := by simpa using List.not_of_lt_findIdx hlt
    have hlive := h id
    rw [hnone, Lowering.isLive, List.getElem?_eq_getElem hbound, htrue] at hlive
    cases hlive
  refine ⟨by rw [← hreg]; rfl, ⟨hfree, hlowest⟩, by rw [← hs', ← hreg]; rfl, fun i => ?_⟩
  rw [← hs', Bool.eq_iff_iff, Lowering.alloc_isLive, hreg]
  by_cases hi : i = reg.id
  · subst hi
    simp
  · rw [Function.update_of_ne hi, ← h i]
    simp [hi]

/-- What has been written between two states keeps the discipline. -/
structure Follows (s : Lowering) (a : Allocation) (s' : Lowering) (a' : Allocation) : Prop where
  code : ∃ is, s'.code = s.code.pushAll is ∧ ObeyAll is a a'
  tracks : Accounts s' a'

namespace Follows

variable {s s' s'' : Lowering} {a a' a'' : Allocation} {k : Kind} {reg : Reg}

/-- Nothing is written. -/
protected theorem refl (h : Accounts s a) : Follows s a s a :=
  ⟨⟨[], rfl, rfl⟩, h⟩

/-- First one part and then another. -/
protected theorem trans (h : Follows s a s' a') (h' : Follows s' a' s'' a'') :
    Follows s a s'' a'' := by
  obtain ⟨is, hcode, his⟩ := h.code
  obtain ⟨js, hcode', hjs⟩ := h'.code
  refine ⟨⟨is ++ js, ?_, obeyAll_append.2 ⟨a', his, hjs⟩⟩, h'.tracks⟩
  rw [hcode', hcode, Stream.pushAll_append]

/-- An instruction that computes. -/
theorem push (h : Accounts s a) {i : Instr} (hi : i.Obeys a) (hafter : i.after a = a) :
    Follows s a (s.push i) a :=
  ⟨⟨[i], rfl, hi, hafter⟩, h⟩

/-- **An allocation** of a register. -/
theorem alloc (h : Accounts s a) (halloc : s.alloc k = (reg, s')) :
    reg.kind = k ∧ a reg.id = none ∧ Follows s a s' (Function.update a reg.id (some k)) := by
  obtain ⟨hkind, hobeys, hcode, htracks⟩ := h.alloc halloc
  refine ⟨hkind, hobeys.1, ⟨[.alloc reg], hcode, hobeys, ?_⟩, htracks⟩
  rw [Instr.after, hkind]
  rfl

/-- **A release** names a live register with its kind; nothing is written for one that is not
live. -/
theorem free (h : Accounts s a) (hreg : a reg.id = some reg.kind ∨ a reg.id = none) :
    Follows s a (s.free reg) (Function.update a reg.id none) := by
  have htracks : Accounts (s.free reg) (Function.update a reg.id none) := by
    intro i
    rw [Bool.eq_iff_iff, Lowering.free_isLive, h i]
    by_cases hi : i = reg.id
    · subst hi
      simp
    · rw [Function.update_of_ne hi]
      simp [hi]
  refine ⟨?_, htracks⟩
  rcases hreg with hsome | hnone
  · have hlive : s.isLive reg.id = true := by rw [h, hsome]; rfl
    refine ⟨[.free reg], ?_, hsome, rfl⟩
    rw [Lowering.free, if_pos hlive]
    rfl
  · have hdead : ¬ s.isLive reg.id = true := by simp [h reg.id, hnone]
    refine ⟨[], ?_, ?_⟩
    · rw [Lowering.free, if_neg hdead]
      rfl
    · rw [← hnone, Function.update_eq_self]
      rfl

end Follows

/-! ### Operands in temporaries -/

/-- The registers that are live after operands have been lowered: the temporaries of the operands
have become live. -/
structure Taken (xs : List Lowered) (a a' : Allocation) : Prop where
  temp : ∀ t ∈ temps xs, a' t.id = some t.kind
  fresh : ∀ t ∈ temps xs, a t.id = none
  other : ∀ i, (∀ t ∈ temps xs, t.id ≠ i) → a' i = a i

/-- An operand of a kind that has been lowered: its temporary, if there is one, has that kind. -/
structure Lowered.Takes (l : Lowered) (k : Kind) (a a' : Allocation) : Prop
    extends Taken [l] a a' where
  operand : l.operand.HasKind a' k
  kind : ∀ t, l.temp = some t → t.kind = k

namespace Taken

variable {xs : List Lowered} {a a' a'' : Allocation} {x y : Lowered} {k k' : Kind}

/-- Live registers stay live, with their kinds. -/
theorem keeps (h : Taken xs a a') {id : Nat} (hid : a id = some k) : a' id = some k := by
  rw [h.other id fun t ht heq => ?_, hid]
  rw [← heq, h.fresh t ht] at hid
  cases hid

/-- Two operands, the second of which is lowered after the first one. -/
theorem pair (hx : x.Takes k a a') (hy : y.Takes k' a' a'') : Taken [x, y] a a'' := by
  refine ⟨fun t ht => ?_, fun t ht => ?_, fun i hi => ?_⟩
  · rcases (Operands.mem_temps_pair x y t).1 ht with ht | ht
    · exact hy.keeps (hx.temp t ((Operands.mem_temps_single x t).2 ht))
    · exact hy.temp t ((Operands.mem_temps_single y t).2 ht)
  · rcases (Operands.mem_temps_pair x y t).1 ht with ht | ht
    · exact hx.fresh t ((Operands.mem_temps_single x t).2 ht)
    · have hnone := hy.fresh t ((Operands.mem_temps_single y t).2 ht)
      cases ha : a t.id with
      | none => rfl
      | some kind =>
          rw [hx.keeps ha] at hnone
          cases hnone
  · have hxi : ∀ t ∈ temps [x], t.id ≠ i := fun t ht =>
      hi t ((Operands.mem_temps_pair x y t).2 (.inl ((Operands.mem_temps_single x t).1 ht)))
    have hyi : ∀ t ∈ temps [y], t.id ≠ i := fun t ht =>
      hi t ((Operands.mem_temps_pair x y t).2 (.inr ((Operands.mem_temps_single y t).1 ht)))
    rw [hy.other i hyi, hx.other i hxi]

end Taken

section
variable {xs : List Lowered} {s s₁ s' : Lowering} {a a₁ : Allocation} {k k' : Kind} {u : Unit}
  {x y : Expr} {l : Lowered} {dst : Reg}

/-- Releases of temporaries keep the discipline; what else is live stays live. -/
theorem releaseAll_follows {keep : Option Reg} (htracks : Accounts s a)
    (hlive : ∀ t ∈ temps xs, a t.id = some t.kind ∨ a t.id = none)
    (h : (releaseAll keep xs).Ends s u s') :
    ∃ a', Follows s a s' a' ∧ (∀ t ∈ temps xs, some t ≠ keep → a' t.id = none) ∧
      ∀ i, (∀ t ∈ temps xs, some t ≠ keep → t.id ≠ i) → a' i = a i := by
  induction xs generalizing s a with
  | nil =>
      obtain ⟨-, rfl⟩ := Lower.ends_pure.1 h
      exact ⟨a, .refl htracks, by simp [temps], fun _ _ => rfl⟩
  | cons x xs ih =>
      rw [releaseAll, Lower.ends_bind] at h
      obtain ⟨_, s₁, hx, hxs⟩ := h
      cases htemp : x.temp with
      | none =>
          have htemps : temps (x :: xs) = temps xs := by simp [temps, htemp]
          rw [release, htemp] at hx
          obtain ⟨-, rfl⟩ := Lower.ends_pure.1 hx
          rw [htemps] at hlive ⊢
          exact ih htracks hlive hxs
      | some t =>
          have htemps : temps (x :: xs) = t :: temps xs := by simp [temps, htemp]
          rw [release, htemp] at hx
          rw [htemps] at hlive ⊢
          simp only [List.mem_cons, forall_eq_or_imp] at hlive ⊢
          by_cases hkeep : some t = keep
          · simp only [hkeep, if_true] at hx
            obtain ⟨-, rfl⟩ := Lower.ends_pure.1 hx
            obtain ⟨a', hfollows, hgone, hother⟩ := ih htracks hlive.2 hxs
            exact ⟨a', hfollows, ⟨fun hne => absurd hkeep hne, hgone⟩,
              fun i hi => hother i hi.2⟩
          · simp only [hkeep, if_false] at hx
            obtain rfl := Lower.ends_free.1 hx
            have hfree := Follows.free htracks hlive.1
            have hrest : ∀ u ∈ temps xs, Function.update a t.id none u.id = some u.kind ∨
                Function.update a t.id none u.id = none := by
              intro u hu
              by_cases heq : u.id = t.id
              · rw [heq, Function.update_self]
                exact .inr rfl
              · rw [Function.update_of_ne heq]
                exact hlive.2 u hu
            obtain ⟨a', hfollows, hgone, hother⟩ := ih hfree.tracks hrest hxs
            refine ⟨a', hfree.trans hfollows, ⟨fun _ => ?_, hgone⟩, fun i hi => ?_⟩
            · by_cases hsame : ∃ u ∈ temps xs, some u ≠ keep ∧ u.id = t.id
              · obtain ⟨u, hu, hne, heq⟩ := hsame
                rw [← heq, hgone u hu hne]
              · rw [hother t.id fun u hu hne heq => hsame ⟨u, hu, hne, heq⟩, Function.update_self]
            · rw [hother i hi.2, Function.update_of_ne (hi.1 hkeep).symm]

/-- **An instruction into a destination**: one of the temporaries of its operands, or a new
register, which is then the only one that has become live. -/
theorem finish_follows {instr : Nat → Instr} (htaken : Taken xs a a₁) (htracks : Accounts s₁ a₁)
    (hobeys : ∀ (b : Allocation) (id : Nat), (∀ i kind, a₁ i = some kind → b i = some kind) →
      b id = some k → (instr id).Obeys b ∧ (instr id).after b = b)
    (h : (finish xs k instr).Ends s₁ dst s') :
    dst.kind = k ∧ a dst.id = none ∧
      Follows s₁ a₁ s' (Function.update a dst.id (some k)) := by
  simp only [finish, Lower.ends_bind, Lower.ends_emit, Lower.ends_pure] at h
  obtain ⟨dst, s₂, hdst, _, s₃, rfl, _, s₄, hrelease, rfl, rfl⟩ := h
  obtain ⟨hkind, hcases⟩ := destination_spec hdst
  -- the destination is live when the instruction is written, besides the temporaries
  have hready : ∃ a₂, Follows s₁ a₁ s₂ a₂ ∧ a₂ dst.id = some k ∧ a dst.id = none ∧
      (∀ i kind, a₁ i = some kind → a₂ i = some kind) ∧ ∀ i, i ≠ dst.id → a₂ i = a₁ i := by
    rcases hcases with ⟨hmem, rfl⟩ | halloc
    · exact ⟨a₁, .refl htracks, by rw [htaken.temp dst hmem, hkind], htaken.fresh dst hmem,
        fun _ _ hi => hi, fun _ _ => rfl⟩
    · obtain ⟨-, hnone, hfollows⟩ := Follows.alloc htracks halloc
      refine ⟨_, hfollows, Function.update_self .., ?_, Allocation.keeps_update hnone _,
        fun i hi => Function.update_of_ne hi ..⟩
      cases ha : a dst.id with
      | none => rfl
      | some kind =>
          rw [htaken.keeps ha] at hnone
          cases hnone
  obtain ⟨a₂, hfollows, hself, hnone, hkeeps, hother⟩ := hready
  obtain ⟨hinstr, hafter⟩ := hobeys a₂ dst.id hkeeps hself
  have hlive : ∀ t ∈ temps xs, a₂ t.id = some t.kind ∨ a₂ t.id = none := fun t ht =>
    .inl (hkeeps t.id t.kind (htaken.temp t ht))
  obtain ⟨a₃, hreleased, hgone, hrest⟩ :=
    releaseAll_follows (Follows.push hfollows.tracks hinstr hafter).tracks hlive hrelease
  have hlast : a₃ = Function.update a dst.id (some k) := by
    funext i
    by_cases hi : i = dst.id
    · subst hi
      rw [Function.update_self, hrest dst.id fun t ht hne heq => hne ?_, hself]
      have hkinds := htaken.temp t ht
      rw [heq] at hkinds
      have hsome := hkeeps dst.id t.kind hkinds
      rw [hself, ← hkind] at hsome
      obtain ⟨id, kind⟩ := t
      obtain ⟨id', kind'⟩ := dst
      simp only [Option.some.injEq] at hsome heq
      rw [heq, hsome]
    · rw [Function.update_of_ne hi]
      by_cases htemp : ∃ t ∈ temps xs, t.id = i
      · obtain ⟨t, ht, rfl⟩ := htemp
        have hne : some t ≠ some dst := fun heq => hi (by rw [Option.some.inj heq])
        rw [hgone t ht hne, htaken.fresh t ht]
      · rw [hrest i fun t ht _ heq => htemp ⟨t, ht, heq⟩, hother i hi,
          htaken.other i fun t ht heq => htemp ⟨t, ht, heq⟩]
  rw [← hlast]
  exact ⟨hkind, hnone,
    hfollows.trans ((Follows.push hfollows.tracks hinstr hafter).trans hreleased)⟩

/-! ### Expressions -/

/-- An expression of a kind over live registers: all its leaves have that kind, but for the counts
of shifts, each of which has a kind of its own. -/
def Expr.Uniform (a : Allocation) : Kind → Expr → Prop
  | k, imm c => c.kind = k
  | k, reg r => r.kind = k ∧ a r.id = some k
  | k, unary _ x => x.Uniform a k
  | k, binary op x y => op.isComparison = false ∧ x.Uniform a k ∧
      ∃ k', y.Uniform a k' ∧ (op.isShift = false → k' = k)

/-- An expression of a kind. -/
theorem Expr.Uniform.kind_eq {e : Expr} (h : e.Uniform a k) : e.kind = k := by
  induction e with
  | imm c => exact h
  | reg r => exact h.1
  | unary op x ih => exact ih h
  | binary op x y ihx _ => simp [kind, h.1, ihx h.2.1]

/-- Registers that become live do not matter. -/
theorem Expr.Uniform.mono {e : Expr} {b : Allocation} (h : e.Uniform a k)
    (hle : ∀ i kind, a i = some kind → b i = some kind) : e.Uniform b k := by
  induction e generalizing k with
  | imm c => exact h
  | reg r => exact ⟨h.1, hle r.id k h.2⟩
  | unary op x ih => exact ih h
  | binary op x y ihx ihy =>
      obtain ⟨hop, hx, k', hy, hkind⟩ := h
      exact ⟨hop, ihx hx, k', ihy hy, hkind⟩

/-- The temporary that holds a result is the one register that has become live. -/
theorem takes_update (hkind : dst.kind = k) (hnone : a dst.id = none) :
    (Lowered.mk (.reg dst.id) (some dst)).Takes k a (Function.update a dst.id (some k)) := by
  refine ⟨⟨fun t ht => ?_, fun t ht => ?_, fun i hi => ?_⟩, Function.update_self .., fun t ht => ?_⟩
  · obtain rfl := Option.some.inj ((Operands.mem_temps_single _ t).1 ht)
    rw [Function.update_self, hkind]
  · obtain rfl := Option.some.inj ((Operands.mem_temps_single _ t).1 ht)
    exact hnone
  · have hne : dst.id ≠ i := hi dst ((Operands.mem_temps_single _ dst).2 rfl)
    rw [Function.update_of_ne hne.symm]
  · obtain rfl := Option.some.inj ht
    exact hkind

/-- A leaf needs no temporary. -/
theorem takes_leaf {o : Operand} (h : o.HasKind a k) : (Lowered.mk o none).Takes k a a :=
  ⟨⟨by simp [temps], by simp [temps], fun _ _ => rfl⟩, h, by simp⟩

/-- **Lowering keeps the discipline.** -/
theorem lower_follows (e : Expr) (htracks : Accounts s a) (huniform : e.Uniform a k)
    (h : (lower e).Ends s l s') : ∃ a', Follows s a s' a' ∧ l.Takes k a a' := by
  induction e generalizing s s' a k l with
  | imm c =>
      obtain ⟨rfl, rfl⟩ := Lower.ends_pure.1 h
      exact ⟨a, .refl htracks, takes_leaf huniform⟩
  | reg r =>
      obtain ⟨rfl, rfl⟩ := Lower.ends_pure.1 h
      exact ⟨a, .refl htracks, takes_leaf huniform.2⟩
  | unary op x ih =>
      have hkind : (Expr.unary op x).kind = k := huniform.kind_eq
      rw [lower_unary, hkind] at h
      simp only [Lower.ends_bind, Lower.ends_require, Lower.ends_pure] at h
      obtain ⟨_, _, ⟨-, rfl⟩, m, s₁, hx, dst, s₂, hfinish, rfl, rfl⟩ := h
      obtain ⟨a₁, hfollows, htakes⟩ := ih htracks huniform hx
      have hobeys (b : Allocation) (id : Nat)
          (hle : ∀ i kind, a₁ i = some kind → b i = some kind) (hid : b id = some k) :
          (Instr.unary op m.operand id).Obeys b ∧ (Instr.unary op m.operand id).after b = b :=
        ⟨⟨k, hid, htakes.operand.mono hle⟩, rfl⟩
      obtain ⟨hdst, hnone, hlast⟩ := finish_follows htakes.toTaken hfollows.tracks hobeys hfinish
      exact ⟨_, hfollows.trans hlast, takes_update hdst hnone⟩
  | binary op x y ihx ihy =>
      have hkind : (Expr.binary op x y).kind = k := huniform.kind_eq
      rw [lower_binary, hkind] at h
      simp only [Lower.ends_bind, Lower.ends_require, Lower.ends_pure] at h
      obtain ⟨_, _, ⟨-, rfl⟩, m, s₁, hx, n, s₂, hy, dst, s₃, hfinish, rfl, rfl⟩ := h
      obtain ⟨-, hxu, k', hyu, hcount⟩ := huniform
      obtain ⟨a₁, hfollows, htakes⟩ := ihx htracks hxu hx
      obtain ⟨a₂, hfollows', htakes'⟩ := ihy hfollows.tracks (hyu.mono fun _ _ => htakes.keeps) hy
      have hobeys (b : Allocation) (id : Nat)
          (hle : ∀ i kind, a₂ i = some kind → b i = some kind) (hid : b id = some k) :
          (Instr.binary op m.operand n.operand id).Obeys b ∧
            (Instr.binary op m.operand n.operand id).after b = b :=
        ⟨⟨k, hid, (htakes.operand.mono fun _ _ => htakes'.keeps).mono hle, k',
          htakes'.operand.mono hle, hcount⟩, rfl⟩
      obtain ⟨hdst, hnone, hlast⟩ :=
        finish_follows (Taken.pair htakes htakes') hfollows'.tracks hobeys hfinish
      exact ⟨_, hfollows.trans (hfollows'.trans hlast), takes_update hdst hnone⟩

/-! ### Statements -/

/-- **The last instruction of a statement** comes after its operands, whose temporaries are released
after it. -/
theorem emit_follows {i : Instr} (htaken : Taken xs a a₁) (htracks : Accounts s₁ a₁)
    (hobeys : i.Obeys a₁) (hafter : i.after a₁ = a₁)
    (h : (do emit i; releaseAll none xs : Lower Unit).Ends s₁ u s') : Follows s₁ a₁ s' a := by
  simp only [Lower.ends_bind, Lower.ends_emit] at h
  obtain ⟨_, s₂, rfl, hrelease⟩ := h
  have hpush := Follows.push htracks hobeys hafter
  obtain ⟨a₂, hfollows, hgone, hother⟩ :=
    releaseAll_follows hpush.tracks (fun t ht => .inl (htaken.temp t ht)) hrelease
  have hlast : a₂ = a := by
    funext i
    by_cases htemp : ∃ t ∈ temps xs, t.id = i
    · obtain ⟨t, ht, rfl⟩ := htemp
      rw [hgone t ht (by simp), htaken.fresh t ht]
    · have hne : ∀ t ∈ temps xs, t.id ≠ i := fun t ht heq => htemp ⟨t, ht, heq⟩
      rw [hother i fun t ht _ => hne t ht, htaken.other i hne]
  rw [← hlast]
  exact hpush.trans hfollows

/-- **An assignment** keeps the discipline and leaves the same registers live. -/
theorem assign_follows {e : Expr} (htracks : Accounts s a) (huniform : e.Uniform a k)
    (hdst : a dst.id = some k) (h : (assign e dst).Ends s u s') : Follows s a s' a := by
  cases e with
  | imm c =>
      obtain rfl := Lower.ends_emit.1 h
      exact .push htracks ⟨dst.id, k, rfl, hdst, huniform⟩ rfl
  | reg r =>
      obtain rfl := Lower.ends_emit.1 h
      exact .push htracks ⟨dst.id, k, rfl, hdst, huniform.2⟩ rfl
  | unary op x =>
      rw [assign_unary, Lower.ends_bind] at h
      obtain ⟨_, _, hrequire, h⟩ := h
      obtain ⟨-, rfl⟩ := Lower.ends_require.1 hrequire
      obtain ⟨m, s₁, hx, h⟩ := Lower.ends_bind.1 h
      obtain ⟨a₁, hfollows, htakes⟩ := lower_follows x htracks huniform hx
      have hobeys : (Instr.unary op m.operand dst.id).Obeys a₁ :=
        ⟨k, htakes.keeps hdst, htakes.operand⟩
      exact hfollows.trans (emit_follows htakes.toTaken hfollows.tracks hobeys rfl h)
  | binary op x y =>
      rw [assign_binary, Lower.ends_bind] at h
      obtain ⟨_, _, hrequire, h⟩ := h
      obtain ⟨-, rfl⟩ := Lower.ends_require.1 hrequire
      obtain ⟨m, s₁, hx, h⟩ := Lower.ends_bind.1 h
      obtain ⟨n, s₂, hy, h⟩ := Lower.ends_bind.1 h
      obtain ⟨-, hxu, k', hyu, hcount⟩ := huniform
      obtain ⟨a₁, hfollows, htakes⟩ := lower_follows x htracks hxu hx
      obtain ⟨a₂, hfollows', htakes'⟩ :=
        lower_follows y hfollows.tracks (hyu.mono fun _ _ => htakes.keeps) hy
      have htaken := Taken.pair htakes htakes'
      have hobeys : (Instr.binary op m.operand n.operand dst.id).Obeys a₂ :=
        ⟨k, htaken.keeps hdst, htakes.operand.mono fun _ _ => htakes'.keeps, k',
          htakes'.operand, hcount⟩
      exact hfollows.trans (hfollows'.trans (emit_follows htaken hfollows'.tracks hobeys rfl h))

/-- **A step** keeps the discipline. -/
theorem adjust_follows {op : Adjust} (htracks : Accounts s a) (hdst : a dst.id = some k)
    (h : (adjust op dst).Ends s u s') : Follows s a s' a := by
  simp only [adjust, Lower.ends_bind, Lower.ends_require, Lower.ends_emit] at h
  obtain ⟨_, _, ⟨-, rfl⟩, rfl⟩ := h
  exact .push htracks ⟨dst.id, k, rfl, hdst⟩ rfl

/-- **An update** keeps the discipline: what it applies has the kind of the register, or is the count
of a shift. -/
theorem update_follows {op : BinaryOp} {inst : Update} {e : Expr}
    (hinst : Update.ofOp? op = some inst) (htracks : Accounts s a) (huniform : e.Uniform a k')
    (hcount : op.isShift = false → k' = k) (hdst : a dst.id = some k)
    (h : (update inst e dst).Ends s u s') : Follows s a s' a := by
  have hop := Update.ofOp?_eq_some_iff.1 hinst
  have hne : inst ≠ .assign := by
    rintro rfl
    cases hop
  rw [update, if_neg hne, Lower.ends_bind] at h
  obtain ⟨_, _, hrequire, h⟩ := h
  obtain ⟨-, rfl⟩ := Lower.ends_require.1 hrequire
  obtain ⟨m, s₁, hsrc, h⟩ := Lower.ends_bind.1 h
  obtain ⟨a₁, hfollows, htakes⟩ := lower_follows e htracks huniform hsrc
  have hobeys : (Instr.update inst m.operand (.reg dst.id)).Obeys a₁ := by
    refine ⟨dst.id, k, rfl, htakes.keeps hdst, ?_⟩
    rw [hop]
    exact ⟨k', htakes.operand, hcount⟩
  rw [← bind_pure_unit (x := release m none)] at h
  exact hfollows.trans (emit_follows htakes.toTaken hfollows.tracks hobeys rfl h)

end

end ScriptCore.Registers
