import Mathlib.Logic.Function.Basic
import ScriptCore.Proofs.Registers.Refusal

/-!
# Lowered code under any interpretation

Lowering does not look at what the operations compute.  So its code can be given any meaning: the
operations are arbitrary functions of what the operands hold, an assignment copies, and an
allocation or a release may leave anything in its register.

Under every such interpretation

* the code of a lowered expression leaves the value of the expression in the operand that is
  returned (`lower_denotes`), because an instruction reads its operands before it writes its
  destination and nothing is written to a temporary that is still needed;
* registers that were in use before hold what they held, because temporaries are taken from those
  that are not in use;
* a statement leaves its result in its destination, which may occur in the expression itself, and
  the same registers in use (`statements_compute`).
-/

namespace ScriptCore.Registers

/-- What registers hold. -/
abbrev Contents (V : Type) := Nat → V

/-- A meaning of register code.  The last two fields say what an allocation and a release leave in
their register. -/
structure Interpretation (V : Type) where
  imm : Imm → V
  unary : Unary → V → V
  binary : BinaryOp → V → V → V
  adjust : Adjust → V → V
  update : Update → V → V → V
  fresh : Reg → V → V
  spent : Reg → V → V

namespace Interpretation

variable {V : Type} (I : Interpretation V)

/-- What an update makes of the old contents of a register and a value; an assignment copies. -/
def updated : Update → V → V → V
  | .assign, _, v => v
  | op, old, v => I.update op old v

/-- What an operand holds. -/
def operand (ρ : Contents V) : Operand → V
  | .reg id => ρ id
  | .imm c => I.imm c

/-- The value of an expression. -/
def value (ρ : Contents V) : Expr → V
  | .imm c => I.imm c
  | .reg r => ρ r.id
  | .unary op x => I.unary op (value ρ x)
  | .binary op x y => I.binary op (value ρ x) (value ρ y)

/-- What registers hold after an instruction. -/
def step (ρ : Contents V) : Instr → Contents V
  | .unary op src dst => Function.update ρ dst (I.unary op (I.operand ρ src))
  | .binary op a b dst => Function.update ρ dst (I.binary op (I.operand ρ a) (I.operand ρ b))
  | .adjust .nop _ => ρ
  | .adjust op (.reg dst) => Function.update ρ dst (I.adjust op (ρ dst))
  | .update op src (.reg dst) => Function.update ρ dst (I.updated op (ρ dst) (I.operand ρ src))
  | .adjust _ (.imm _) | .update _ _ (.imm _) => ρ
  | .alloc reg => Function.update ρ reg.id (I.fresh reg (ρ reg.id))
  | .free reg => Function.update ρ reg.id (I.spent reg (ρ reg.id))

/-- What registers hold after instructions. -/
def run (is : List Instr) (ρ : Contents V) : Contents V :=
  is.foldl I.step ρ

/-- Instructions run one part after the other. -/
theorem run_append (is js : List Instr) (ρ : Contents V) :
    I.run (is ++ js) ρ = I.run js (I.run is ρ) :=
  List.foldl_append

/-- Instructions without effect leave the registers alone. -/
theorem step_void {i : Instr} (h : i.isVoid = true) (ρ : Contents V) : I.step ρ i = ρ := by
  cases i with
  | adjust op dst =>
      cases op <;> first | rfl | cases h
  | update op src dst =>
      cases op <;> try cases h
      obtain rfl : src = dst := by simpa [Instr.isVoid] using h
      cases src with
      | reg id => exact Function.update_eq_self id ρ
      | imm c => rfl
  | _ => cases h

/-- Instructions without effect can be left out. -/
theorem run_filter (is : List Instr) (ρ : Contents V) :
    I.run (is.filter fun i => !i.isVoid) ρ = I.run is ρ := by
  induction is generalizing ρ with
  | nil => rfl
  | cons i is ih =>
      cases hvoid : i.isVoid with
      | true =>
          rw [List.filter_cons_of_neg (by simp [hvoid]), ih]
          exact congrArg (I.run is) (I.step_void hvoid ρ).symm
      | false =>
          rw [List.filter_cons_of_pos (by simp [hvoid])]
          exact ih (I.step ρ i)

/-- A release leaves all registers alone but its own. -/
theorem run_releases {is : List Instr} {id : Nat}
    (h : ∀ i ∈ is, ∃ t : Reg, i = .free t ∧ t.id ≠ id) (ρ : Contents V) :
    I.run is ρ id = ρ id := by
  induction is generalizing ρ with
  | nil => rfl
  | cons i is ih =>
      obtain ⟨t, rfl, hne⟩ := h i List.mem_cons_self
      have hrest := ih (fun j hj => h j (List.mem_cons_of_mem _ hj)) (I.step ρ (.free t))
      exact hrest.trans (Function.update_of_ne hne.symm ..)

/-- An operand holds the same where its register does. -/
theorem operand_congr {ρ ρ' : Contents V} {o : Operand} (h : ∀ id, o = .reg id → ρ' id = ρ id) :
    I.operand ρ' o = I.operand ρ o := by
  cases o with
  | reg id => exact h id rfl
  | imm c => rfl

/-- The value of an expression is kept where its registers are. -/
theorem value_congr {s : Lowering} {ρ ρ' : Contents V} (h : ∀ i, s.isLive i = true → ρ' i = ρ i)
    {e : Expr} (hlive : e.Live s) : I.value ρ' e = I.value ρ e := by
  induction e with
  | imm c => rfl
  | reg r => exact h r.id hlive
  | unary op x ih => rw [value, value, ih hlive]
  | binary op x y ihx ihy => rw [value, value, ihx hlive.1, ihy hlive.2]

end Interpretation

/-! ### The shape of lowered code -/

/-- Releases write nothing else, and release temporaries only. -/
theorem releaseAll_code {xs : List Lowered} {keep : Option Reg} {s s' : Lowering} {u : Unit}
    (h : (releaseAll keep xs).Ends s u s') :
    ∃ is, s'.code = s.code.pushAll is ∧ ∀ i ∈ is, ∃ t ∈ temps xs, some t ≠ keep ∧ i = .free t := by
  induction xs generalizing s with
  | nil =>
      obtain ⟨-, rfl⟩ := Lower.ends_pure.1 h
      exact ⟨[], rfl, by simp⟩
  | cons x xs ih =>
      rw [releaseAll, Lower.ends_bind] at h
      obtain ⟨_, s₁, hx, hxs⟩ := h
      obtain ⟨is, hcode, his⟩ := ih hxs
      have hsub : ∀ t ∈ temps xs, t ∈ temps (x :: xs) := by
        intro t ht
        cases hx : x.temp <;> simp [temps, hx] at ht ⊢ <;> simp [ht]
      have hrest : ∀ i ∈ is, ∃ t ∈ temps (x :: xs), some t ≠ keep ∧ i = .free t := by
        intro i hi
        obtain ⟨t, ht, hkeep, hfree⟩ := his i hi
        exact ⟨t, hsub t ht, hkeep, hfree⟩
      cases htemp : x.temp with
      | none =>
          rw [release, htemp] at hx
          obtain ⟨-, rfl⟩ := Lower.ends_pure.1 hx
          exact ⟨is, hcode, hrest⟩
      | some t =>
          rw [release, htemp] at hx
          by_cases hkeep : some t = keep
          · simp only [hkeep, if_true] at hx
            obtain ⟨-, rfl⟩ := Lower.ends_pure.1 hx
            exact ⟨is, hcode, hrest⟩
          · simp only [hkeep, if_false] at hx
            obtain rfl := Lower.ends_free.1 hx
            by_cases hlive : s.isLive t.id = true
            · have hfree : (s.free t).code = s.code.push (.free t) := by
                rw [Lowering.free, if_pos hlive]
              refine ⟨.free t :: is, by rw [hcode, hfree]; rfl, ?_⟩
              intro i hi
              rcases List.mem_cons.1 hi with rfl | hi
              · exact ⟨t, by simp [temps, htemp], hkeep, rfl⟩
              · exact hrest i hi
            · have hfree : s.free t = s := by rw [Lowering.free, if_neg hlive]
              rw [hfree] at hcode
              exact ⟨is, hcode, hrest⟩

/-- An instruction into a destination comes after the allocation of the destination, unless that is
one of the temporaries, and before the release of the other temporaries. -/
theorem finish_code {xs : List Lowered} {kind : Kind} {instr : Nat → Instr} {s s' : Lowering}
    {dst : Reg} (h : (finish xs kind instr).Ends s dst s') :
    ∃ before after, s'.code = s.code.pushAll (before ++ instr dst.id :: after) ∧
      (before = [] ∧ dst ∈ temps xs ∨ before = [.alloc dst] ∧ s.isLive dst.id = false) ∧
      ∀ i ∈ after, ∃ t ∈ temps xs, t ≠ dst ∧ i = .free t := by
  simp only [finish, Lower.ends_bind, Lower.ends_emit, Lower.ends_pure] at h
  obtain ⟨dst, s₁, hdst, _, s₂, rfl, _, s₃, hrelease, rfl, rfl⟩ := h
  obtain ⟨after, hcode, hafter⟩ := releaseAll_code hrelease
  have hother : ∀ i ∈ after, ∃ t ∈ temps xs, t ≠ dst ∧ i = .free t := by
    intro i hi
    obtain ⟨t, ht, hne, hfree⟩ := hafter i hi
    exact ⟨t, ht, fun heq => hne (congrArg some heq), hfree⟩
  rcases (destination_spec hdst).2 with ⟨hmem, rfl⟩ | halloc
  · exact ⟨[], after, hcode, .inl ⟨rfl, hmem⟩, hother⟩
  · obtain ⟨hreg, hs₁⟩ := Prod.ext_iff.1 halloc
    dsimp only at hreg hs₁
    have hwritten : s₁.code = s.code.push (.alloc dst) := by rw [← hs₁, ← hreg]; rfl
    refine ⟨[.alloc dst], after, ?_, .inr ⟨rfl, ?_⟩, hother⟩
    · rw [hcode, Lowering.push, hwritten]
      rfl
    · rw [← hreg]
      exact s.alloc_fresh kind

/-! ### Expressions -/

/-- Under every interpretation, code leaves the value of an expression in an operand, and the
registers in use as they are. -/
structure Denotes (is : List Instr) (s : Lowering) (o : Operand) (e : Expr) : Prop where
  value : ∀ {V : Type} (I : Interpretation V) (ρ : Contents V),
    I.operand (I.run is ρ) o = I.value ρ e
  keeps : ∀ {V : Type} (I : Interpretation V) (ρ : Contents V) (i : Nat),
    s.isLive i = true → I.run is ρ i = ρ i

/-- An instruction that computes the value of an expression from operands in use puts it into the
destination: the allocation does not touch the operands, nor do the releases touch the result. -/
theorem finish_denotes {xs : List Lowered} {kind : Kind} {instr : Nat → Instr}
    {s s₁ s' : Lowering} {dst : Reg} {is : List Instr} {e : Expr} (hops : Operands xs s s₁)
    (hcode : s₁.code = s.code.pushAll is)
    (hkeeps : ∀ {V : Type} (I : Interpretation V) (ρ : Contents V) (i : Nat),
      s.isLive i = true → I.run is ρ i = ρ i)
    (hinstr : ∀ {V : Type} (I : Interpretation V) (ρ ρ' : Contents V) (id : Nat),
      (∀ i, s₁.isLive i = true → ρ' i = I.run is ρ i) →
        I.step ρ' (instr id) = Function.update ρ' id (I.value ρ e))
    (h : (finish xs kind instr).Ends s₁ dst s') :
    ∃ is', s'.code = s.code.pushAll is' ∧ Denotes is' s (.reg dst.id) e := by
  obtain ⟨before, after, hcode', hbefore, hafter⟩ := finish_code h
  -- the destination is in use neither before nor, unless it is a temporary, after the operands
  have hdst : ∀ t ∈ temps xs, t ≠ dst → t.id ≠ dst.id := by
    intro t ht hne hid
    rcases hbefore with ⟨-, hmem⟩ | ⟨-, hfree⟩
    · exact hne (hops.apart t ht dst hmem hid)
    · rw [← hid, hops.temps_live t ht] at hfree
      cases hfree
  have hnew : ∀ i, s.isLive i = true → i ≠ dst.id := by
    rintro i hi rfl
    rcases hbefore with ⟨-, hmem⟩ | ⟨-, hfree⟩
    · rw [hops.fresh dst hmem] at hi
      cases hi
    · rw [(hops.live dst.id).2 (.inl hi)] at hfree
      cases hfree
  have hready : ∀ {V : Type} (I : Interpretation V) (ρ : Contents V) (i : Nat),
      s₁.isLive i = true → I.run before ρ i = ρ i := by
    intro V I ρ i hi
    rcases hbefore with ⟨rfl, -⟩ | ⟨rfl, hfree⟩
    · rfl
    · refine Function.update_of_ne ?_ ..
      rintro rfl
      rw [hfree] at hi
      cases hi
  have hrun : ∀ {V : Type} (I : Interpretation V) (ρ : Contents V),
      I.run (is ++ (before ++ instr dst.id :: after)) ρ = I.run after
        (Function.update (I.run before (I.run is ρ)) dst.id (I.value ρ e)) := by
    intro V I ρ
    rw [I.run_append, I.run_append, ← hinstr I ρ _ dst.id fun i hi => hready I _ i hi]
    rfl
  refine ⟨is ++ (before ++ instr dst.id :: after), ?_, fun I ρ => ?_, fun I ρ i hi => ?_⟩
  · rw [hcode', hcode, ← Stream.pushAll_append]
  · rw [hrun, Interpretation.operand, I.run_releases, Function.update_self]
    intro i hi
    obtain ⟨t, ht, hne, rfl⟩ := hafter i hi
    exact ⟨t, rfl, hdst t ht hne⟩
  · rw [hrun, I.run_releases, Function.update_of_ne (hnew i hi),
      hready I _ i ((hops.live i).2 (.inl hi)), hkeeps I ρ i hi]
    intro j hj
    obtain ⟨t, ht, -, rfl⟩ := hafter j hj
    refine ⟨t, rfl, ?_⟩
    rintro rfl
    rw [hops.fresh t ht] at hi
    cases hi

/-- Two operands are lowered one after the other; the second leaves the first one alone. -/
theorem pair_denotes (op : BinaryOp) {x y : Expr} {s s₁ s₂ : Lowering} {a b : Lowered}
    {is js : List Instr} (hfits : a.Fits s s₁ x.kind) (hfits' : b.Fits s₁ s₂ y.kind)
    (hx : Denotes is s a.operand x) (hy : Denotes js s₁ b.operand y) (hlive : y.Live s) :
    (∀ {V : Type} (I : Interpretation V) (ρ : Contents V) (i : Nat),
      s.isLive i = true → I.run (is ++ js) ρ i = ρ i) ∧
    ∀ {V : Type} (I : Interpretation V) (ρ ρ' : Contents V) (id : Nat),
      (∀ i, s₂.isLive i = true → ρ' i = I.run (is ++ js) ρ i) →
        I.step ρ' (.binary op a.operand b.operand id) =
          Function.update ρ' id (I.value ρ (.binary op x y)) := by
  refine ⟨fun I ρ i hi => ?_, fun I ρ ρ' id hρ => ?_⟩
  · rw [I.run_append, hy.keeps I _ i ((hfits.live i).2 (.inl hi)), hx.keeps I ρ i hi]
  · have hfirst : I.operand ρ' a.operand = I.value ρ x := by
      rw [← hx.value I ρ]
      refine I.operand_congr fun id hid => ?_
      have hlive₁ := hfits.operand_live id hid
      rw [hρ id ((hfits'.live id).2 (.inl hlive₁)), I.run_append, hy.keeps I _ id hlive₁]
    have hsecond : I.operand ρ' b.operand = I.value ρ y := by
      rw [← I.value_congr (hx.keeps I ρ) hlive, ← hy.value I (I.run is ρ)]
      refine I.operand_congr fun id hid => ?_
      rw [hρ id (hfits'.operand_live id hid), I.run_append]
    rw [Interpretation.step, hfirst, hsecond, Interpretation.value]

/-- **A lowered expression denotes its value**, whatever the operations mean. -/
theorem lower_denotes (e : Expr) {s s' : Lowering} {l : Lowered} (h : (lower e).Ends s l s')
    (hlive : e.Live s) : ∃ is, s'.code = s.code.pushAll is ∧ Denotes is s l.operand e := by
  induction e generalizing s s' l with
  | imm c =>
      obtain ⟨rfl, rfl⟩ := Lower.ends_pure.1 h
      exact ⟨[], rfl, fun _ _ => rfl, fun _ _ _ _ => rfl⟩
  | reg r =>
      obtain ⟨rfl, rfl⟩ := Lower.ends_pure.1 h
      exact ⟨[], rfl, fun _ _ => rfl, fun _ _ _ _ => rfl⟩
  | unary op x ih =>
      rw [lower_unary] at h
      simp only [Lower.ends_bind, Lower.ends_require, Lower.ends_pure] at h
      obtain ⟨_, _, ⟨-, rfl⟩, a, s₁, hx, dst, s₂, hfinish, rfl, rfl⟩ := h
      have hfits := (lower_spec x hx hlive).1
      obtain ⟨is, hcode, hdenotes⟩ := ih hx hlive
      refine finish_denotes (.single hfits) hcode hdenotes.keeps ?_ hfinish
      intro V I ρ ρ' id hρ
      rw [Interpretation.step, I.operand_congr fun id hid => hρ id (hfits.operand_live id hid),
        hdenotes.value, Interpretation.value]
  | binary op x y ihx ihy =>
      rw [lower_binary] at h
      simp only [Lower.ends_bind, Lower.ends_require, Lower.ends_pure] at h
      obtain ⟨_, _, ⟨-, rfl⟩, a, s₁, hx, b, s₂, hy, dst, s₃, hfinish, rfl, rfl⟩ := h
      have hfits := (lower_spec x hx hlive.1).1
      have hlive' : y.Live s₁ := hlive.2.mono fun i hi => (hfits.live i).2 (.inl hi)
      have hfits' := (lower_spec y hy hlive').1
      obtain ⟨is, hcode, hdenotes⟩ := ihx hx hlive.1
      obtain ⟨js, hcode', hdenotes'⟩ := ihy hy hlive'
      have hboth : s₂.code = s.code.pushAll (is ++ js) := by
        rw [hcode', hcode, Stream.pushAll_append]
      obtain ⟨hkeeps, hinstr⟩ := pair_denotes op hfits hfits' hdenotes hdenotes' hlive.2
      exact finish_denotes (.pair hfits hfits') hboth hkeeps hinstr hfinish

/-! ### Statements -/

/-- What a statement has written puts a result into a register, under every interpretation, and
leaves the other registers that were in use alone; the same registers are in use afterwards. -/
structure Performs (s s' : Lowering) (dst : Nat)
    (result : (V : Type) → Interpretation V → Contents V → V) : Prop where
  code : ∃ tokens is, s'.code.tokens = s.code.tokens ++ tokens ∧ decode tokens = some is ∧
    ∀ (V : Type) (I : Interpretation V) (ρ : Contents V), I.run is ρ dst = result V I ρ ∧
      ∀ i, s.isLive i = true → i ≠ dst → I.run is ρ i = ρ i
  live : ∀ i, s'.isLive i = s.isLive i

/-- Tokens that have been appended are read back as the instructions that have an effect. -/
theorem Performs.of_code {s s' : Lowering} {dst : Nat}
    {result : (V : Type) → Interpretation V → Contents V → V} (is : List Instr)
    (hcode : s'.code = s.code.pushAll is)
    (hrun : ∀ (V : Type) (I : Interpretation V) (ρ : Contents V), I.run is ρ dst = result V I ρ ∧
      ∀ i, s.isLive i = true → i ≠ dst → I.run is ρ i = ρ i)
    (hlive : ∀ i, s'.isLive i = true ↔ s.isLive i = true) : Performs s s' dst result := by
  refine ⟨⟨(is.filter fun i => !i.isVoid).flatMap Instr.encode, is.filter fun i => !i.isVoid,
    ?_, decode_flatMap_encode _, fun V I ρ => ?_⟩, fun i => Bool.eq_iff_iff.2 (hlive i)⟩
  · rw [hcode, Stream.pushAll_tokens]
  · rw [I.run_filter]
    exact hrun V I ρ

/-- The last instruction of a statement comes after its operands and before releases. -/
theorem emit_performs {xs : List Lowered} {i : Instr} {s s₁ s' : Lowering} {u : Unit} {dst : Nat}
    {is : List Instr} {result : (V : Type) → Interpretation V → Contents V → V}
    (hops : Operands xs s s₁) (hcode : s₁.code = s.code.pushAll is) (hdst : s.isLive dst = true)
    (hkeeps : ∀ {V : Type} (I : Interpretation V) (ρ : Contents V) (i : Nat),
      s.isLive i = true → I.run is ρ i = ρ i)
    (hinstr : ∀ {V : Type} (I : Interpretation V) (ρ : Contents V),
      I.step (I.run is ρ) i = Function.update (I.run is ρ) dst (result V I ρ))
    (h : (do emit i; releaseAll none xs : Lower Unit).Ends s₁ u s') :
    Performs s s' dst result := by
  obtain ⟨-, ⟨-, hlive⟩, -⟩ := emit_writes hops hcode h
  simp only [Lower.ends_bind, Lower.ends_emit] at h
  obtain ⟨_, s₂, rfl, hrelease⟩ := h
  obtain ⟨after, hcode', hafter⟩ := releaseAll_code hrelease
  have hspared : ∀ id, s.isLive id = true → ∀ j ∈ after, ∃ t : Reg, j = .free t ∧ t.id ≠ id := by
    intro id hid j hj
    obtain ⟨t, ht, -, rfl⟩ := hafter j hj
    refine ⟨t, rfl, ?_⟩
    rintro rfl
    rw [hops.fresh t ht] at hid
    cases hid
  have hrun : ∀ {V : Type} (I : Interpretation V) (ρ : Contents V),
      I.run (is ++ i :: after) ρ =
        I.run after (Function.update (I.run is ρ) dst (result V I ρ)) := by
    intro V I ρ
    rw [I.run_append, ← hinstr]
    rfl
  refine .of_code (is ++ i :: after) ?_ (fun V I ρ => ⟨?_, fun id hid hne => ?_⟩) hlive
  · rw [hcode', Stream.pushAll_append, ← hcode]
    rfl
  · rw [hrun, I.run_releases (hspared dst hdst), Function.update_self]
  · rw [hrun, I.run_releases (hspared id hid), Function.update_of_ne hne, hkeeps I ρ id hid]

/-- **An assignment** leaves the value of the expression in its destination. -/
theorem assign_performs {e : Expr} {dst : Reg} {s s' : Lowering} {u : Unit}
    (h : (assign e dst).Ends s u s') (hlive : e.Live s) (hdst : s.isLive dst.id = true) :
    Performs s s' dst.id fun _ I ρ => I.value ρ e := by
  cases e with
  | imm c =>
      obtain rfl := Lower.ends_emit.1 h
      refine .of_code [.update .assign (.imm c) (.reg dst.id)] rfl (fun V I ρ => ?_)
        fun _ => Iff.rfl
      exact ⟨Function.update_self .., fun _ _ hne => Function.update_of_ne hne ..⟩
  | reg r =>
      obtain rfl := Lower.ends_emit.1 h
      refine .of_code [.update .assign (.reg r.id) (.reg dst.id)] rfl (fun V I ρ => ?_)
        fun _ => Iff.rfl
      exact ⟨Function.update_self .., fun _ _ hne => Function.update_of_ne hne ..⟩
  | unary op x =>
      rw [assign_unary, Lower.ends_bind] at h
      obtain ⟨_, _, hrequire, h⟩ := h
      obtain ⟨-, rfl⟩ := Lower.ends_require.1 hrequire
      obtain ⟨a, s₁, hx, h⟩ := Lower.ends_bind.1 h
      have hfits := (lower_spec x hx hlive).1
      obtain ⟨is, hcode, hdenotes⟩ := lower_denotes x hx hlive
      refine emit_performs (.single hfits) hcode hdst hdenotes.keeps ?_ h
      intro V I ρ
      rw [Interpretation.step, hdenotes.value, Interpretation.value]
  | binary op x y =>
      rw [assign_binary, Lower.ends_bind] at h
      obtain ⟨_, _, hrequire, h⟩ := h
      obtain ⟨-, rfl⟩ := Lower.ends_require.1 hrequire
      obtain ⟨a, s₁, hx, h⟩ := Lower.ends_bind.1 h
      obtain ⟨b, s₂, hy, h⟩ := Lower.ends_bind.1 h
      have hfits := (lower_spec x hx hlive.1).1
      have hlive' : y.Live s₁ := hlive.2.mono fun i hi => (hfits.live i).2 (.inl hi)
      have hfits' := (lower_spec y hy hlive').1
      obtain ⟨is, hcode, hdenotes⟩ := lower_denotes x hx hlive.1
      obtain ⟨js, hcode', hdenotes'⟩ := lower_denotes y hy hlive'
      have hboth : s₂.code = s.code.pushAll (is ++ js) := by
        rw [hcode', hcode, Stream.pushAll_append]
      obtain ⟨hkeeps, hinstr⟩ := pair_denotes op hfits hfits' hdenotes hdenotes' hlive.2
      exact emit_performs (.pair hfits hfits') hboth hdst hkeeps
        (fun I ρ => hinstr I ρ _ dst.id fun _ _ => rfl) h

/-- **An update** applies an operation to the old contents of its destination and the value of the
expression. -/
theorem update_performs {inst : Update} {e : Expr} {dst : Reg} {s s' : Lowering} {u : Unit}
    (h : (update inst e dst).Ends s u s') (hlive : e.Live s) (hdst : s.isLive dst.id = true) :
    Performs s s' dst.id fun _ I ρ => I.updated inst (ρ dst.id) (I.value ρ e) := by
  by_cases hassign : inst = .assign
  · subst hassign
    rw [update, if_pos rfl] at h
    exact assign_performs h hlive hdst
  · rw [update, if_neg hassign, Lower.ends_bind] at h
    obtain ⟨_, _, hrequire, h⟩ := h
    obtain ⟨-, rfl⟩ := Lower.ends_require.1 hrequire
    obtain ⟨a, s₁, hsrc, h⟩ := Lower.ends_bind.1 h
    have hfits := (lower_spec e hsrc hlive).1
    obtain ⟨is, hcode, hdenotes⟩ := lower_denotes e hsrc hlive
    rw [← bind_pure_unit (x := release a none)] at h
    refine emit_performs (.single hfits) hcode hdst hdenotes.keeps ?_ h
    intro V I ρ
    rw [Interpretation.step, hdenotes.value, hdenotes.keeps I ρ dst.id hdst]

/-- **Lowered statements compute the tree and touch nothing else**, whatever the operations mean.
The destination may occur in the expression.  A statement is lowered exactly if none of its
operations is refused. -/
theorem statements_compute {e : Expr} {s : Lowering} (dst : Reg) (hlive : e.Live s)
    (hdst : s.isLive dst.id = true) :
    ((∃ u s', (assign e dst).run.run s = (.ok u, s')) ↔ e.refusal? = none) ∧
    (∀ s', (assign e dst).run.run s = (.ok (), s') →
      Performs s s' dst.id fun _ I ρ => I.value ρ e) ∧
    ∀ inst, ((∃ u s', (update inst e dst).run.run s = (.ok u, s')) ↔
        inst.accepts dst.kind = true ∧ e.refusal? = none) ∧
      ∀ s', (update inst e dst).run.run s = (.ok (), s') →
        Performs s s' dst.id fun _ I ρ => I.updated inst (ρ dst.id) (I.value ρ e) :=
  ⟨assign_succeeds_iff e dst s, fun _ h => assign_performs h hlive hdst,
    fun inst => ⟨update_succeeds_iff inst e dst s, fun _ h => update_performs h hlive hdst⟩⟩

namespace Sample

/-- Two integer registers and a boolean one in use. -/
def three : Lowering :=
  (((Lowering.empty.alloc .int).2.alloc .int).2.alloc .bool).2

/-- A tree in which every register occurs, two of them twice:
`r2 == ((r0 < r1) == (-r0 < r1 * 3))`. -/
def tree : Expr :=
  .binary .eq (.reg ⟨2, .bool⟩)
    (.binary .eq (.binary .lt (.reg ⟨0, .int⟩) (.reg ⟨1, .int⟩))
      (.binary .lt (.unary .neg (.reg ⟨0, .int⟩))
        (.binary .mul (.reg ⟨1, .int⟩) (.imm (.int 3 .int)))))

/-- The product of a register and its difference from another one: `r0 * (r0 - r1)`. -/
def product : Expr :=
  .binary .mul (.reg ⟨0, .int⟩) (.binary .sub (.reg ⟨0, .int⟩) (.reg ⟨1, .int⟩))

/-- A tree is computed into a register that occurs in it, through temporaries of two kinds, and
another one is added to such a register. -/
theorem three_compute :
    (tree.Live three ∧ product.Live three ∧ three.isLive 2 = true ∧ three.isLive 0 = true) ∧
      Performs three ((assign tree ⟨2, .bool⟩).run.run three).2 2
        (fun _ I ρ => I.value ρ tree) ∧
      Performs three ((update .add product ⟨0, .int⟩).run.run three).2 0
        (fun _ I ρ => I.updated .add (ρ 0) (I.value ρ product)) := by
  have hlive : tree.Live three ∧ product.Live three := by
    simp only [tree, product, Expr.Live]
    decide
  have htree := statements_compute ⟨2, .bool⟩ hlive.1 (by decide)
  have hproduct := statements_compute ⟨0, .int⟩ hlive.2 (by decide)
  exact ⟨⟨hlive.1, hlive.2, by decide, by decide⟩, htree.2.1 _ (by rfl),
    (hproduct.2.2 .add).2 _ (by rfl)⟩

end Sample

end ScriptCore.Registers
