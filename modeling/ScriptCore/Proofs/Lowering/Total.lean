import ScriptCore.Proofs.Straight.Entry

/-!
# Register code is written without errors

The only error of lowering is an operator on a kind of register for which it is not defined.  The
register code of functions keeps integers only, and its operators are those of arithmetic and shifts
and the two that negate an integer or flip its bits; these are defined on all integers.  So lowering
succeeds in every state, whatever has been written before (`Total`), and a function either has
register code or has none.

Main statement: `ofFunc?_ne_error`.
-/

namespace ScriptCore

namespace Registers

/-! ### Expressions -/

/-- The step succeeds in every state. -/
def Lower.Total {α : Type} (step : Lower α) : Prop :=
  ∀ s, ∃ a s', step.Ends s a s'

namespace Lower.Total

variable {α β : Type}

/-- A result without a step. -/
theorem pure (a : α) : Total (Pure.pure a) :=
  fun s => ⟨a, s, rfl⟩

/-- One step after another. -/
theorem bind {step : Lower α} {next : α → Lower β} (h : Total step)
    (hnext : ∀ a, Total (next a)) : Total (step >>= next) := by
  intro s
  obtain ⟨a, s₁, hstep⟩ := h s
  obtain ⟨b, s₂, hlast⟩ := hnext a s₁
  exact ⟨b, s₂, ends_bind.2 ⟨a, s₁, hstep, hlast⟩⟩

/-- An instruction is written. -/
theorem emit (i : Instr) : Total (Registers.emit i) :=
  fun s => ⟨(), s.push i, rfl⟩

/-- A register is allocated. -/
theorem alloc (kind : Kind) : Total (Registers.alloc kind) :=
  fun s => ⟨(s.alloc kind).1, (s.alloc kind).2, rfl⟩

/-- A register is released. -/
theorem free (reg : Reg) : Total (Registers.free reg) :=
  fun s => ⟨(), s.free reg, rfl⟩

/-- What is required holds. -/
theorem require {ok : Bool} (h : ok = true) (op : String) (kind : Kind) :
    Total (Registers.require ok op kind) :=
  fun s => ⟨(), s, ends_require.2 ⟨h, rfl⟩⟩

/-- The temporary of an operand is released or kept. -/
theorem release (x : Lowered) (keep : Option Reg) : Total (Registers.release x keep) := by
  unfold Registers.release
  split
  · split
    · exact .pure ()
    · exact .free _
  · exact .pure ()

/-- There is always a destination. -/
theorem destination (xs : List Lowered) (kind : Kind) :
    Total (Registers.destination xs kind) := by
  unfold Registers.destination
  split
  · exact .pure _
  · exact .alloc kind

end Lower.Total

/-- Expressions over integers with operators that are defined on integers. -/
def Expr.Integral : Expr → Prop
  | imm c => c.kind.isInteger = true
  | reg r => r.kind.isInteger = true
  | unary op x => op ≠ .not ∧ x.Integral
  | binary op x y => (op.isIntArith || op.isShift) = true ∧ x.Integral ∧ y.Integral

/-- Such an expression is an integer. -/
theorem Expr.Integral.isInteger {e : Expr} (h : e.Integral) : e.kind.isInteger = true := by
  induction e with
  | imm c => exact h
  | reg r => exact h
  | unary op x ih => exact ih h.2
  | binary op x y ihx _ =>
      obtain ⟨hop, hx, -⟩ := h
      have hcomparison : op.isComparison = false := by
        revert hop
        cases op <;> decide
      simp [kind, hcomparison, ihx hx]

/-- Negation and complement are defined on integers. -/
theorem Unary.accepts_integer {op : Unary} (hop : op ≠ .not) {k : Kind}
    (hk : k.isInteger = true) : op.accepts k = true := by
  cases op with
  | neg => simp [accepts, Kind.isNumeric, hk]
  | not => exact absurd rfl hop
  | bitNot => exact hk

/-- Arithmetic and shifts are defined on integers. -/
theorem accepts_integer {op : BinaryOp} (hop : (op.isIntArith || op.isShift) = true) {k : Kind}
    (hk : k.isInteger = true) : accepts op k = true := by
  have hnumeric : k.isNumeric = true := by simp [Kind.isNumeric, hk]
  cases op <;> first | exact hk | exact hnumeric | cases hop

/-- **An expression over integers** is lowered in every state. -/
theorem lower_total {e : Expr} (h : e.Integral) : (lower e).Total := by
  induction e with
  | imm c => exact .pure _
  | reg r => exact .pure _
  | unary op x ih =>
      have haccepts := Unary.accepts_integer h.1 h.2.isInteger
      exact (Lower.Total.require haccepts _ _).bind fun _ => (ih h.2).bind fun _ =>
        (Lower.Total.destination _ _).bind fun _ => (Lower.Total.emit _).bind fun _ =>
          (Lower.Total.release _ _).bind fun _ => .pure _
  | binary op x y ihx ihy =>
      obtain ⟨hop, hx, hy⟩ := h
      have haccepts := accepts_integer hop hx.isInteger
      exact (Lower.Total.require haccepts _ _).bind fun _ => (ihx hx).bind fun _ =>
        (ihy hy).bind fun _ => (Lower.Total.destination _ _).bind fun _ =>
          (Lower.Total.emit _).bind fun _ => (Lower.Total.release _ _).bind fun _ =>
            (Lower.Total.release _ _).bind fun _ => .pure _

/-- **An assignment** of an expression over integers. -/
theorem assign_total {e : Expr} (h : e.Integral) (dst : Reg) : (assign e dst).Total := by
  cases e with
  | imm c => exact .emit _
  | reg r => exact .emit _
  | unary op x =>
      have haccepts := Unary.accepts_integer h.1 h.2.isInteger
      exact (Lower.Total.require haccepts _ _).bind fun _ => (lower_total h.2).bind fun _ =>
        (Lower.Total.emit _).bind fun _ => .release _ _
  | binary op x y =>
      obtain ⟨hop, hx, hy⟩ := h
      have haccepts := accepts_integer hop hx.isInteger
      exact (Lower.Total.require haccepts _ _).bind fun _ => (lower_total hx).bind fun _ =>
        (lower_total hy).bind fun _ => (Lower.Total.emit _).bind fun _ =>
          (Lower.Total.release _ _).bind fun _ => .release _ _

/-- **A step** of an integer. -/
theorem adjust_total (op : Adjust) {dst : Reg} (h : dst.kind.isInteger = true) :
    (adjust op dst).Total := by
  have haccepts : op.accepts dst.kind = true := by
    cases op <;> simp [Adjust.accepts, Kind.isNumeric, h]
  exact (Lower.Total.require haccepts _ _).bind fun _ => .emit _

/-- **An update** of an integer by an expression over integers. -/
theorem update_total {op : BinaryOp} {inst : Update} (hinst : Update.ofOp? op = some inst)
    {e : Expr} (h : e.Integral) {dst : Reg} (hdst : dst.kind.isInteger = true) :
    (update inst e dst).Total := by
  have hop := Update.ofOp?_eq_some_iff.1 hinst
  have haccepts : inst.accepts dst.kind = true := by
    rw [Update.accepts, hop]
    refine accepts_integer ?_ hdst
    cases inst <;> cases hop <;> rfl
  have hne : inst ≠ .assign := by
    rintro rfl
    cases hop
  rw [update, if_neg hne]
  exact (Lower.Total.require haccepts _ _).bind fun _ => (lower_total h).bind fun _ =>
    (Lower.Total.emit _).bind fun _ => .release _ _

end Registers

namespace StraightLine

/-! ### Statements -/

/-- The step succeeds in every state in which the registers of names hold integers, and leaves such
a state; either the function has no register code, or there is a result with a property. -/
def Sure {α : Type} (P : α → Prop) (step : Straight α) : Prop :=
  ∀ v s, AllIntegers v.registers → ∃ r v' s', (step.run.run v).Ends s (r, v') s' ∧
    AllIntegers v'.registers ∧ ∀ a, r = some a → P a

namespace Sure

variable {α β : Type} {P : α → Prop} {Q : β → Prop}

/-- A result without a step. -/
theorem pure {a : α} (h : P a) : Sure P (Pure.pure a) := by
  refine fun v s hv => ⟨some a, v, s, rfl, hv, ?_⟩
  rintro b ⟨⟩
  exact h

/-- There is no register code. -/
theorem refuse : Sure P (StraightLine.refuse : Straight α) :=
  fun v s hv => ⟨none, v, s, rfl, hv, nofun⟩

/-- Nothing is written after it is known that there is no register code. -/
theorem refuse_bind (next : β → Straight α) :
    Sure P ((StraightLine.refuse : Straight β) >>= next) :=
  fun v s hv => ⟨none, v, s, rfl, hv, nofun⟩

/-- One step after another. -/
theorem bind {step : Straight α} {next : α → Straight β} (h : Sure P step)
    (hnext : ∀ a, P a → Sure Q (next a)) : Sure Q (step >>= next) := by
  intro v s hv
  obtain ⟨r, v₁, s₁, hstep, hv₁, hP⟩ := h v s hv
  have hrun : (step >>= next).run.run v = (do
      let r ← step.run.run v
      match r with
      | (some a, v₁) => (next a).run.run v₁
      | (none, v₁) => return (none, v₁)) := by
    simp only [OptionT.run_bind, Option.elimM, StateT.run_bind]
    refine bind_congr fun r => ?_
    rcases r with ⟨_ | a, v₁⟩ <;> rfl
  cases r with
  | none =>
      refine ⟨none, v₁, s₁, ?_, hv₁, nofun⟩
      rw [hrun]
      exact Registers.Lower.ends_bind.2 ⟨_, s₁, hstep, rfl⟩
  | some a =>
      obtain ⟨r', v₂, s₂, hlast, hv₂, hQ⟩ := hnext a (hP a rfl) v₁ s₁ hv₁
      refine ⟨r', v₂, s₂, ?_, hv₂, hQ⟩
      rw [hrun]
      exact Registers.Lower.ends_bind.2 ⟨_, s₁, hstep, hlast⟩

/-- A value that is needed. -/
theorem need {o : Option α} (h : ∀ a, o = some a → P a) : Sure P (StraightLine.need o) := by
  cases o with
  | none => exact .refuse
  | some a => exact .pure (h a rfl)

/-- A look at the variables. -/
theorem get : Sure (fun v : Variables => AllIntegers v.registers) MonadState.get := by
  refine fun v s hv => ⟨some v, v, s, rfl, hv, ?_⟩
  rintro w ⟨⟩
  exact hv

/-- Register code that can be written in every state. -/
theorem write {step : Registers.Lower α} (h : step.Total) :
    Sure (fun _ => True) (StraightLine.write step) := by
  intro v s hv
  obtain ⟨a, s₁, hstep⟩ := h s
  exact ⟨some a, v, s₁, (ends_write.2 ⟨hstep, rfl⟩ : Ends _ v s a v s₁), hv, fun _ _ => trivial⟩

end Sure

/-- **A translation** at an integer kind is an expression over integers. -/
theorem Translates.integral {registers : List (Name × Registers.Reg)} {k : Registers.Kind}
    {e : Expr} {x : Registers.Expr} (h : Translates registers k e x)
    (hregisters : AllIntegers registers) (hk : k.isInteger = true) : x.Integral := by
  induction h with
  | ident span name reg hreg => exact hregisters name reg hreg
  | literal span k i c hc =>
      have hkind := (@Translates.literal registers span k i c hc).kind_eq
      change c.kind = k at hkind
      change c.kind.isInteger = true
      rw [hkind, hk]
  | paren _ _ ih | plus _ _ ih => exact ih hk
  | unary span op hop _ ih => exact ⟨hop, ih hk⟩
  | binary span op harith _ _ ihA ihB =>
      exact ⟨harith, ihA hk, ihB (secondKind_isInteger hregisters hk op _)⟩

/-- A register for a parameter, a result or a variable. -/
theorem bind_sure (name : Option Name) {k : Registers.Kind} (hk : k.isInteger = true) :
    Sure (fun reg => reg.kind.isInteger = true) (bind name k) := by
  intro v s hv
  obtain ⟨v', hends⟩ : ∃ v', Ends (bind name k) v s (s.alloc k).1 v' (s.alloc k).2 := ⟨_, rfl⟩
  obtain ⟨-, rfl⟩ := bind_enters hends
  refine ⟨_, _, _, hends, fun n b hb => ?_, ?_⟩
  · rcases register?_enter hb with hold | ⟨rfl, -⟩
    · exact hv n b hold
    · exact hk
  · rintro reg ⟨⟩
    exact hk

/-- An assignment to a register. -/
theorem assign_sure {reg : Registers.Reg} (hreg : reg.kind.isInteger = true) (value : Expr) :
    Sure (fun _ => True) (assign reg value) :=
  Sure.get.bind fun _ hv => (Sure.need fun _ hx => (translates hx).integral hv hreg).bind
    fun _ hx => .write (Registers.assign_total hx reg)

/-- A definition. -/
theorem define_sure (name : Name) (value : Expr) : Sure (fun _ => True) (define name value) := by
  unfold define
  split
  · exact .refuse_bind _
  · refine Sure.get.bind fun v hv => ?_
    dsimp only
    cases hname : register? v.registers name with
    | some reg => exact assign_sure (hv name reg hname) value
    | none =>
        have hk := kindOf_getD_isInteger hv (k := .int) rfl value
        exact (Sure.need fun _ hx => (translates hx).integral hv hk).bind fun x hx =>
          (bind_sure _ hk).bind fun reg _ => .write (Registers.assign_total hx reg)

/-- The register of a variable. -/
theorem localOf?_integer {registers : List (Name × Registers.Reg)}
    (hregisters : AllIntegers registers) {target : Expr} {reg : Registers.Reg}
    (h : localOf? registers target = some reg) : reg.kind.isInteger = true := by
  rw [localOf?_eq, Option.bind_eq_some_iff] at h
  obtain ⟨name, -, hreg⟩ := h
  exact hregisters name reg hreg

/-- A statement. -/
theorem statement_sure (kind : StmtKind) : Sure (fun _ => True) (statement kind) := by
  unfold statement
  split
  · exact define_sure _ _
  · exact Sure.get.bind fun v hv => (Sure.need fun _ hreg => localOf?_integer hv hreg).bind
      fun reg hreg => assign_sure hreg _
  · refine Sure.get.bind fun v hv => (Sure.need fun _ hreg => localOf?_integer hv hreg).bind
      fun reg hreg => (Sure.need fun _ hinst => hinst).bind fun inst hinst => ?_
    refine (Sure.need fun _ hx => (translates hx).integral hv ?_).bind fun x hx =>
      .write (Registers.update_total hinst hx hreg)
    exact secondKind_isInteger hv hreg _ _
  · exact Sure.get.bind fun v hv => (Sure.need fun _ hreg => localOf?_integer hv hreg).bind
      fun reg hreg => .write (Registers.adjust_total _ hreg)
  · exact .refuse

/-! ### Functions -/

/-- Registers for parameters or results. -/
theorem bindEach_sure (params : List Param) {ks : List Registers.Kind}
    (hks : ∀ k ∈ ks, k.isInteger = true) :
    Sure (fun regs => ∀ reg ∈ regs, reg.kind.isInteger = true) (bindEach params ks) := by
  fun_induction bindEach params ks with
  | case1 p params k ks ih =>
      rw [List.forall_mem_cons] at hks
      refine (bind_sure p.name hks.1).bind fun reg hreg => (ih hks.2).bind fun regs hregs =>
        .pure ?_
      rw [List.forall_mem_cons]
      exact ⟨hreg, hregs⟩
  | case2 => exact .pure (List.forall_mem_nil _)

/-- Assignments to results. -/
theorem assignEach_sure {regs : List Registers.Reg}
    (hregs : ∀ reg ∈ regs, reg.kind.isInteger = true) (values : List Expr) :
    Sure (fun _ => True) (assignEach regs values) := by
  induction regs generalizing values with
  | nil => exact .pure trivial
  | cons reg regs ih =>
      rw [List.forall_mem_cons] at hregs
      cases values with
      | nil => exact .pure trivial
      | cons value values => exact (assign_sure hregs.1 value).bind fun _ _ => ih hregs.2 values

/-- A return. -/
theorem returnValues_sure {results : List Registers.Reg}
    (hresults : ∀ reg ∈ results, reg.kind.isInteger = true) (values : List Expr) :
    Sure (fun _ => True) (returnValues results values) := by
  unfold returnValues
  split
  · exact .pure trivial
  · split
    · exact .refuse_bind _
    · exact assignEach_sure hresults values

/-- The statements of a body. -/
theorem statements_sure {results : List Registers.Reg}
    (hresults : ∀ reg ∈ results, reg.kind.isInteger = true) (stmts : List Stmt) :
    Sure (fun _ => True) (statements results stmts) := by
  fun_induction statements results stmts with
  | case1 => exact .pure trivial
  | case2 _ values => exact returnValues_sure hresults values
  | case3 _ kind _ _ ih => exact (statement_sure kind).bind fun _ _ => ih

/-- Results that start at zero. -/
theorem zeroEach_sure {regs : List Registers.Reg}
    (hregs : ∀ reg ∈ regs, reg.kind.isInteger = true) :
    Sure (fun _ => True) (zeroEach regs) := by
  induction regs with
  | nil => exact .pure trivial
  | cons reg regs ih =>
      rw [List.forall_mem_cons] at hregs
      have hzero : (Registers.Expr.imm (.zero reg.kind)).Integral := hregs.1
      exact (Sure.write (Registers.assign_total hzero reg)).bind fun _ _ => ih hregs.2

/-- Releases. -/
theorem freeEach_sure (regs : List Registers.Reg) :
    Sure (fun _ => True) (forIn regs PUnit.unit fun reg _ => do
      write (Registers.free reg)
      return .yield PUnit.unit) := by
  induction regs with
  | nil => exact .pure trivial
  | cons reg regs ih =>
      have hfirst : Sure (fun r => r = ForInStep.yield PUnit.unit) (do
          write (Registers.free reg)
          return ForInStep.yield PUnit.unit) := (Sure.write (.free reg)).bind fun _ _ => .pure rfl
      rw [List.forIn_cons]
      refine hfirst.bind fun r hr => ?_
      subst hr
      exact ih

/-- The register code of a function with parameters and results that are integers. -/
theorem function_sure (sig : Sig) {ps rs : List Registers.Kind}
    (hps : ∀ k ∈ ps, k.isInteger = true) (hrs : ∀ k ∈ rs, k.isInteger = true)
    (stmts : List Stmt) : Sure (fun _ => True) (function sig ps rs stmts) := by
  unfold function
  refine (bindEach_sure sig.params hps).bind fun _ _ =>
    (bindEach_sure sig.results hrs).bind fun outs houts => ?_
  have hrest : Sure (fun _ => True) (do
      statements outs stmts
      for reg in (← get).bound do
        write (Registers.free reg)) :=
    (statements_sure houts stmts).bind fun _ _ => Sure.get.bind fun v _ =>
      (freeEach_sure v.bound).bind fun _ _ => .pure trivial
  dsimp only
  split
  · exact (zeroEach_sure houts).bind fun _ _ => hrest
  · exact hrest

/-- The kinds of registers for kinds of values are kinds of integers. -/
theorem ofKinds?_integers {kinds : List ScriptCore.Kind} {ks : List Registers.Kind}
    (h : ofKinds? kinds = some ks) : ∀ k ∈ ks, k.isInteger = true := by
  induction kinds generalizing ks with
  | nil =>
      cases h
      exact List.forall_mem_nil _
  | cons kind kinds ih =>
      simp only [ofKinds?, List.mapM_cons, Option.bind_eq_bind, Option.bind_eq_some_iff,
        Option.pure_def, Option.some.injEq] at h
      obtain ⟨k, hk, ks, hks, rfl⟩ := h
      rw [List.forall_mem_cons]
      exact ⟨ofKind?_isInteger hk, ih hks⟩

/-- **Writing register code never fails**: a function has register code or it has none. -/
theorem ofFunc?_ne_error (decl : FuncDecl) (params results : List ScriptCore.Kind)
    (e : Registers.CodeError) : ofFunc? decl params results ≠ .error e := by
  unfold ofFunc?
  split
  · rename_i body ps rs hbody hps hrs
    split
    · exact nofun
    · obtain ⟨r, v, s, hends, -⟩ := function_sure decl.sig (ofKinds?_integers hps)
        (ofKinds?_integers hrs) body.stmts ⟨[], []⟩ .empty nofun
      have hrun : ((function decl.sig ps rs body.stmts).run ⟨[], []⟩).run.run .empty =
          (.ok (r, v), s) := hends
      rw [hrun]
      cases r <;> exact nofun
  · exact nofun

end StraightLine

end ScriptCore
