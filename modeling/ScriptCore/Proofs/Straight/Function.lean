import Mathlib.Data.List.Nodup
import ScriptCore.Proofs.Straight.Entry

/-!
# The code of a function

A function that has register code is compiled to simple statements, one after the other, and no
statement adds to the types.  Both codes begin with what belongs to parameters and results: they are
bound in the same order, and results that could be read before they are written start at zero.

Main statements: `statements_kept` (types stay as they are), `Enters.linked` and `Enters.agree`
(what the first statement begins with).
-/

namespace ScriptCore

open Registers (File)

namespace StraightLine

variable {v v' : Variables} {s s' : Registers.Lowering} {c c' : Compiler} {k : Registers.Kind}
  {registers : List (Name × Registers.Reg)} {tree : Tree}

/-! ### Types are kept -/

/-- Names with a register are names of variables. -/
structure Knows (f : Frame) (registers : List (Name × Registers.Reg)) : Prop where
  found : ∀ name reg, register? registers name = some reg → ∃ w, f.find? name = some w
  blank : register? registers blank = none

/-- A declared name is one of a variable. -/
theorem Knows.declare {f : Frame} (h : Knows f v.registers) {name : Name} {ty : Ty}
    (hother : ∀ other, other ≠ name → register? v'.registers other = register? v.registers other)
    (hname : name ≠ ScriptCore.blank) : Knows (f.declare name ty).2 v'.registers := by
  refine ⟨fun other reg hreg => ?_, by rw [hother _ hname.symm, h.blank]⟩
  by_cases heq : other = name
  · subst heq
    exact ⟨_, Frame.find?_declare f other ty⟩
  · rw [find?_declare_ne f heq]
    rw [hother other heq] at hreg
    exact h.found other reg hreg

/-- An expression that is translated leaves no trace in the state of the compiler. -/
theorem operand_kept {e : Expr} {x : Registers.Expr} {o : Operand}
    (hknows : Knows c.frame registers) (h : Translates registers k e x)
    (ho : Compile.operand e c = .ok (o, c')) : c' = c := by
  induction h generalizing c' o with
  | ident span name reg hreg =>
      obtain ⟨w, hw⟩ := hknows.found name reg hreg
      rw [Compile.operand_node, Compile.at'_ok, Compile.operandOf] at ho
      exact (identifier_ok hw ho).1
  | literal span k i imm himm =>
      rw [Compile.operand_node, Compile.at'_ok, Compile.operandOf] at ho
      exact (Compile.pure_ok.1 ho).2.symm
  | paren span hx ih =>
      rw [Compile.operand_node, Compile.at'_ok, Compile.operandOf] at ho
      exact ih ho
  | plus span hx ih | unary span op hop hx ih =>
      obtain ⟨o₁, z, w, ho₁, -⟩ := operand_unary ho
      exact ih ho₁
  | binary span op harith hx hy ihA ihB =>
      obtain ⟨o₁, c₁, z, o₂, z', w, ho₁, -, ho₂, -⟩ := operand_binary ho
      obtain rfl := ihA ho₁
      exact ihB ho₂

/-- What the compiler of code with slots keeps. -/
structure Kept (c c' : Compiler) (registers : List (Name × Registers.Reg)) : Prop where
  types : c'.types = c.types
  results : c'.frame.results = c.frame.results
  knows : Knows c'.frame registers

/-- A statement of a straight line is one simple statement and keeps the types. -/
theorem statement_kept {kind : StmtKind} {inLoop : Bool} {u : Unit}
    (hknows : Knows c.frame v.registers) (hends : Ends (statement kind) v s u v' s')
    (hcompile : Compile.treeOf inLoop kind c = .ok (tree, c')) :
    Kept c c' v'.registers ∧ tree.isStraight = true := by
  have hlocal {target : Expr} {reg : Registers.Reg}
      (hreg : localOf? v.registers target = some reg) :
      ∃ name w, nameOf? target = some name ∧ name ≠ blank ∧ c.frame.find? name = some w := by
    rw [localOf?_eq, Option.bind_eq_some_iff] at hreg
    obtain ⟨name, hname, hreg⟩ := hreg
    obtain ⟨w, hw⟩ := hknows.found name reg hreg
    refine ⟨name, w, hname, fun heq => ?_, hw⟩
    rw [heq, hknows.blank] at hreg
    cases hreg
  unfold statement at hends
  split at hends
  · rename_i name value
    obtain ⟨o, c₁, z, ty, te, slot, ho, -, -, -, hslot, rfl⟩ := Compile.define_ok hcompile
    obtain ⟨hne, hcases⟩ := define_ends hends
    have hkept : c₁ = c := by
      rcases hcases with ⟨reg, x, -, hx, -⟩ | ⟨reg, x, s₁, -, hx, -⟩
      · exact operand_kept hknows (translates hx) ho
      · exact operand_kept hknows (translates hx) ho
    subst hkept
    have hother (other : Name) (hother : other ≠ name) :
        register? v'.registers other = register? v.registers other := by
      rcases hcases with ⟨_, _, -, -, -, rfl⟩ | ⟨reg, _, _, -, -, -, -, rfl⟩
      · rfl
      · exact register?_bind_ne v hother reg
    rcases Compile.bindName_ok hne hslot with ⟨w, hw, -, rfl, rfl⟩ | ⟨rfl, rfl⟩
    · refine ⟨⟨rfl, rfl, fun other reg hreg => ?_, by rw [hother _ hne.symm, hknows.blank]⟩, rfl⟩
      by_cases heq : other = name
      · subst heq
        exact ⟨w, find?_of_innermost hw⟩
      · rw [hother other heq] at hreg
        exact hknows.found other reg hreg
    · exact ⟨⟨rfl, rfl, hknows.declare hother hne⟩, rfl⟩
  · simp only [ends_bind, ends_get, ends_need] at hends
    obtain ⟨_, _, _, ⟨rfl, rfl, rfl⟩, reg, _, _, ⟨hreg, rfl, rfl⟩, hassign⟩ := hends
    obtain ⟨name, w, hname, hne, hw⟩ := hlocal hreg
    obtain ⟨o, i, ho, -, rfl⟩ := Compile.assign_ok hname hne hw hcompile
    obtain ⟨x, hx, -, rfl⟩ := assign_ends hassign
    obtain rfl := operand_kept hknows (translates hx) ho
    exact ⟨⟨rfl, rfl, hknows⟩, rfl⟩
  · obtain ⟨reg, inst, x, hreg, -, hx, -, rfl⟩ := update_ends hends
    obtain ⟨name, w, hname, hne, hw⟩ := hlocal hreg
    obtain ⟨o, te, ho, -, rfl⟩ := Compile.update_ok hname hne hw hcompile
    obtain rfl := operand_kept hknows (translates hx) ho
    exact ⟨⟨rfl, rfl, hknows⟩, rfl⟩
  · obtain ⟨reg, hreg, -, rfl⟩ := step_ends hends
    obtain ⟨name, w, hname, hne, hw⟩ := hlocal hreg
    obtain ⟨rfl, te, -, rfl⟩ := Compile.step_ok hname hne hw hcompile
    exact ⟨⟨rfl, rfl, hknows⟩, rfl⟩
  · exact absurd hends not_ends_refuse

/-- Values that are returned leave no trace in the state of the compiler. -/
theorem convertEach_kept {outs : List Registers.Reg} {values : List Expr} {want : List Ty}
    {es : List Code.Expr} {u : Unit} (hknows : Knows c.frame v.registers)
    (hlength : values.length = outs.length) (hends : Ends (assignEach outs values) v s u v' s')
    (hcompile : Compile.convertEach (Compile.operands values) want c = .ok (es, c')) : c' = c := by
  induction outs generalizing values want es s u with
  | nil =>
      obtain rfl : values = [] := List.length_eq_zero_iff.1 hlength
      exact (Compile.pure_ok.1 hcompile).2.symm
  | cons out outs ih =>
      obtain ⟨value, values, rfl⟩ := List.exists_cons_of_length_eq_add_one hlength
      rw [assignEach, ends_bind] at hends
      obtain ⟨_, v₁, s₁, hfirst, hends⟩ := hends
      obtain ⟨x, hx, -, rfl⟩ := assign_ends hfirst
      cases want with
      | nil => exact (Compile.pure_ok.1 hcompile).2.symm
      | cons ty want =>
          rw [Compile.operands, Compile.convertEach] at hcompile
          obtain ⟨e, c₁, hone, hcompile⟩ := Compile.bind_ok.1 hcompile
          obtain ⟨es, c₂, hmore, hcompile⟩ := Compile.bind_ok.1 hcompile
          obtain ⟨-, rfl⟩ := Compile.pure_ok.1 hcompile
          obtain ⟨o, c₃, ho, hone⟩ := Compile.bind_ok.1 hone
          obtain ⟨te, c₄, hte, hone⟩ := Compile.bind_ok.1 hone
          obtain ⟨-, rfl⟩ := Compile.rule_ok.1 hte
          obtain ⟨-, rfl⟩ := Compile.pure_ok.1 hone
          obtain rfl := operand_kept hknows (translates hx) ho
          exact ih (by simpa using hlength) hends hmore

/-- The statements of a straight line are simple statements and keep the types. -/
theorem statements_kept {outs : List Registers.Reg} {stmts : List Stmt} {u : Unit}
    (hknows : Knows c.frame v.registers) (hcount : outs.length = c.frame.results.length)
    (hends : Ends (statements outs stmts) v s u v' s')
    (hcompile : Compile.treesOf false stmts c = .ok (tree, c')) :
    c'.types = c.types ∧ tree.isStraight = true := by
  fun_induction statements outs stmts generalizing v s c tree with
  | case1 =>
      rw [Compile.treesOf] at hcompile
      cases hcompile
      exact ⟨rfl, rfl⟩
  | case2 span values =>
      obtain ⟨i, hreturn, rfl⟩ := treesOf_return hcompile
      refine ⟨?_, rfl⟩
      rcases returnValues_ends hends with ⟨rfl, -, -⟩ | ⟨hne, hlength, hassign⟩
      · rw [(Compile.returnStmt_nil hreturn).1]
      · have hsome : Compile.operands values ≠ [] := by
          rw [← List.length_pos_iff, Compile.operands_length, List.length_pos_iff]
          exact hne
        obtain ⟨es, hes, -⟩ := Compile.returnStmt_ok hsome
          (by rw [Compile.operands_length, hlength, hcount]) hreturn
        rw [convertEach_kept hknows hlength hassign hes]
  | case3 span kind rest hlast ih =>
      obtain ⟨_, v₁, s₁, hfirst, hrest⟩ := ends_bind.1 hends
      rw [Compile.treesOf, Compile.tree] at hcompile
      obtain ⟨first, c₁, hone, hcompile⟩ := Compile.bind_ok.1 hcompile
      obtain ⟨others, c₂, hmore, hcompile⟩ := Compile.bind_ok.1 hcompile
      obtain ⟨rfl, rfl⟩ := Compile.pure_ok.1 hcompile
      obtain ⟨hkept, hstraight⟩ := statement_kept hknows hfirst (Compile.at'_ok.1 hone)
      obtain ⟨htypes, hstraight'⟩ := ih hkept.knows (by rw [hcount, hkept.results]) hrest hmore
      exact ⟨htypes.trans hkept.types, by rw [Tree.isStraight, hstraight, hstraight']; rfl⟩

/-! ### The code of a function -/

/-- Releases change no register. -/
theorem freeEach_ends {regs : List Registers.Reg} {u : PUnit}
    (h : Ends (forIn regs PUnit.unit fun reg _ => do
      write (Registers.free reg)
      return .yield PUnit.unit) v s u v' s') :
    ∃ is, s'.code = s.code.pushAll is ∧ ∀ file, Registers.runAll is file = .ok file := by
  induction regs generalizing s with
  | nil =>
      obtain ⟨-, rfl, rfl⟩ := ends_pure.1 h
      exact ⟨[], rfl, fun _ => rfl⟩
  | cons reg regs ih =>
      rw [List.forIn_cons] at h
      obtain ⟨_, v₁, s₁, hfirst, hrest⟩ := ends_bind.1 h
      obtain ⟨_, v₂, s₂, hfree, hnext⟩ := ends_bind.1 hfirst
      obtain ⟨rfl, rfl, rfl⟩ := ends_pure.1 hnext
      obtain ⟨hwrite, rfl⟩ := ends_write.1 hfree
      obtain rfl := Registers.Lower.ends_free.1 hwrite
      obtain ⟨is, hcode, hrun⟩ := ih hrest
      obtain ⟨js, hjs, hrunjs⟩ := s.free_code reg
      refine ⟨js ++ is, by rw [hcode, hjs, Registers.Stream.pushAll_append], fun file => ?_⟩
      rw [Registers.runAll_append, hrunjs]
      exact hrun file

/-- Some result has a name. -/
def isNamed (names : List (Option Name)) : Bool :=
  names.any Option.isSome

/-- Results could be read before they are written, so that they start at zero. -/
def startsAtZero (names : List (Option Name)) (stmts : List Stmt) : Bool :=
  isNamed names || !endsInValues stmts

/-- Register code of a function: allocations, zeros, the statements and releases. -/
theorem function_ends {sig : Sig} {ps rs : List Registers.Kind} {stmts : List Stmt} {u : Unit}
    (h : Ends (function sig ps rs stmts) v s u v' s') :
    ∃ regs v₁ s₁ outs v₂ s₂ s₃ v₃ s₄ is, Ends (bindEach sig.params ps) v s regs v₁ s₁ ∧
      Ends (bindEach sig.results rs) v₁ s₁ outs v₂ s₂ ∧
      s₃.code = s₂.code.pushAll
        (if startsAtZero (sig.results.map Param.name) stmts then outs.map zeroing else []) ∧
      s₃.inUse = s₂.inUse ∧ Ends (statements outs stmts) v₂ s₃ () v₃ s₄ ∧
      s'.code = s₄.code.pushAll is ∧ ∀ file, Registers.runAll is file = .ok file := by
  rw [function] at h
  obtain ⟨regs, v₁, s₁, hparams, h⟩ := ends_bind.1 h
  obtain ⟨outs, v₂, s₂, hresults, h⟩ := ends_bind.1 h
  have hrest {s₃ : Registers.Lowering} (h : Ends (do
      statements outs stmts
      for reg in (← get).bound do
        write (Registers.free reg)) v₂ s₃ u v' s') :
      ∃ v₃ s₄ is, Ends (statements outs stmts) v₂ s₃ () v₃ s₄ ∧ s'.code = s₄.code.pushAll is ∧
        ∀ file, Registers.runAll is file = .ok file := by
    obtain ⟨_, v₃, s₄, hstmts, h⟩ := ends_bind.1 h
    obtain ⟨_, _, _, hget, h⟩ := ends_bind.1 h
    obtain ⟨rfl, rfl, rfl⟩ := ends_get.1 hget
    obtain ⟨_, _, _, hfree, hlast⟩ := ends_bind.1 h
    obtain ⟨-, rfl, rfl⟩ := ends_pure.1 hlast
    obtain ⟨is, hcode, hrun⟩ := freeEach_ends hfree
    exact ⟨v₃, s₄, is, hstmts, hcode, hrun⟩
  have hzero : ((sig.results.any fun r => r.name.isSome) || !endsInValues stmts) =
      startsAtZero (sig.results.map Param.name) stmts := by
    rw [startsAtZero, isNamed, List.any_map]
    rfl
  simp only [hzero] at h
  cases hstart : startsAtZero (sig.results.map Param.name) stmts with
  | true =>
      simp only [hstart, if_true] at h ⊢
      obtain ⟨_, _, s₃, hzeroes, hnext⟩ := ends_bind.1 h
      obtain ⟨rfl, hcode, hinUse⟩ := zeroEach_ends hzeroes
      obtain ⟨v₃, s₄, is, hstmts, hcode', hrun⟩ := hrest hnext
      exact ⟨regs, v₁, s₁, outs, _, s₂, s₃, v₃, s₄, is, hparams, hresults, hcode, hinUse, hstmts,
        hcode', hrun⟩
  | false =>
      simp only [hstart, Bool.false_eq_true, if_false] at h ⊢
      obtain ⟨v₃, s₄, is, hstmts, hcode', hrun⟩ := hrest h
      exact ⟨regs, v₁, s₁, outs, v₂, s₂, s₂, v₃, s₄, is, hparams, hresults, rfl, rfl, hstmts,
        hcode', hrun⟩

end StraightLine

namespace Compile

/-- A frame is changed. -/
theorem updateFrame_ok {f : Frame → Frame} {c c' : Compiler} {u : Unit}
    (h : updateFrame f c = .ok (u, c')) : c' = { c with frame := f c.frame } := by
  cases h
  rfl

end Compile

namespace StraightLine

variable {v v₁ v₂ : Variables} {s s₁ s₂ : Registers.Lowering} {c c' : Compiler} {t : TypeTable}
  {sig : Sig} {h : Heading} {ps rs : List Registers.Kind} {regs outs : List Registers.Reg}
  {entry : List Code.Instr}

/-- Registers are numbered one after the other. -/
theorem numbered_ids (n : Nat) (ks : List Registers.Kind) :
    (numbered n ks).map Registers.Reg.id = List.range' n ks.length := by
  induction ks generalizing n with
  | nil => rfl
  | cons k ks ih => rw [numbered, List.map_cons, ih, List.length_cons, List.range'_succ]

/-- Registers have their kinds. -/
theorem numbered_kinds (n : Nat) (ks : List Registers.Kind) :
    (numbered n ks).map Registers.Reg.kind = ks := by
  induction ks generalizing n with
  | nil => rfl
  | cons k ks ih => rw [numbered, List.map_cons, ih]

/-- There are as many registers as kinds. -/
@[simp] theorem numbered_length (n : Nat) (ks : List Registers.Kind) :
    (numbered n ks).length = ks.length := by
  rw [← List.length_map (f := Registers.Reg.kind), numbered_kinds]

/-- The numbers of registers are those from `n` on. -/
theorem id_of_mem_numbered {n : Nat} {ks : List Registers.Kind} {reg : Registers.Reg}
    (hmem : reg ∈ numbered n ks) : n ≤ reg.id ∧ reg.id < n + ks.length := by
  have hid : reg.id ∈ (numbered n ks).map Registers.Reg.id := List.mem_map_of_mem hmem
  rw [numbered_ids, List.mem_range'_1] at hid
  exact hid

/-- The two compilers bind the parameters and results of the same heading. -/
structure Headed (t : TypeTable) (sig : Sig) (h : Heading) (ps rs : List Registers.Kind) :
    Prop where
  params : h.params.map Prod.fst = sig.params.map Param.name
  results : h.results.map Prod.fst = sig.results.map Param.name
  paramKinds : List.Forall₂ (fun e k => ofKind? (t.kind e.2) = some k) h.params ps
  resultKinds : List.Forall₂ (fun e k => ofKind? (t.kind e.2) = some k) h.results rs

/-- What the compiler of register code has bound at the beginning of the statements. -/
structure Prepared (sig : Sig) (ps rs : List Registers.Kind) (v : Variables)
    (s : Registers.Lowering) : Prop where
  filled : Filled v s
  bound : v.bound = numbered 0 ps ++ numbered ps.length rs
  code : s.code = Registers.Stream.empty.pushAll (v.bound.map .alloc)
  kinds : kindsIn v.registers = enterKinds (sig.results.map Param.name) rs
    (enterKinds (sig.params.map Param.name) ps fun _ => none)
  results : Results v (numbered ps.length rs) (sig.results.map Param.name)

/-- Parameters and results have been bound. -/
theorem bindEach_prepared (hparams : sig.params.length = ps.length)
    (hresults : sig.results.length = rs.length)
    (hfirst : Ends (bindEach sig.params ps) ⟨[], []⟩ .empty regs v₁ s₁)
    (hsecond : Ends (bindEach sig.results rs) v₁ s₁ outs v₂ s₂) :
    outs = numbered ps.length rs ∧ Prepared sig ps rs v₂ s₂ := by
  have hp := bindEach_allotted .start hparams hfirst
  have hr := bindEach_allotted hp.filled hresults hsecond
  have hregs : regs = numbered 0 ps := hp.numbers
  have hbound₁ : v₁.bound = numbered 0 ps := by rw [hp.bound, hregs]; rfl
  have houts : outs = numbered ps.length rs := by rw [hr.numbers, hbound₁, numbered_length]
  have hbound : v₂.bound = numbered 0 ps ++ numbered ps.length rs := by
    rw [hr.bound, hbound₁, houts]
  refine ⟨houts, hr.filled, hbound, ?_, ?_, ?_, ?_, ?_⟩
  · rw [hr.code, hp.code, hbound, List.map_append, Registers.Stream.pushAll_append, hregs, houts]
    rfl
  · rw [hr.kinds, hp.kinds]
    rfl
  · intro out hout
    rw [hbound]
    exact List.mem_append_right _ hout
  · have hnodup : ((numbered ps.length rs).map Registers.Reg.id).Nodup := by
      rw [numbered_ids]
      exact List.nodup_range'
    exact List.Nodup.of_map _ hnodup
  · rw [← houts]
    exact hr.names

/-- What the compiler of code with slots has bound at the beginning of the statements. -/
structure Enters (t : TypeTable) (h : Heading) (outs : List Registers.Reg) (n : Nat)
    (c c' : Compiler) (v : Variables) (entry : List Code.Instr) : Prop where
  paired : Paired t c'.frame v
  types : c'.types = c.types
  results : c'.frame.results = h.resultTypes
  slots : isNamed (h.results.map Prod.fst) = true ∧ c'.frame.slots = n + outs.length ∧
      c'.frame.namedResults = some (outs.map Registers.Reg.id) ∧
        (c.types = t → entry = [clearing outs]) ∨
    isNamed (h.results.map Prod.fst) = false ∧ c'.frame.slots = n ∧
      c'.frame.namedResults = none ∧ entry = []

/-- Two headings of the same signature have the same number of parameters. -/
theorem Headed.lengths (hheaded : Headed t sig h ps rs) :
    sig.params.length = ps.length ∧ sig.results.length = rs.length := by
  constructor
  · rw [← hheaded.paramKinds.length_eq, ← List.length_map (f := Prod.fst), hheaded.params,
      List.length_map]
  · rw [← hheaded.resultKinds.length_eq, ← List.length_map (f := Prod.fst), hheaded.results,
      List.length_map]

/-- Some result of a heading has a name. -/
theorem any_isSome (results : List (Option Name × Ty)) :
    (results.any fun r => r.1.isSome) = isNamed (results.map Prod.fst) := by
  rw [isNamed, List.any_map]
  rfl

/-- Named results take slots and start at zero. -/
theorem bindResultSlots_named {results : List (Option Name × Ty)}
    (hnamed : isNamed (results.map Prod.fst) = true)
    (hcompile : Compile.bindResultSlots results c = .ok (entry, c')) :
    ∃ slots c₁, Compile.bindSlots results c = .ok (slots, c₁) ∧
      c' = { c₁ with frame := { c₁.frame with namedResults := some slots } } ∧
      entry = [.setSlots ((slots.zip results).map fun (slot, e) =>
        (some slot, .const (c₁.types.zero e.2)))] := by
  rw [Compile.bindResultSlots, any_isSome, if_pos hnamed] at hcompile
  obtain ⟨slots, c₁, hslots, hrest⟩ := Compile.bind_ok.1 hcompile
  obtain ⟨t, c₂, hget, hlast⟩ := Compile.bind_ok.1 hrest
  cases hget
  obtain ⟨_, c₃, hupdate, hpure⟩ := Compile.bind_ok.1 hlast
  obtain ⟨rfl, rfl⟩ := Compile.pure_ok.1 hpure
  exact ⟨slots, c₁, hslots, Compile.updateFrame_ok hupdate, rfl⟩

/-- Results without names take no slots. -/
theorem bindResultSlots_unnamed {results : List (Option Name × Ty)}
    (hunnamed : isNamed (results.map Prod.fst) = false)
    (hcompile : Compile.bindResultSlots results c = .ok (entry, c')) : c' = c ∧ entry = [] := by
  rw [Compile.bindResultSlots, any_isSome, if_neg (Bool.eq_false_iff.1 hunnamed)] at hcompile
  obtain ⟨rfl, rfl⟩ := Compile.pure_ok.1 hcompile
  exact ⟨rfl, rfl⟩

/-- A body is entered. -/
theorem enterBody_enters (hheaded : Headed t sig h ps rs) (hframe : c.frame = .empty)
    (hfirst : Ends (bindEach sig.params ps) ⟨[], []⟩ .empty regs v₁ s₁)
    (hsecond : Ends (bindEach sig.results rs) v₁ s₁ outs v₂ s₂)
    (hcompile : Compile.enterBody none h c = .ok (entry, c')) :
    Enters t h outs ps.length c c' v₂ entry := by
  obtain ⟨hplength, hrlength⟩ := hheaded.lengths
  obtain ⟨hparams, hresults, hpkinds, hrkinds⟩ := hheaded
  have hallotted := bindEach_allotted .start hplength hfirst
  have hbound₁ : v₁.bound.length = ps.length := by
    rw [hallotted.bound, hallotted.numbers, List.nil_append, numbered_length]
  obtain ⟨_, c₁, hupdate, hbody⟩ := Compile.bind_ok.1 hcompile
  obtain ⟨slots, c₂, hslots, hclear⟩ := Compile.bind_ok.1 hbody
  have hc₁ := Compile.updateFrame_ok hupdate
  rw [hframe] at hc₁
  subst hc₁
  obtain ⟨hslotted, hpaired⟩ := bindSlots_paired .start (Paired.start (t := t)) rfl hparams hpkinds
    hfirst hslots
  have hcount : c₂.frame.slots = ps.length := by
    rw [hslotted.count, hpkinds.length_eq]
    exact Nat.zero_add _
  have htypes : c₂.types = c.types := by rw [hslotted.state]
  cases hany : isNamed (h.results.map Prod.fst) with
  | true =>
      obtain ⟨more, c₃, hmore, rfl, rfl⟩ := bindResultSlots_named hany hclear
      obtain ⟨hslotted', hpaired'⟩ := bindSlots_paired hallotted.filled hpaired
        (by rw [hcount, hbound₁]) hresults hrkinds hsecond hmore
      have houts : outs = numbered ps.length rs := by
        rw [← hbound₁]
        exact (bindEach_allotted hallotted.filled hrlength hsecond).numbers
      have hmoreSlots : more = List.range' ps.length h.results.length := by
        rw [hslotted'.slots, hcount]
      have htypes₃ : c₃.types = c.types := by rw [hslotted'.state, htypes]
      refine ⟨⟨hpaired'.named, hpaired'.known⟩, htypes₃,
        hslotted'.results.trans hslotted.results, .inl ⟨hany, ?_, ?_, fun heq => ?_⟩⟩
      · change c₃.frame.slots = _
        rw [hslotted'.count, hcount, houts, numbered_length, hrkinds.length_eq]
      · change some more = _
        rw [hmoreSlots, houts, numbered_ids, hrkinds.length_eq]
      · rw [hmoreSlots, houts, htypes₃, heq, ← clearing_eq hrkinds ps.length]
  | false =>
      obtain ⟨rfl, rfl⟩ := bindResultSlots_unnamed hany hclear
      have hnone : ∀ p ∈ sig.results, p.name = none := by
        intro p hp
        have hmem : p.name ∈ h.results.map Prod.fst := by
          rw [hresults]
          exact List.mem_map_of_mem hp
        have hall := List.any_eq_false.1 hany p.name hmem
        simpa using hall
      have hregisters := bindEach_unnamed hnone hsecond
      refine ⟨⟨fun name reg hreg => hpaired.named name reg (hregisters ▸ hreg),
        fun name w hw => ?_⟩, htypes, hslotted.results, .inr ⟨hany, hcount, hslotted.named, rfl⟩⟩
      rw [hregisters]
      exact hpaired.known name w hw

/-! ### The first statement -/

/-- Registers that are linked at the beginning of the statements: those of parameters, and those of
results if these start at zero. -/
def linkedAtStart (zeroed : Bool) (ps rs : List Registers.Kind) : List Registers.Reg :=
  numbered 0 ps ++ if zeroed then numbered ps.length rs else []

variable {content : List Stmt} {zeroed : Bool}

/-- Parameters and results are linked at the beginning of the statements. -/
theorem Enters.linked (h' : Enters t h (numbered ps.length rs) ps.length c c' v entry)
    (hprepared : Prepared sig ps rs v s)
    (hzeroed : isNamed (h.results.map Prod.fst) = true → zeroed = true) :
    Linked t c'.frame.nested v (sources c'.frame.slots (linkedAtStart zeroed ps rs)) := by
  refine h'.paired.nested.linked hprepared.filled.toBound (fun b hb => ?_) fun b hb hlt => ?_
  · rw [hprepared.bound]
    rcases List.mem_append.1 hb with hb | hb
    · exact List.mem_append_left _ hb
    · split at hb
      · exact List.mem_append_right _ hb
      · cases hb
  · rw [hprepared.bound] at hb
    rcases List.mem_append.1 hb with hb | hb
    · exact List.mem_append_left _ hb
    · refine List.mem_append_right _ ?_
      rcases h'.slots with ⟨hnamed, -⟩ | ⟨-, hslots, -⟩
      · rw [hzeroed hnamed, if_pos rfl]
        exact hb
      · change b.id < c'.frame.slots at hlt
        have hid := (id_of_mem_numbered hb).1
        omega

/-- Zero values of types are the zeros of their kinds. -/
theorem zeros_eq {results : List (Option Name × Ty)}
    (hkinds : List.Forall₂ (fun e k => ofKind? (t.kind e.2) = some k) results rs) :
    results.map (fun e => t.zero e.2) = rs.map fun k => k.cast 0 := by
  induction hkinds with
  | nil => rfl
  | cons hkind _ ih => rw [List.map_cons, List.map_cons, ih, zero_cast hkind]

/-- Falling off the end returns what the sources of the results hold. -/
theorem Enters.yields (h' : Enters t h (numbered ps.length rs) ps.length c c' v entry)
    (hkinds : List.Forall₂ (fun e k => ofKind? (t.kind e.2) = some k) h.results rs) :
    Yields (Compile.endingOf t c'.frame) (numbered ps.length rs)
      (sources c'.frame.slots (numbered ps.length rs)) := by
  refine ⟨by simp [sources, Function.comp_def], fun r m => ?_⟩
  rcases h'.slots with ⟨-, hslots, hnamed, -⟩ | ⟨-, hslots, hnamed, -⟩
  · rw [Compile.endingOf, hnamed, sources, List.map_map, Ending.values, List.map_map]
    refine List.map_congr_left fun b hb => ?_
    have hid := id_of_mem_numbered hb
    rw [hslots, numbered_length]
    simp [hid.2, Source.value]
  · have hzeros : h.resultTypes.map t.zero = (numbered ps.length rs).map zeroOf := by
      rw [Heading.resultTypes, List.map_map]
      change h.results.map (fun e => t.zero e.2) = _
      rw [zeros_eq hkinds]
      conv_lhs => rw [← numbered_kinds ps.length rs, List.map_map]
      rfl
    rw [Compile.endingOf, hnamed, sources, List.map_map, Ending.values, h'.results, hzeros]
    refine List.map_congr_left fun b hb => ?_
    have hid := (id_of_mem_numbered hb).1
    have hnot : ¬ b.id < c'.frame.slots := by omega
    simp [hnot, Source.value, zeroOf]

/-- Registers at the beginning of the statements: all have their kinds, and results may be zero. -/
def fileAtStart (zeroed : Bool) (ps rs : List Registers.Kind) (file : File) : File where
  kinds := putEach Registers.Reg.kind (numbered 0 ps ++ numbered ps.length rs) file.kinds
  values := putEach zeroOf (if zeroed then numbered ps.length rs else []) file.values

/-- Register code up to the first statement. -/
theorem runAll_start (zeroed : Bool) (ps rs : List Registers.Kind) (file : File) :
    Registers.runAll ((numbered 0 ps ++ numbered ps.length rs).map .alloc ++
      if zeroed then (numbered ps.length rs).map zeroing else []) file =
        .ok (fileAtStart zeroed ps rs file) := by
  rw [Registers.runAll_append, runAll_alloc]
  cases zeroed with
  | true => exact runAll_zeroing _ _
  | false => rfl

/-- A called body has its arguments in the first slots, and register code in the first registers. -/
def Passed (ps : List Registers.Kind) (r : Nat) (m : Machine) (file : File) : Prop :=
  ∀ b ∈ numbered 0 ps, (m.record r).get b.id = file.values b.id ∧ b.kind.Has (file.values b.id)

/-- Zeros of results leave parameters alone. -/
theorem putEach_param {α : Type} {value : Registers.Reg → α} (zeroed : Bool) {g : Nat → α}
    {b : Registers.Reg} (hb : b ∈ numbered 0 ps) :
    putEach value (if zeroed then numbered ps.length rs else []) g b.id = g b.id := by
  refine putEach_ne fun out hout => ?_
  cases zeroed with
  | true =>
      have hlow := (id_of_mem_numbered hout).1
      have hhigh := (id_of_mem_numbered hb).2
      omega
  | false => cases hout

/-- Results start at zero. -/
theorem putEach_result {α : Type} {value : Registers.Reg → α} {g : Nat → α} {n : Nat}
    {ks : List Registers.Kind} {b : Registers.Reg} (hb : b ∈ numbered n ks) :
    putEach value (numbered n ks) g b.id = value b := by
  refine putEach_mem hb fun a ha hid => ?_
  have hnodup : ((numbered n ks).map Registers.Reg.id).Nodup := by
    rw [numbered_ids]
    exact List.nodup_range'
  exact List.inj_on_of_nodup_map hnodup ha hb hid

/-- Arguments stand where they stood. -/
theorem fileAtStart_param (zeroed : Bool) (file : File) {b : Registers.Reg}
    (hb : b ∈ numbered 0 ps) :
    (fileAtStart zeroed ps rs file).values b.id = file.values b.id :=
  putEach_param zeroed hb

/-- Results that start at zero are zero. -/
theorem fileAtStart_result (file : File) {b : Registers.Reg} (hb : b ∈ numbered ps.length rs) :
    (fileAtStart true ps rs file).values b.id = zeroOf b :=
  putEach_result hb

/-- A body with named results begins by storing their zeros. -/
theorem Enters.exec (h' : Enters c.types h (numbered ps.length rs) ps.length c c' v entry)
    (ctx : Context) {r : Nat} {m : Machine} (hr : r < m.records.size) :
    ∃ m' log, actAll ctx r entry m = ⟨.normal, m', log⟩ ∧ r < m'.records.size ∧
      (m'.record r).get = putEach zeroOf (if isNamed (h.results.map Prod.fst) then
        numbered ps.length rs else []) (m.record r).get := by
  rcases h'.slots with ⟨hnamed, -, -, hentry⟩ | ⟨hnamed, -, -, rfl⟩
  · rw [hentry rfl, hnamed, if_pos rfl]
    exact exec_clearing _ hr
  · rw [hnamed]
    exact ⟨m, [], rfl, hr, rfl⟩

/-- **Slots and registers agree** at the beginning of the statements. -/
theorem Enters.agree (h' : Enters c.types h (numbered ps.length rs) ps.length c c' v entry)
    (hprepared : Prepared sig ps rs v s) (zeroed : Bool) {ctx : Context} {r : Nat} {m : Machine}
    {file : File} (hr : r < m.records.size) (hpassed : Passed ps r m file) :
    ∃ m' log, actAll ctx r entry m = ⟨.normal, m', log⟩ ∧
      Agree v (sources c'.frame.slots (linkedAtStart zeroed ps rs)) r m'
        (fileAtStart zeroed ps rs file) := by
  obtain ⟨m', log, hexec, hsize, hget⟩ := h'.exec ctx hr
  have hparam (b : Registers.Reg) (hb : b ∈ numbered 0 ps) : b.id < c'.frame.slots := by
    have hid := (id_of_mem_numbered hb).2
    rcases h'.slots with ⟨-, hslots, -⟩ | ⟨-, hslots, -⟩ <;> omega
  have hresult (b : Registers.Reg) (hb : b ∈ numbered ps.length rs) :
      Source.value r m' b.kind (if b.id < c'.frame.slots then some b.id else none) = zeroOf b := by
    obtain ⟨hlow, hhigh⟩ := id_of_mem_numbered hb
    rcases h'.slots with ⟨hnamed, hslots, -⟩ | ⟨-, hslots, -⟩
    · rw [hslots, numbered_length, if_pos hhigh, Source.value, hget, hnamed, if_pos rfl,
        putEach_result hb]
    · rw [if_neg (by omega)]
      rfl
  refine ⟨m', log, hexec, hsize, fun b hb => ?_, fun p hp => ?_, fun p hp => ?_⟩
  · rw [hprepared.bound] at hb
    refine putEach_mem hb fun a ha hid => hprepared.filled.apart a ?_ b ?_ hid
    · rw [hprepared.bound]
      exact ha
    · rw [hprepared.bound]
      exact hb
  · obtain ⟨hmem, hsource⟩ := mem_sources.1 hp
    rw [hsource]
    rcases List.mem_append.1 hmem with hb | hb
    · rw [if_pos (hparam _ hb), Source.value, hget, putEach_param _ hb,
        fileAtStart_param zeroed file hb, (hpassed _ hb).1]
    · cases zeroed with
      | true => rw [hresult _ hb, fileAtStart_result file hb]
      | false => cases hb
  · obtain ⟨hmem, -⟩ := mem_sources.1 hp
    rcases List.mem_append.1 hmem with hb | hb
    · rw [fileAtStart_param zeroed file hb]
      exact (hpassed _ hb).2
    · cases zeroed with
      | true =>
          rw [fileAtStart_result file hb]
          exact ⟨0, rfl⟩
      | false => cases hb

end StraightLine

end ScriptCore
