import Mathlib
import ScriptCore.Proofs.Straight.Function

/-!
# Register code agrees with code with slots

A function that has register code is compiled twice.  A call of the one code and a run of the other
one give the same results for the same arguments, or fail with the same error.

They differ where one compiler evaluates what the other one does not keep apart: a value that is
returned after another one has overwritten a result it reads, a constant that does not fit the width
at which it is computed, a definition of a name that is known, and the count of a shift if nothing
says what it is.  `isFaithfulFunction` rules these out.

Main statement: `Compile.lowered_agrees`.
-/

namespace ScriptCore

open Registers (File)

namespace StraightLine

variable {v : Variables} {s : Registers.Lowering} {c c' : Compiler} {t : TypeTable} {sig : Sig}
  {h : Heading} {ps rs : List Registers.Kind}

/-! ### The whole body -/

/-- A function means the same whether its variables live in slots or in registers. -/
def isFaithfulFunction (sig : Sig) (ps rs : List Registers.Kind) (stmts : List Stmt) : Bool :=
  areFaithful (fun n => !endsInValues stmts && (sig.results.map Param.name).contains (some n))
    (sig.results.map Param.name) rs
    (enterKinds (sig.results.map Param.name) rs
      (enterKinds (sig.params.map Param.name) ps fun _ => none)) stmts

/-- The registers of results have the kinds of their types. -/
theorem forall₂_numbered {entries : List (Option Name × Ty)}
    (hkinds : List.Forall₂ (fun e k => ofKind? (t.kind e.2) = some k) entries rs) (n : Nat) :
    List.Forall₂ (fun out ty => ofKind? (t.kind ty) = some out.kind) (numbered n rs)
      (entries.map Prod.snd) := by
  induction hkinds generalizing n with
  | nil => exact .nil
  | cons hkind _ ih => exact .cons hkind (ih (n + 1))

/-- A body that begins with its entry ends as its statements do. -/
theorem run_entered {p : Routine} {ctx : Context} {r fuel : Nat} {m m' : Machine} {log : Log}
    (hentry : actAll ctx r p.entry m = ⟨.normal, m', log⟩) :
    (p.run ctx r fuel m).outcome = (finished ctx r fuel p.body p.ending m').outcome := by
  rw [Routine.run, hentry]
  change (((p.body.exec ctx r fuel m').after log).andThen _).outcome = _
  rw [after_andThen]
  rfl

variable {p : Routine} {stmts : List Stmt} {span : Span} {u : Unit} {v' : Variables}
  {s' : Registers.Lowering}

/-- The parts of a body that compiles. -/
theorem routine_ok (hcompile : Compile.routine none h (.mk stmts span) c = .ok (p, c')) :
    ∃ c₁ c₂, Compile.enterBody none h c = .ok (p.entry, c₁) ∧
      Compile.treesOf false stmts { c₁ with frame := c₁.frame.nested } = .ok (p.body, c₂) ∧
      c'.types = c₂.types ∧ p.ending = Compile.endingOf c₂.types c₂.frame := by
  obtain ⟨entry, c₁, hentry, hrest⟩ := Compile.bind_ok.1 hcompile
  obtain ⟨tree, c₂, hblock, hlast⟩ := Compile.bind_ok.1 hrest
  obtain ⟨_, c₃, hnested, hcontent⟩ := Compile.bind_ok.1 hblock
  obtain ⟨tree', c₄, htree, hunnested⟩ := Compile.bind_ok.1 hcontent
  obtain ⟨_, c₅, hupdate, hpure⟩ := Compile.bind_ok.1 hunnested
  obtain rfl := Compile.updateFrame_ok hnested
  obtain rfl := Compile.updateFrame_ok hupdate
  obtain ⟨rfl, rfl⟩ := Compile.pure_ok.1 hpure
  cases hlast
  rw [Compile.blockTree] at htree
  exact ⟨c₁, c₄, hentry, htree, rfl, rfl⟩

/-- **A body of a straight line** ends as its register code does, from every machine and all
registers that hold the same arguments. -/
theorem routine_matches (hframe : c.frame = .empty) (hheaded : Headed c'.types sig h ps rs)
    (hfaithful : isFaithfulFunction sig ps rs stmts = true)
    (hends : Ends (function sig ps rs stmts) ⟨[], []⟩ .empty u v' s')
    (hcompile : Compile.routine none h (.mk stmts span) c = .ok (p, c')) :
    c'.types = c.types ∧ p.body.isStraight = true ∧ ∃ is,
      s'.code = Registers.Stream.empty.pushAll is ∧
      ∀ ctx r m file, r < m.records.size → Passed ps r m file →
        Matches (numbered ps.length rs) (p.run ctx r 0 m).outcome (Registers.runAll is file) := by
  obtain ⟨regs, v₁, s₁, outs, v₂, s₂, s₃, v₃, s₄, frees, hfirst, hsecond, hzeroes, hinUse, hstmts,
    hfrees, hfree⟩ := function_ends hends
  obtain ⟨hplength, hrlength⟩ := hheaded.lengths
  obtain ⟨rfl, hprepared⟩ := bindEach_prepared hplength hrlength hfirst hsecond
  obtain ⟨c₁, c₂, hentry, htrees, htypes', hending⟩ := routine_ok hcompile
  have henters := enterBody_enters hheaded hframe hfirst hsecond hentry
  have hcount : (numbered ps.length rs).length = c₁.frame.results.length := by
    rw [henters.results, numbered_length, Heading.resultTypes, List.length_map,
      hheaded.resultKinds.length_eq]
  have hknows : Knows c₁.frame.nested v₂.registers := by
    refine ⟨fun name reg hreg => ?_, hprepared.filled.blank⟩
    obtain ⟨w, hw, -⟩ := henters.paired.nested.named name reg hreg
    exact ⟨w, hw⟩
  obtain ⟨hkept, hstraight⟩ := statements_kept (c := { c₁ with frame := c₁.frame.nested }) hknows
    hcount hstmts htrees
  have htypes : c'.types = c.types := by rw [htypes', hkept, ← henters.types]
  refine ⟨htypes, hstraight, ?_⟩
  rw [htypes] at hheaded henters
  -- From here on the types are those at the beginning.
  have hnames : isNamed (h.results.map Prod.fst) = true →
      startsAtZero (sig.results.map Param.name) stmts = true := by
    intro hnamed
    rw [hheaded.results] at hnamed
    rw [startsAtZero, hnamed, Bool.true_or]
  have hlinked := henters.linked hprepared hnames
  have hbound : Bound v₂ s₃ := by
    refine hprepared.filled.toBound.of_live fun i => ?_
    rw [Registers.Lowering.isLive, hinUse]
    rfl
  have hyields : endsInValues stmts = false →
      Yields (Compile.endingOf c.types c₁.frame) (numbered ps.length rs)
        (sources c₁.frame.slots (numbered ps.length rs)) ∧
      (∀ q ∈ sources c₁.frame.slots (numbered ps.length rs),
        q ∈ sources c₁.frame.slots
          (linkedAtStart (startsAtZero (sig.results.map Param.name) stmts) ps rs)) ∧
      ∀ n, some n ∈ sig.results.map Param.name →
        (!endsInValues stmts && (sig.results.map Param.name).contains (some n)) = true := by
    intro hvalues
    have hzero : startsAtZero (sig.results.map Param.name) stmts = true := by
      rw [startsAtZero, hvalues, Bool.not_false, Bool.or_true]
    refine ⟨henters.yields hheaded.resultKinds, fun q hq => ?_, fun n hn => ?_⟩
    · obtain ⟨hmem, hsource⟩ := mem_sources.1 hq
      refine mem_sources.2 ⟨List.mem_append_right _ ?_, hsource⟩
      rw [hzero, if_pos rfl]
      exact hmem
    · rw [hvalues, List.contains_iff_mem.2 hn]
      rfl
  rw [← henters.types] at hlinked hyields
  have hresults : List.Forall₂ (fun out ty => ofKind? (c₁.types.kind ty) = some out.kind)
      (numbered ps.length rs) c₁.frame.results := by
    rw [henters.types, henters.results]
    exact forall₂_numbered hheaded.resultKinds ps.length
  obtain ⟨is, hfinished⟩ := statements_finish (c := { c₁ with frame := c₁.frame.nested }) hbound
    hlinked hprepared.results hresults rfl hyields
    (by rw [numbered_kinds, hprepared.kinds]; exact hfaithful) hstmts htrees
  refine ⟨(v₂.bound.map .alloc ++ if startsAtZero (sig.results.map Param.name) stmts then
    (numbered ps.length rs).map zeroing else []) ++ is ++ frees, ?_,
    fun ctx r m file hr hpassed => ?_⟩
  · rw [hfrees, hfinished.code, hzeroes, hprepared.code]
    simp only [Registers.Stream.pushAll_append]
  · obtain ⟨m', log, hexec, hagree⟩ := henters.agree hprepared _ hr hpassed
    have hmatches := hfinished.run ctx r 0 m' _ hagree
    rw [run_entered hexec, hending, hfinished.last, hprepared.bound, List.append_assoc,
      Registers.runAll_append, runAll_start]
    change Matches _ _ (Registers.runAll (is ++ frees) _)
    rw [Registers.runAll_append]
    cases hrun : Registers.runAll is (fileAtStart
        (startsAtZero (sig.results.map Param.name) stmts) ps rs file) with
    | error err => rwa [hrun] at hmatches
    | ok file' =>
        rw [hrun] at hmatches
        change Matches _ _ (Registers.runAll frees file')
        rwa [hfree]

/-! ### Register code and calls -/

/-- Register code is what is written for a function. -/
theorem ends_of_ofFunc? {decl : FuncDecl} {params results : List ScriptCore.Kind}
    {code : Registers.Stream} (hcontent : decl.body = some (.mk stmts span))
    (hparams : ofKinds? params = some ps) (hresults : ofKinds? results = some rs)
    (hcode : ofFunc? decl params results = .ok (some code)) :
    ∃ u v s, Ends (function decl.sig ps rs stmts) ⟨[], []⟩ .empty u v s ∧ code = s.code := by
  simp only [ofFunc?, hcontent, hparams, hresults, Block.stmts] at hcode
  split at hcode
  · cases hcode
  · split at hcode
    · rename_i u v s hrun
      cases hcode
      exact ⟨u, v, s, hrun, rfl⟩
    · cases hcode
    · cases hcode

/-- A register has the kind at its place. -/
theorem kind_of_mem_numbered {n : Nat} {ks : List Registers.Kind} {reg : Registers.Reg}
    (hmem : reg ∈ numbered n ks) : ∃ i, reg.id = n + i ∧ ks[i]? = some reg.kind := by
  induction ks generalizing n with
  | nil => cases hmem
  | cons k ks ih =>
      rw [numbered, List.mem_cons] at hmem
      rcases hmem with rfl | hmem
      · exact ⟨0, rfl, rfl⟩
      · obtain ⟨i, hid, hkind⟩ := ih hmem
        exact ⟨i + 1, by omega, hkind⟩

/-- A body that ends as register code does comes to an end. -/
theorem Matches.ne_timeout {outs : List Registers.Reg} {o : Outcome} {e : Except EvalError File}
    (hmatches : Matches outs o e) : o ≠ .timeout := by
  cases e <;> rw [Matches] at hmatches <;> subst hmatches <;> exact nofun

/-- A body that ends as register code does has the same results. -/
theorem Matches.results {outs : List Registers.Reg} {o : Outcome} {e : Except EvalError File}
    (hmatches : Matches outs o e) :
    o.results = (e.map fun file => outs.map fun out => file.values out.id).mapError .error := by
  cases e <;> rw [Matches] at hmatches <;> subst hmatches <;> rfl

/-- A call begins with its arguments in the first slots. -/
theorem passed_calling {body : Code.Body} {outer : Nat} {args : List Value} {file : File}
    (hargs : List.Forall₂ Registers.Kind.Has ps args)
    (hfile : ∀ i w, args[i]? = some w → file.values i = w) (m : Machine) :
    Passed ps m.records.size (m.calling body outer args) file := by
  intro b hb
  obtain ⟨i, hid, hkind⟩ := kind_of_mem_numbered hb
  obtain ⟨hi, hget⟩ := List.getElem?_eq_some_iff.1 hkind
  have hi' : i < args.length := by rwa [← hargs.length_eq]
  have harg : args[i]? = some args[i] := List.getElem?_eq_getElem hi'
  have hslot : ((m.calling body outer args).record m.records.size).get i = args[i] := by
    simp [Machine.record, Machine.calling, Record.new, Record.get, List.getElem?_append_left hi',
      harg]
  rw [hid, Nat.zero_add, hslot, hfile i _ harg, ← hget]
  exact ⟨rfl, (List.forall₂_iff_get.1 hargs).2 i hi hi'⟩

end StraightLine

/-- What register code gives: it is run on registers of which the first ones hold the arguments, and
the next ones hold the results in the end.  No result is released before all are computed, and a
release changes no register. -/
def Registers.Stream.results? (code : Stream) (params results : Nat) (file : File) :
    Option (Except EvalError (List Value)) :=
  code.instrs?.map fun is =>
    (runAll is file).map fun after => (List.range' params results).map after.values

namespace Compile

open StraightLine

/-- The types of parameters or results have the kinds of registers. -/
theorem kinds_of_ofKinds? {t : TypeTable} {entries : List (Option Name × Ty)}
    {ks : List Registers.Kind} (h : ofKinds? ((entries.map Prod.snd).map t.kind) = some ks) :
    List.Forall₂ (fun e k => ofKind? (t.kind e.2) = some k) entries ks := by
  induction entries generalizing ks with
  | nil =>
      cases h
      exact .nil
  | cons e entries ih =>
      simp only [ofKinds?, List.map_cons, List.mapM_cons, Option.bind_eq_bind,
        Option.bind_eq_some_iff, Option.pure_def, Option.some.injEq] at h
      obtain ⟨k, hk, ks, hks, rfl⟩ := h
      exact .cons hk (ih hks)

variable {decl : FuncDecl} {stmts : List Stmt} {span : Span} {h : Heading}
  {ps rs : List Registers.Kind} {c c₁ c₂ : Compiler} {body : Code.Body} {code : Registers.Stream}

/-- **Register code agrees with code with slots**: for every function that has both, a call with
arguments of the kinds of the parameters gives the results that register code gives, or fails with
the same error. -/
theorem lowered_agrees (hheading : heading decl.sig c = .ok (h, c₁))
    (hcontent : decl.body = some (.mk stmts span))
    (hcompile : inFrame false (assembled (bodyOf none h (block (.mk stmts span)))) c₁ =
      .ok (body, c₂))
    (hparams : ofKinds? (h.paramTypes.map c₂.types.kind) = some ps)
    (hresults : ofKinds? (h.resultTypes.map c₂.types.kind) = some rs)
    (hcode : ofFunc? decl (h.paramTypes.map c₂.types.kind) (h.resultTypes.map c₂.types.kind) =
      .ok (some code))
    (hfaithful : isFaithfulFunction decl.sig ps rs stmts = true) {p : Setting} {m : Machine}
    {ref outer fuel : Nat} {name : Name} {args : List Value} {file : File}
    (hfunction : m.functions[ref]? = some (.closure body outer))
    (hlimit : p.limit.any (fun l => decide (l ≤ m.depth)) = false)
    (hsize : body.instrs.size ≤ Labels.unbound) (hfuel : body.instrs.size < fuel)
    (hargs : List.Forall₂ Registers.Kind.Has ps args)
    (hfile : ∀ i w, args[i]? = some w → file.values i = w) :
    ∃ res, code.results? ps.length rs.length file = some res ∧
      Run.results (callValue p (fuel + 1) (.func ref name) args) m = res.mapError .error := by
  obtain ⟨u, v, s, hends, rfl⟩ := ends_of_ofFunc? hcontent hparams hresults hcode
  obtain ⟨q, c₃, hroutine, rfl, rfl⟩ := routine_of_body hcompile
  obtain ⟨hentry, hwell⟩ := routine_wellFormed none h (.mk stmts span) (c₁.entered false) _ hroutine
  obtain ⟨hnames, hnames'⟩ := heading_fst decl.sig c _ hheading
  have hheaded : Headed c₃.types decl.sig h ps rs :=
    ⟨hnames, hnames', kinds_of_ofKinds? hparams, kinds_of_ofKinds? hresults⟩
  obtain ⟨-, hstraight, is, hcode', hmatches⟩ :=
    routine_matches rfl hheaded hfaithful hends hroutine
  have hr : m.records.size < (m.calling ((q.write .empty).body c₃.frame.slots) outer
      args).records.size := by
    rw [Machine.calling, Array.size_push]
    exact Nat.lt_succ_self _
  have hrun := hmatches ⟨p.types, callValue p fuel⟩ _ _ file hr (passed_calling hargs hfile m)
  rw [callValue_closure hfunction hlimit, Registers.Stream.results?, hcode',
    Registers.Stream.instrs?_pushAll, Option.map_some, Registers.runAll_filter]
  refine ⟨_, rfl, ?_⟩
  rw [Routine.results_eq hentry hwell hstraight hsize hfuel hrun.ne_timeout, hrun.results]
  simp only [← numbered_ids, List.map_map]
  rfl

/-- The state of a compiler before the first declaration. -/
def blank : Compiler :=
  .start default ⟨[], [], 0⟩ true

/-- Registers of which the first ones hold the given values. -/
def fileOf (args : List Value) : File :=
  ⟨fun _ => .int, fun i => args[i]?.getD .nil⟩

/-- Registers hold the values they are given. -/
theorem fileOf_values {args : List Value} {i : Nat} {w : Value} (h : args[i]? = some w) :
    (fileOf args).values i = w := by
  simp only [fileOf, h, Option.getD_some]

/-- The statements `z := x * x; return z / y`. -/
def quotientStmts : List Stmt :=
  let mention (name : Name) : Expr := .node .none (.ident name)
  [.node .none (.define ["z"] [.node .none (.binary .mul (mention "x") (mention "x"))]),
    .node .none (.return [.node .none (.binary .div (mention "z") (mention "y"))])]

/-- The function `func f(x, y int) int { z := x * x; return z / y }`. -/
def quotient : FuncDecl :=
  let int : TypeExpr := .node .none (.named "int")
  ⟨"f", none, .mk [.mk (some "x") int, .mk (some "y") int] [.mk none int] false,
    some (.mk quotientStmts .none), .none⟩

/-- The heading of `quotient`. -/
def quotientHeading : Heading :=
  ⟨[(some "x", .basic .int), (some "y", .basic .int)], [(none, .basic .int)], false⟩

/-- The code of `quotient`. -/
def quotientBody : Code.Body :=
  let var (slot : Nat) : Code.Expr := .expect .int (.load 0 slot)
  ⟨#[.setSlots [(some 2, .binary .mul .int (var 0) (var 0))],
    .ret [.binary .div .int (var 2) (var 1)], .ret [.const (.int 0)]], [], 3⟩

/-- The register code of `quotient`. -/
def quotientCode : Registers.Stream :=
  Registers.Stream.empty.pushAll [.alloc ⟨0, .int⟩, .alloc ⟨1, .int⟩, .alloc ⟨2, .int⟩,
    .alloc ⟨3, .int⟩, .binary .mul (.reg 0) (.reg 0) 3, .binary .div (.reg 3) (.reg 1) 2,
    .free ⟨0, .int⟩, .free ⟨1, .int⟩, .free ⟨2, .int⟩, .free ⟨3, .int⟩]

/-- Both codes of `quotient` divide by zero when they are given a zero to divide by. -/
theorem quotientCode_agrees :
    heading quotient.sig blank = .ok (quotientHeading, blank) ∧
    quotient.body = some (.mk quotientStmts .none) ∧
    inFrame false
      (assembled (bodyOf none quotientHeading (block (.mk quotientStmts .none)))) blank =
        .ok (quotientBody, blank) ∧
    ofFunc? quotient [.int, .int] [.int] = .ok (some quotientCode) ∧
    isFaithfulFunction quotient.sig [.int, .int] [.int] quotientStmts = true ∧
    ∃ res, quotientCode.results? 2 1 (fileOf [.int 3, .int 0]) = some res ∧
      Run.results (callValue ⟨default, #[], none⟩ 5 (.func 0 "f") [.int 3, .int 0])
        (.start #[.closure quotientBody 0] #[]) = res.mapError .error := by
  have hheading : heading quotient.sig blank = .ok (quotientHeading, blank) := rfl
  have hcompile : inFrame false
      (assembled (bodyOf none quotientHeading (block (.mk quotientStmts .none)))) blank =
        .ok (quotientBody, blank) := by cbv
  have hcode : ofFunc? quotient [.int, .int] [.int] = .ok (some quotientCode) := by cbv
  have hfaithful : isFaithfulFunction quotient.sig [.int, .int] [.int] quotientStmts = true := rfl
  have hargs : List.Forall₂ Registers.Kind.Has [.int, .int] [.int 3, .int 0] :=
    .cons ⟨3, rfl⟩ (.cons ⟨0, rfl⟩ .nil)
  exact ⟨hheading, rfl, hcompile, hcode, hfaithful,
    lowered_agrees hheading rfl hcompile rfl rfl hcode hfaithful rfl rfl (by decide) (by decide)
      hargs fun _ _ => fileOf_values⟩

/-- The statements `a = 1; b = 2; return b, a`. -/
def exchangeStmts : List Stmt :=
  let mention (name : Name) : Expr := .node .none (.ident name)
  [.node .none (.assign [mention "a"] [.node .none (.int 1)]),
    .node .none (.assign [mention "b"] [.node .none (.int 2)]),
    .node .none (.return [mention "b", mention "a"])]

/-- The function `func f() (a, b int) { a = 1; b = 2; return b, a }`. -/
def exchange : FuncDecl :=
  let int : TypeExpr := .node .none (.named "int")
  ⟨"f", none, .mk [] [.mk (some "a") int, .mk (some "b") int] false,
    some (.mk exchangeStmts .none), .none⟩

/-- The heading of `exchange`. -/
def exchangeHeading : Heading :=
  ⟨[], [(some "a", .basic .int), (some "b", .basic .int)], false⟩

/-- The code of `exchange`. -/
def exchangeBody : Code.Body :=
  ⟨#[.setSlots [(some 0, .const (.int 0)), (some 1, .const (.int 0))],
    .store (.var 0 0) none (.const (.int 1)), .store (.var 0 1) none (.const (.int 2)),
    .ret [.expect .int (.load 0 1), .expect .int (.load 0 0)], .ret [.load 0 0, .load 0 1]], [], 2⟩

/-- The register code of `exchange`. -/
def exchangeCode : Registers.Stream :=
  Registers.Stream.empty.pushAll [.alloc ⟨0, .int⟩, .alloc ⟨1, .int⟩,
    .update .assign (.imm ⟨0, .int⟩) (.reg 0), .update .assign (.imm ⟨0, .int⟩) (.reg 1),
    .update .assign (.imm ⟨1, .int⟩) (.reg 0), .update .assign (.imm ⟨2, .int⟩) (.reg 1),
    .update .assign (.reg 1) (.reg 0), .update .assign (.reg 0) (.reg 1),
    .free ⟨0, .int⟩, .free ⟨1, .int⟩]

/-- Register code that stores the first value where the second one is read gives the one twice. -/
theorem exchangeCode_disagrees :
    heading exchange.sig blank = .ok (exchangeHeading, blank) ∧
    exchange.body = some (.mk exchangeStmts .none) ∧
    inFrame false
      (assembled (bodyOf none exchangeHeading (block (.mk exchangeStmts .none)))) blank =
        .ok (exchangeBody, blank) ∧
    ofFunc? exchange [] [.int, .int] = .ok (some exchangeCode) ∧
    exchangeCode.results? 0 2 (fileOf []) = some (.ok [.int 2, .int 2]) ∧
    Run.results (callValue ⟨default, #[], none⟩ 10 (.func 0 "f") [])
      (.start #[.closure exchangeBody 0] #[]) = .ok [.int 2, .int 1] := by
  have hheading : heading exchange.sig blank = .ok (exchangeHeading, blank) := rfl
  have hcompile : inFrame false
      (assembled (bodyOf none exchangeHeading (block (.mk exchangeStmts .none)))) blank =
        .ok (exchangeBody, blank) := by cbv
  have hcode : ofFunc? exchange [] [.int, .int] = .ok (some exchangeCode) := by cbv
  exact ⟨hheading, rfl, hcompile, hcode, by cbv, by cbv⟩

end Compile

end ScriptCore
