import Mathlib.Data.List.Forall2
import ScriptCore.Proofs.Control.Agreement
import ScriptCore.Proofs.Straight.Statement

/-!
# Returned values

Code with slots evaluates all returned values before it returns any.  Register code computes one
after the other into the registers of the results, so that a value which reads a result must come
before that result is overwritten.  Falling off the end returns what the named results hold, or
zero; the registers of the results hold the same.

Main statements: `return_simulates` and `statements_finish`.
-/

namespace ScriptCore

open Registers (File)

namespace StraightLine

/-! ### What an expression mentions -/

/-- The name occurs in an expression. -/
def mentions (name : Name) : Expr → Bool
  | .node _ (.ident other) => other == name
  | .node _ (.paren e) => mentions name e
  | .node _ (.unary _ e) => mentions name e
  | .node _ (.binary _ a b) => mentions name a || mentions name b
  | _ => false

/-- No value mentions a result to which a value has been returned before, unless that was the value
of the result itself. -/
def returnsInOrder : List (Option Name) → List Expr → Bool
  | some name :: names, value :: values =>
    (nameOf? value == some name || values.all fun e => !mentions name e) &&
      returnsInOrder names values
  | none :: names, _ :: values => returnsInOrder names values
  | _, _ => true

/-- Returned values are exact at the kinds of the results. -/
def returnsExactly (kinds : Name → Option Registers.Kind) : List Registers.Kind → List Expr → Bool
  | k :: ks, value :: values => isExact kinds k value && returnsExactly kinds ks values
  | _, _ => true

variable {t : TypeTable} {f : Frame} {v v' : Variables} {s s' : Registers.Lowering}
  {links links' : Links} {c c' : Compiler} {ctx : Context} {r fuel : Nat} {m : Machine}
  {file file' : File} {reg : Registers.Reg} {k : Registers.Kind}
  {registers : List (Name × Registers.Reg)}

/-- An expression reads the registers of the variables it mentions. -/
theorem Translates.value_congr {e : Expr} {x : Registers.Expr} (h : Translates registers k e x)
    (hsame : ∀ name reg, mentions name e = true → register? registers name = some reg →
      file'.values reg.id = file.values reg.id) : x.value file' = x.value file := by
  induction h with
  | ident span name reg hreg =>
      have hself := hsame name reg (by simp [mentions]) hreg
      rw [Registers.Expr.value, Registers.Expr.value, hself]
  | literal => rfl
  | paren span _ ih | plus span _ ih =>
      exact ih fun name reg hname => hsame name reg (by simpa [mentions] using hname)
  | unary span op hop _ ih =>
      rw [Registers.Expr.value, Registers.Expr.value,
        ih fun name reg hname => hsame name reg (by simpa [mentions] using hname)]
  | binary span op hop _ _ ihA ihB =>
      rw [Registers.Expr.value, Registers.Expr.value,
        ihA fun name reg hname => hsame name reg (by simp [mentions, hname]),
        ihB fun name reg hname => hsame name reg (by simp [mentions, hname])]

/-- A variable is read from its register. -/
theorem exprOf?_name {e : Expr} {name : Name} {x : Registers.Expr} (hname : nameOf? e = some name)
    (hx : exprOf? registers k e = some x) :
    ∃ reg, register? registers name = some reg ∧ x = .reg reg := by
  have h := translates hx
  clear hx
  induction h with
  | ident span other reg hreg =>
      cases hname
      exact ⟨reg, hreg, rfl⟩
  | paren span _ ih => exact ih hname
  | literal | plus | unary | binary => cases hname

/-! ### Returns -/

/-- Returned values are assigned to the registers of the results. -/
theorem returnValues_ends {outs : List Registers.Reg} {values : List Expr} {u : Unit}
    (h : Ends (returnValues outs values) v s u v' s') :
    values = [] ∧ v = v' ∧ s = s' ∨
      values ≠ [] ∧ values.length = outs.length ∧ Ends (assignEach outs values) v s u v' s' := by
  cases values with
  | nil =>
      simp only [returnValues, List.isEmpty_nil, if_true] at h
      obtain ⟨-, rfl, rfl⟩ := ends_pure.1 h
      exact .inl ⟨rfl, rfl, rfl⟩
  | cons value rest =>
      simp only [returnValues, List.isEmpty_cons, Bool.false_eq_true, if_false] at h
      by_cases hlength : (value :: rest).length = outs.length
      · simp only [hlength, ne_eq, not_true_eq_false, if_false] at h
        exact .inr ⟨by simp, hlength, h⟩
      · simp only [ne_eq, hlength, not_false_eq_true, if_true] at h
        obtain ⟨_, _, _, hrefuse, -⟩ := ends_bind.1 h
        exact absurd hrefuse not_ends_refuse

/-- The results among the variables: they have registers of their own, and a register of a result
only has the name of that result. -/
structure Results (v : Variables) (outs : List Registers.Reg) (names : List (Option Name)) :
    Prop where
  bound : ∀ out ∈ outs, out ∈ v.bound
  nodup : outs.Nodup
  names : List.Forall₂ (fun out name => ∀ n, register? v.registers n = some out → name = some n)
    outs names

/-- A value that is returned compiles to code that computes it, and to register code that puts it
into the register of the result. -/
theorem value_returned {out : Registers.Reg} {value : Expr} {ty : Ty} {e : Code.Expr} {u : Unit}
    (hbound : Bound v s) (hlinked : Linked c.types c.frame v links) (hout : out ∈ v.bound)
    (hkind : ofKind? (c.types.kind ty) = some out.kind)
    (hexact : isExact (kindsIn v.registers) out.kind value = true)
    (hends : Ends (assign out value) v s u v' s')
    (hcompile : Compile.converted (Compile.operand value) ty c = .ok (e, c')) :
    c' = c ∧ v' = v ∧ ∃ x is, exprOf? v.registers out.kind value = some x ∧
      Registers.Writes is s s' ∧
      (∀ file, (∀ b ∈ v.bound, file.kinds b.id = b.kind) →
        Registers.Puts is s out.id file (x.value file)) ∧
      ∀ ctx r m file, Agree v links r m file → eval ctx r e m = Run.check (x.value file) m := by
  obtain ⟨x, hx, hassign, rfl⟩ := assign_ends hends
  obtain ⟨o, c₁, ho, hcompile⟩ := Compile.bind_ok.1 hcompile
  obtain ⟨te, c₂, hte, hcompile⟩ := Compile.bind_ok.1 hcompile
  obtain ⟨hvalue, rfl⟩ := Compile.rule_ok.1 hte
  obtain ⟨rfl, rfl⟩ := Compile.pure_ok.1 hcompile
  obtain ⟨rfl, z, rfl, hcompiled⟩ := operand_straight hlinked.scoped (translates hx)
    (ofKind?_isInteger hkind) hexact ho
  have hrender : Renders c₁.frame v'.registers out.kind x te := hcompiled.valueFor hkind hvalue
  obtain ⟨is, hwrites, hputs⟩ := Registers.assign_spec hassign
    ((translates hx).live fun name b hb => hbound.live b (hbound.mem name b hb))
    (hbound.live out hout)
  refine ⟨rfl, rfl, x, is, hx, hwrites, fun file hkinds => hputs file ?_,
    fun ctx r m file hagree => hrender.value ctx r m file (hagree.sees hlinked)⟩
  rw [hkinds out hout, (translates hx).kind_eq]

/-- All values are computed, and the registers of the results hold them while the other registers
hold what they held; or the first error ends both. -/
def Collects (v : Variables) (outs : List Registers.Reg) (ctx : Context) (r : Nat) (m : Machine)
    (es : List Code.Expr) (file : File) : Except EvalError File → Prop
  | .ok file' =>
    evalAll ctx r es m = .ok (outs.map fun out => file'.values out.id) m ∧
      ∀ b ∈ v.bound, b ∉ outs → file'.values b.id = file.values b.id
  | .error err => evalAll ctx r es m = .error (.error err) m

/-- A value and the values after it. -/
theorem Collects.cons {out : Registers.Reg} {outs : List Registers.Reg} {e : Code.Expr}
    {es : List Code.Expr} {is js : List Registers.Instr} {res : Except EvalError Value}
    (hbound : Bound v s) (hout : out ∈ v.bound) (hnew : out ∉ outs)
    (heval : eval ctx r e m = Run.check res m) (hputs : Registers.Puts is s out.id file res)
    (hrest : ∀ w file₁, res = .ok w → (file.set out.id w).Keeps s file₁ →
      Collects v outs ctx r m es file₁ (Registers.runAll js file₁)) :
    Collects v (out :: outs) ctx r m (e :: es) file (Registers.runAll (is ++ js) file) := by
  rw [Registers.runAll_append]
  cases res with
  | error err =>
      rw [show Registers.runAll is file = .error err from hputs]
      change evalAll ctx r (e :: es) m = _
      rw [evalAll, Run.bind_checked heval]
      rfl
  | ok w =>
      obtain ⟨file₁, hrun, hkeeps⟩ := hputs
      rw [hrun]
      change Collects v (out :: outs) ctx r m (e :: es) file (Registers.runAll js file₁)
      have hcollects := hrest w file₁ rfl hkeeps
      have hall : evalAll ctx r (e :: es) m = (do return w :: (← evalAll ctx r es)) m := by
        rw [evalAll, Run.bind_checked heval]
        rfl
      have hself : file₁.values out.id = w := hbound.values_self hout hkeeps
      cases hlast : Registers.runAll js file₁ with
      | error err =>
          rw [hlast] at hcollects
          change evalAll ctx r (e :: es) m = _
          simp only [hall, Bind.bind, EStateM.bind,
            show evalAll ctx r es m = .error (.error err) m from hcollects]
      | ok file' =>
          rw [hlast] at hcollects
          obtain ⟨hvalues, hothers⟩ := hcollects
          constructor
          · simp only [hall, Bind.bind, EStateM.bind, hvalues, List.map_cons,
              hothers out hout hnew, hself]
            rfl
          · intro b hb hnot
            rw [hothers b hb (List.not_mem_of_not_mem_cons hnot),
              hbound.values_ne hout hkeeps hb (List.ne_of_not_mem_cons hnot)]

/-- Registers that values mention still hold what they held after a value has been returned before
them. -/
theorem reads_after {out : Registers.Reg} {name : Option Name} {value : Expr} {values : List Expr}
    {x : Registers.Expr} {w : Value} {file₀ file₁ : File} (hbound : Bound v s)
    (hout : out ∈ v.bound) (hname : ∀ n, register? v.registers n = some out → name = some n)
    (hx : exprOf? v.registers k value = some x) (hw : x.value file = .ok w)
    (horder : ∀ n, name = some n →
      nameOf? value = some n ∨ ∀ e ∈ values, mentions n e = false)
    (hkeeps : (file.set out.id w).Keeps s file₁)
    (hreads : ∀ e ∈ values, ∀ n reg, mentions n e = true → register? v.registers n = some reg →
      file.values reg.id = file₀.values reg.id) :
    ∀ e ∈ values, ∀ n reg, mentions n e = true → register? v.registers n = some reg →
      file₁.values reg.id = file₀.values reg.id := by
  intro e he n reg hmentions hreg
  rw [← hreads e he n reg hmentions hreg]
  by_cases heq : reg = out
  · subst heq
    rcases horder n (hname n hreg) with hself | hnone
    · -- The result itself was returned: its register holds what it held.
      obtain ⟨reg', hreg', rfl⟩ := exprOf?_name hself hx
      obtain rfl : reg = reg' := Option.some.inj (hreg.symm.trans hreg')
      cases hw
      exact hbound.values_self hout hkeeps
    · rw [hnone e he] at hmentions
      cases hmentions
  · exact hbound.values_ne hout hkeeps (hbound.mem n reg hreg) heq

/-- **Returned values** are those that the registers of the results hold in the end: the induction
is on the results, and `file₀` are the registers before the first value was returned. -/
theorem values_collected {outs : List Registers.Reg} {values : List Expr}
    {names : List (Option Name)} {want : List Ty} {es : List Code.Expr} {u : Unit}
    (hbound : Bound v s) (hlinked : Linked c.types c.frame v links)
    (hresults : Results v outs names)
    (htypes : List.Forall₂ (fun out ty => ofKind? (c.types.kind ty) = some out.kind) outs want)
    (hlength : values.length = outs.length)
    (hexact : returnsExactly (kindsIn v.registers) (outs.map Registers.Reg.kind) values = true)
    (horder : returnsInOrder names values = true)
    (hends : Ends (assignEach outs values) v s u v' s')
    (hcompile : Compile.convertEach (Compile.operands values) want c = .ok (es, c')) :
    c' = c ∧ v' = v ∧ ∃ is, Registers.Writes is s s' ∧ ∀ ctx r m file₀ file,
      Agree v links r m file₀ → (∀ b ∈ v.bound, file.kinds b.id = b.kind) →
      (∀ e ∈ values, ∀ n reg, mentions n e = true → register? v.registers n = some reg →
        file.values reg.id = file₀.values reg.id) →
      Collects v outs ctx r m es file (Registers.runAll is file) := by
  induction outs generalizing values names want es s u with
  | nil =>
      obtain rfl : values = [] := List.length_eq_zero_iff.1 hlength
      obtain ⟨-, rfl, rfl⟩ := ends_pure.1 hends
      obtain ⟨rfl, rfl⟩ := Compile.pure_ok.1 hcompile
      exact ⟨rfl, rfl, [], ⟨rfl, fun _ => Iff.rfl⟩, fun _ _ _ _ _ _ _ _ => ⟨rfl, fun _ _ _ => rfl⟩⟩
  | cons out outs ih =>
      obtain ⟨value, values, rfl⟩ := List.exists_cons_of_length_eq_add_one hlength
      obtain ⟨hmem, hnodup, hnames⟩ := hresults
      obtain ⟨name, names, hname, hothers, rfl⟩ := List.forall₂_cons_left_iff.1 hnames
      obtain ⟨ty, want, hkind, hkinds, rfl⟩ := List.forall₂_cons_left_iff.1 htypes
      obtain ⟨hnew, hnodup⟩ := List.nodup_cons.1 hnodup
      have hout : out ∈ v.bound := hmem out List.mem_cons_self
      rw [List.map_cons, returnsExactly, Bool.and_eq_true] at hexact
      rw [assignEach, ends_bind] at hends
      obtain ⟨_, v₁, s₁, hfirst, hends⟩ := hends
      rw [Compile.operands, Compile.convertEach] at hcompile
      obtain ⟨e, c₁, hone, hcompile⟩ := Compile.bind_ok.1 hcompile
      obtain ⟨es, c₂, hmore, hcompile⟩ := Compile.bind_ok.1 hcompile
      obtain ⟨rfl, rfl⟩ := Compile.pure_ok.1 hcompile
      obtain ⟨rfl, rfl, x, is, hx, hwrites, hputs, heval⟩ :=
        value_returned hbound hlinked hout hkind hexact.1 hfirst hone
      have hbound₁ : Bound v₁ s₁ := hbound.of_live hwrites.live
      have hsplit : (∀ n, name = some n →
          nameOf? value = some n ∨ ∀ e ∈ values, mentions n e = false) ∧
          returnsInOrder names values = true := by
        cases name with
        | none => exact ⟨fun n hn => (nomatch hn), by simpa [returnsInOrder] using horder⟩
        | some n =>
            simp only [returnsInOrder, Bool.and_eq_true, Bool.or_eq_true, beq_iff_eq,
              List.all_eq_true, Bool.not_eq_true'] at horder
            refine ⟨fun n' hn => ?_, horder.2⟩
            cases hn
            exact horder.1
      obtain ⟨rfl, rfl, js, hwrites', hcollects⟩ := ih hbound₁
        ⟨fun b hb => hmem b (List.mem_cons_of_mem out hb), hnodup, hothers⟩ hkinds
        (by simpa using hlength) hexact.2 hsplit.2 hends hmore
      refine ⟨rfl, rfl, is ++ js, ⟨?_, fun i => (hwrites'.live i).trans (hwrites.live i)⟩,
        fun ctx r m file₀ file hagree hkinds hreads => ?_⟩
      · rw [hwrites'.code, hwrites.code, Registers.Stream.pushAll_append]
      · have hsame : x.value file = x.value file₀ := (translates hx).value_congr
          fun n reg hn hreg => hreads value List.mem_cons_self n reg hn hreg
        have hfirst := heval ctx r m file₀ hagree
        rw [← hsame] at hfirst
        refine .cons hbound hout hnew hfirst (hputs file hkinds) fun w file₁ hw hkeeps => ?_
        exact hcollects ctx r m file₀ file₁ hagree (hbound.kinds hkeeps hkinds)
          (reads_after hbound hout hname hx hw hsplit.1 hkeeps
            fun e he => hreads e (List.mem_cons_of_mem value he))

end StraightLine

/-! ### Return statements -/

namespace Compile

variable {c c' : Compiler} {i : Code.Instr}

/-- A return without values returns what falling off the end returns. -/
theorem returnStmt_nil (h : returnStmt [] c = .ok (i, c')) :
    c' = c ∧ i = (endingOf c.types c.frame).instr := by
  rw [returnStmt, returnNothing] at h
  obtain ⟨c₁, c₂, hget, h⟩ := bind_ok.1 h
  cases hget
  unfold endingOf
  cases hnamed : c.frame.namedResults with
  | some slots =>
      simp only [hnamed] at h
      obtain ⟨rfl, rfl⟩ := pure_ok.1 h
      exact ⟨rfl, rfl⟩
  | none =>
      simp only [hnamed] at h
      cases hresults : c.frame.results with
      | nil =>
          simp only [hresults, List.isEmpty_nil, if_true] at h
          obtain ⟨rfl, rfl⟩ := pure_ok.1 h
          exact ⟨rfl, rfl⟩
      | cons ty types =>
          simp only [hresults, List.isEmpty_cons, Bool.false_eq_true, if_false] at h
          exact absurd h fail_ok

/-- As many values as there are results are converted to their types. -/
theorem returnEach_ok {values : List (Compile Operand)} (h : returnEach values c = .ok (i, c')) :
    ∃ es, convertEach values c.frame.results c = .ok (es, c') ∧ i = .ret es := by
  obtain ⟨c₁, c₂, hget, h⟩ := bind_ok.1 h
  cases hget
  split at h
  · obtain ⟨_, _, hfail, -⟩ := bind_ok.1 h
    exact absurd hfail fail_ok
  · obtain ⟨es, c₃, hes, h⟩ := bind_ok.1 h
    obtain ⟨rfl, rfl⟩ := pure_ok.1 h
    exact ⟨es, hes, rfl⟩

/-- A return of as many values as there are results. -/
theorem returnStmt_ok {values : List (Compile Operand)} (hne : values ≠ [])
    (hlength : values.length = c.frame.results.length) (h : returnStmt values c = .ok (i, c')) :
    ∃ es, convertEach values c.frame.results c = .ok (es, c') ∧ i = .ret es := by
  match values, hne with
  | [value], _ =>
      rw [returnStmt] at h
      obtain ⟨c₁, c₂, hget, h⟩ := bind_ok.1 h
      cases hget
      have hone : c.frame.results.length = 1 := hlength.symm
      rw [if_pos hone] at h
      exact returnEach_ok h
  | first :: second :: rest, _ => exact returnEach_ok h

end Compile

namespace StraightLine

variable {t : TypeTable} {f : Frame} {v v' : Variables} {s s' : Registers.Lowering}
  {links links' : Links} {c c' : Compiler} {ctx : Context} {r fuel : Nat} {m : Machine}
  {file file' : File} {outs : List Registers.Reg} {names : List (Option Name)}

/-! ### The end of a body -/

/-- What falling off the end returns comes from the sources of the results. -/
structure Yields (ending : Ending) (outs : List Registers.Reg) (results : Links) : Prop where
  outs : results.map Prod.snd = outs
  values : ∀ r m, ending.values r m = results.map fun p => p.1.value r m p.2.kind

/-- Where slots and registers agree, falling off the end returns what the registers of the results
hold. -/
theorem Yields.eq {ending : Ending} {results : Links} (h : Yields ending outs results)
    (hagree : Agree v links r m file) (hmem : ∀ p ∈ results, p ∈ links) :
    ending.values r m = outs.map fun out => file.values out.id := by
  rw [h.values, ← h.outs, List.map_map]
  exact List.map_congr_left fun p hp => hagree.values p (hmem p hp)

/-- A run of statements up to the end of a body. -/
def finished (ctx : Context) (r fuel : Nat) (tree : Tree) (ending : Ending) (m : Machine) :
    Result :=
  (tree.exec ctx r fuel m).andThen fun m =>
    ⟨.returned (ending.values r m), m, [(.act ending.instr, m)]⟩

/-- Evaluations before a run that goes on. -/
theorem after_andThen (log : Log) (a : Result) (next : Machine → Result) :
    (a.after log).andThen next = (a.andThen next).after log := by
  obtain ⟨outcome, machine, rest⟩ := a
  cases outcome with
  | normal => simp [Result.andThen, Result.after]
  | _ => rfl

/-- A statement that ends normally is followed by the others. -/
theorem finished_seq {first rest : Tree} {ending : Ending} {m' : Machine} {log : Log}
    (h : first.exec ctx r fuel m = ⟨.normal, m', log⟩) :
    (finished ctx r fuel (.seq first rest) ending m).outcome =
      (finished ctx r fuel rest ending m').outcome := by
  have hseq : (Tree.seq first rest).exec ctx r fuel m = (rest.exec ctx r fuel m').after log := by
    rw [Tree.exec, h]
    rfl
  rw [finished, hseq, after_andThen]
  rfl

/-- A statement that fails is the end. -/
theorem finished_failed {first rest : Tree} {ending : Ending} {m' : Machine} {log : Log}
    {err : EvalError} (h : first.exec ctx r fuel m = ⟨.failed (.error err), m', log⟩) :
    (finished ctx r fuel (.seq first rest) ending m).outcome = .failed (.error err) := by
  simp only [finished, Tree.exec, h, Result.andThen]

/-- A return ends a body with its values. -/
theorem finished_ret {es : List Code.Expr} {rest : Tree} {ending : Ending} :
    (finished ctx r fuel (.seq (.act [.ret es]) rest) ending m).outcome =
      match evalAll ctx r es m with
      | .ok vs _ => .returned vs
      | .error f _ => .failed f := by
  have hret : execute ctx r (.ret es) m = match evalAll ctx r es m with
      | .ok vs m' => .ok (.stop vs) m'
      | .error f m' => .error f m' := by
    simp only [execute, Bind.bind, EStateM.bind]
    cases evalAll ctx r es m <;> rfl
  simp only [finished, Tree.exec, actAll, hret, Result.andThen]
  cases evalAll ctx r es m <;> rfl

/-- A body ends as register code does: it returns what the registers of the results hold, or fails
with the same error. -/
def Matches (outs : List Registers.Reg) (o : Outcome) : Except EvalError File → Prop
  | .ok file => o = .returned (outs.map fun out => file.values out.id)
  | .error err => o = .failed (.error err)

/-- All statements are faithful, and so is a return at the end. -/
def areFaithful (kept : Name → Bool) (names : List (Option Name)) (ks : List Registers.Kind) :
    (Name → Option Registers.Kind) → List Stmt → Bool
  | _, [] => true
  | kinds, .node _ (.return values) :: _ =>
    returnsExactly kinds ks values && returnsInOrder names values
  | kinds, .node _ kind :: rest =>
    isFaithful kinds kept kind && areFaithful kept names ks (kindsAfter kinds kind) rest

/-- What the statements of a body do to the state of both compilers, and that both codes end in the
same way. -/
structure Finished (outs : List Registers.Reg) (ending : Ending) (c' : Compiler) (v v' : Variables)
    (s s' : Registers.Lowering) (links : Links) (is : List Registers.Instr) (tree : Tree) :
    Prop where
  code : s'.code = s.code.pushAll is
  bound : Bound v' s'
  last : Compile.endingOf c'.types c'.frame = ending
  run : ∀ ctx r fuel m file, Agree v links r m file →
    Matches outs (finished ctx r fuel tree ending m).outcome (Registers.runAll is file)

/-- The end of a body without a return of values. -/
theorem finished_end {tree : Tree} {ending : Ending} {results : Links} (hbound : Bound v s)
    (hyields : Yields ending outs results) (hmem : ∀ p ∈ results, p ∈ links)
    (hending : Compile.endingOf c.types c.frame = ending)
    (hreturns : ∀ ctx r fuel m,
      (finished ctx r fuel tree ending m).outcome = .returned (ending.values r m)) :
    Finished outs ending c v v s s links [] tree where
  code := rfl
  bound := hbound
  last := hending
  run ctx r fuel m file hagree := by
    rw [hreturns, hyields.eq hagree hmem]
    rfl

/-- A statement is none that returns. -/
theorem statement_ne_return {kind : StmtKind} {u : Unit}
    (h : Ends (statement kind) v s u v' s') (values : List Expr) : kind ≠ .return values := by
  rintro rfl
  exact not_ends_refuse h

/-- A statement that does not return is followed by faithful ones. -/
theorem areFaithful_cons {kept : Name → Bool} {ks : List Registers.Kind}
    {kinds : Name → Option Registers.Kind} {span : Span} {kind : StmtKind} {rest : List Stmt}
    (hne : ∀ values, kind ≠ .return values) :
    areFaithful kept names ks kinds (.node span kind :: rest) =
      (isFaithful kinds kept kind && areFaithful kept names ks (kindsAfter kinds kind) rest) := by
  cases kind with
  | «return» values => exact absurd rfl (hne values)
  | _ => rfl

/-- What a body ends in does not depend on a statement that does not return. -/
theorem endsInValues_cons {span : Span} {kind : StmtKind} {rest : List Stmt}
    (hne : ∀ values, kind ≠ .return values) :
    endsInValues (.node span kind :: rest) = endsInValues rest := by
  cases rest with
  | nil =>
      cases kind with
      | «return» values => exact absurd rfl (hne values)
      | _ => rfl
  | cons other rest => rw [endsInValues, endsInValues, List.getLast?_cons_cons]

/-- The code of a return at the end of a body. -/
theorem treesOf_return {values : List Expr} {tree : Tree} {span : Span}
    (h : Compile.treesOf false [.node span (.return values)] c = .ok (tree, c')) :
    ∃ i, Compile.returnStmt (Compile.operands values) c = .ok (i, c') ∧
      tree = .seq (.act [i]) (.act []) := by
  rw [Compile.treesOf, Compile.tree] at h
  obtain ⟨first, c₁, hfirst, h⟩ := Compile.bind_ok.1 h
  rw [Compile.at'_ok, Compile.treeOf] at hfirst
  obtain ⟨i, c₂, hi, hfirst⟩ := Compile.bind_ok.1 hfirst
  obtain ⟨rfl, rfl⟩ := Compile.pure_ok.1 hfirst
  rw [Compile.treesOf] at h
  cases h
  exact ⟨i, hi, rfl⟩

/-- A return of values at the end of a body. -/
theorem return_finishes {values : List Expr} {tree : Tree} {ending : Ending} {span : Span}
    {u : Unit}
    (hbound : Bound v s) (hlinked : Linked c.types c.frame v links)
    (hresults : Results v outs names)
    (htypes : List.Forall₂ (fun out ty => ofKind? (c.types.kind ty) = some out.kind) outs
      c.frame.results)
    (hending : Compile.endingOf c.types c.frame = ending) (hne : values ≠ [])
    (hlength : values.length = outs.length)
    (hexact : returnsExactly (kindsIn v.registers) (outs.map Registers.Reg.kind) values = true)
    (horder : returnsInOrder names values = true)
    (hends : Ends (assignEach outs values) v s u v' s')
    (hcompile : Compile.treesOf false [.node span (.return values)] c = .ok (tree, c')) :
    ∃ is, Finished outs ending c' v v' s s' links is tree := by
  obtain ⟨i, hreturn, rfl⟩ := treesOf_return hcompile
  have hcount : (Compile.operands values).length = c.frame.results.length := by
    rw [Compile.operands_length, hlength, htypes.length_eq]
  have hsome : Compile.operands values ≠ [] := by
    rw [← List.length_pos_iff, Compile.operands_length, List.length_pos_iff]
    exact hne
  obtain ⟨es, hes, rfl⟩ := Compile.returnStmt_ok hsome hcount hreturn
  obtain ⟨rfl, rfl, is, hwrites, hcollects⟩ := values_collected hbound hlinked hresults htypes
    hlength hexact horder hends hes
  refine ⟨is, hwrites.code, hbound.of_live hwrites.live, hending,
    fun ctx r fuel m file hagree => ?_⟩
  have hcollects := hcollects ctx r m file file hagree hagree.kinds fun _ _ _ _ _ _ => rfl
  rw [finished_ret]
  cases hrun : Registers.runAll is file with
  | error err =>
      rw [hrun] at hcollects
      rw [show evalAll ctx r es m = .error (.error err) m from hcollects]
      rfl
  | ok file' =>
      rw [hrun] at hcollects
      rw [hcollects.1]
      rfl

/-- A register of a result only has the name of a result. -/
theorem Results.name_mem (h : Results v outs names) {out : Registers.Reg} (hout : out ∈ outs)
    {n : Name} (hreg : register? v.registers n = some out) : some n ∈ names := by
  have hnames := h.names
  clear h
  induction hnames with
  | nil => cases hout
  | cons hname _ ih =>
      rcases List.mem_cons.1 hout with rfl | hout
      · exact hname n hreg ▸ List.mem_cons_self
      · exact List.mem_cons_of_mem _ (ih hout)

/-- The results are still among the variables after a statement. -/
theorem Results.mono (h : Results v outs names) {kept : Name → Bool} {kind : StmtKind}
    {is : List Registers.Instr} {tree : Tree}
    (hsim : Simulated kept kind c c' v v' s s' links links' is tree) : Results v' outs names := by
  refine ⟨fun out hout => hsim.grows out (h.bound out hout), h.nodup, ?_⟩
  have hbound := h.bound
  refine List.forall₂_iff_get.2 ⟨h.names.length_eq, fun i hi hi' n hreg => ?_⟩
  rcases hsim.registers n _ hreg with hreg | hnew
  · exact (List.forall₂_iff_get.1 h.names).2 i hi hi' n hreg
  · exact absurd (hbound _ (List.get_mem outs ⟨i, hi⟩)) hnew

/-- The links of results that are to be returned stay. -/
theorem Results.stays (h : Results v outs names) {kept : Name → Bool} {kind : StmtKind}
    {is : List Registers.Instr} {tree : Tree} {ending : Ending} {results : Links}
    (hsim : Simulated kept kind c c' v v' s s' links links' is tree)
    (hyields : Yields ending outs results) (hmem : ∀ p ∈ results, p ∈ links)
    (hkept : ∀ n, some n ∈ names → kept n = true) : ∀ p ∈ results, p ∈ links' := by
  intro p hp
  rcases hsim.stays p (hmem p hp) with hstays | ⟨n, hn, hreg⟩
  · exact hstays
  · have hout : p.2 ∈ outs := by
      rw [← hyields.outs]
      exact List.mem_map_of_mem hp
    rw [hkept n (h.name_mem hout hreg)] at hn
    cases hn

/-- **The statements of a body** end in the same way in both codes: the induction is on the
statements, and each one keeps the links of the results. -/
theorem statements_finish {stmts : List Stmt} {tree : Tree} {ending : Ending} {results : Links}
    {kept : Name → Bool} {u : Unit} (hbound : Bound v s) (hlinked : Linked c.types c.frame v links)
    (hresults : Results v outs names)
    (htypes : List.Forall₂ (fun out ty => ofKind? (c.types.kind ty) = some out.kind) outs
      c.frame.results)
    (hending : Compile.endingOf c.types c.frame = ending)
    (hyields : endsInValues stmts = false → Yields ending outs results ∧
      (∀ p ∈ results, p ∈ links) ∧ ∀ n, some n ∈ names → kept n = true)
    (hfaithful : areFaithful kept names (outs.map Registers.Reg.kind) (kindsIn v.registers) stmts =
      true)
    (hends : Ends (statements outs stmts) v s u v' s')
    (hcompile : Compile.treesOf false stmts c = .ok (tree, c')) :
    ∃ is, Finished outs ending c' v v' s s' links is tree := by
  fun_induction statements outs stmts generalizing v s c links tree with
  | case1 =>
      obtain ⟨-, rfl, rfl⟩ := ends_pure.1 hends
      rw [Compile.treesOf] at hcompile
      cases hcompile
      obtain ⟨hyields, hmem, -⟩ := hyields rfl
      exact ⟨[], finished_end hbound hyields hmem hending fun _ _ _ _ => rfl⟩
  | case2 span values =>
      rcases returnValues_ends hends with ⟨rfl, rfl, rfl⟩ | ⟨hne, hlength, hassign⟩
      · obtain ⟨i, hreturn, rfl⟩ := treesOf_return hcompile
        obtain ⟨rfl, rfl⟩ := Compile.returnStmt_nil hreturn
        obtain ⟨hyields, hmem, -⟩ := hyields rfl
        refine ⟨[], finished_end hbound hyields hmem hending fun ctx r fuel m => ?_⟩
        simp only [finished, Tree.exec, actAll, hending, ending.execute_instr, Result.andThen]
      · rw [areFaithful, Bool.and_eq_true] at hfaithful
        exact return_finishes hbound hlinked hresults htypes hending hne hlength hfaithful.1
          hfaithful.2 hassign hcompile
  | case3 span kind rest hlast ih =>
      obtain ⟨_, v₁, s₁, hfirst, hrest⟩ := ends_bind.1 hends
      have hne := statement_ne_return hfirst
      rw [areFaithful_cons hne, Bool.and_eq_true] at hfaithful
      rw [endsInValues_cons hne] at hyields
      rw [Compile.treesOf, Compile.tree] at hcompile
      obtain ⟨first, c₁, hone, hcompile⟩ := Compile.bind_ok.1 hcompile
      obtain ⟨others, c₂, hmore, hcompile⟩ := Compile.bind_ok.1 hcompile
      obtain ⟨rfl, rfl⟩ := Compile.pure_ok.1 hcompile
      obtain ⟨is, links₁, hsim⟩ := statement_simulates hbound hlinked hfaithful.1 hfirst
        (Compile.at'_ok.1 hone)
      obtain ⟨js, hfinished⟩ := ih hsim.bound hsim.linked (hresults.mono hsim)
        (by rwa [hsim.types, hsim.results])
        (by rw [Compile.endingOf, hsim.types, hsim.named, hsim.results]; exact hending)
        (fun hvalues => by
          obtain ⟨hyields, hmem, hkept⟩ := hyields hvalues
          exact ⟨hyields, hresults.stays hsim hyields hmem hkept, hkept⟩)
        (by rw [hsim.kinds]; exact hfaithful.2) hrest hmore
      refine ⟨is ++ js, ?_, hfinished.bound, hfinished.last, fun ctx r fuel m file hagree => ?_⟩
      · rw [hfinished.code, hsim.code, Registers.Stream.pushAll_append]
      · rw [Registers.runAll_append]
        have hreaches := hsim.run ctx r fuel m file hagree
        cases hrun : Registers.runAll is file with
        | error err =>
            rw [hrun] at hreaches
            obtain ⟨m', log, hexec⟩ := hreaches
            exact finished_failed hexec
        | ok file₁ =>
            rw [hrun] at hreaches
            obtain ⟨m', log, hexec, hagree'⟩ := hreaches
            rw [finished_seq hexec]
            exact hfinished.run ctx r fuel m' file₁ hagree'

end StraightLine

end ScriptCore
