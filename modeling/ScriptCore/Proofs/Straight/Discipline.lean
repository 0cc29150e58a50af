import ScriptCore.Proofs.Registers.Discipline
import ScriptCore.Proofs.Straight.Agreement

/-!
# Register discipline of functions

The register code of a function starts by allocating its parameters and results, which take the
first numbers, and each variable takes the lowest free number when it is defined.  What is live
between two statements are exactly the registers of parameters, results and variables, each with the
kind it was allocated with (`Owns`), so that the releases at the end leave nothing live.

Main statement: `ofFunc?_disciplined`.
-/

namespace ScriptCore.StraightLine

open Registers (Allocation Follows Accounts ObeyAll)

variable {v v' : Variables} {s s' : Registers.Lowering} {a : Allocation} {reg : Registers.Reg}
  {k : Registers.Kind} {u : Unit}

/-- The registers of parameters, results and variables are those that are live, each with its
kind. -/
structure Owns (v : Variables) (a : Allocation) : Prop where
  kinds : ∀ i k, a i = some k ↔ ⟨i, k⟩ ∈ v.bound
  nodup : v.bound.Nodup
  mem : ∀ name reg, register? v.registers name = some reg → reg ∈ v.bound

namespace Owns

/-- Before the first parameter. -/
theorem start : Owns ⟨[], []⟩ .empty := by
  refine ⟨by simp [Allocation.empty], List.nodup_nil, ?_⟩
  simp [register?]

/-- A register of the function is live with its kind. -/
theorem live (h : Owns v a) (hreg : reg ∈ v.bound) : a reg.id = some reg.kind :=
  (h.kinds reg.id reg.kind).2 hreg

/-- The register of a name is live with its kind. -/
theorem named (h : Owns v a) {name : Name} (hreg : register? v.registers name = some reg) :
    a reg.id = some reg.kind :=
  h.live (h.mem name reg hreg)

/-- **A register that has just been allocated** for a name or for a result without one. -/
theorem enter (h : Owns v a) (hnone : a reg.id = none) (name : Option Name) :
    Owns (v.enter name reg) (Function.update a reg.id (some reg.kind)) := by
  refine ⟨fun i k => ?_, ?_, fun n b hb => ?_⟩
  · rw [Variables.enter_bound, List.mem_append, List.mem_singleton]
    by_cases hi : i = reg.id
    · subst hi
      rw [Function.update_self]
      constructor
      · intro hk
        rw [← Option.some.inj hk]
        exact .inr rfl
      · rintro (hmem | heq)
        · rw [(h.kinds _ k).2 hmem] at hnone
          cases hnone
        · rw [← heq]
    · rw [Function.update_of_ne hi, h.kinds]
      constructor
      · exact .inl
      · rintro (hmem | heq)
        · exact hmem
        · exact absurd (congrArg Registers.Reg.id heq) hi
  · rw [Variables.enter_bound]
    refine h.nodup.append (List.nodup_singleton reg) fun b hb hb' => ?_
    obtain rfl := List.mem_singleton.1 hb'
    rw [h.live hb] at hnone
    cases hnone
  · rw [Variables.enter_bound]
    rcases register?_enter hb with hold | ⟨rfl, -⟩
    · exact List.mem_append_left _ (h.mem n b hold)
    · exact List.mem_append_right _ (List.mem_singleton_self _)

end Owns

/-! ### Statements -/

/-- **A translated expression** has the kind that was asked for, in all its leaves but the counts of
shifts. -/
theorem Translates.uniform {registers : List (Name × Registers.Reg)} {e : Expr}
    {x : Registers.Expr} (h : Translates registers k e x)
    (hlive : ∀ name reg, register? registers name = some reg → a reg.id = some reg.kind) :
    x.Uniform a k := by
  induction h with
  | ident span name reg hreg => exact ⟨rfl, hlive name reg hreg⟩
  | literal span k i c hc =>
      exact (@Translates.literal registers span k i c hc).kind_eq
  | paren _ _ ih | plus _ _ ih | unary _ _ _ _ ih => exact ih
  | binary span op harith _ _ ihA ihB =>
      refine ⟨isComparison_false harith, ihA, _, ihB, fun hshift => ?_⟩
      rw [secondKind, hshift]
      rfl

/-- The register that an expression stands for is one of the function. -/
theorem localOf?_mem (howns : Owns v a) {target : Expr}
    (h : localOf? v.registers target = some reg) : reg ∈ v.bound := by
  rw [localOf?_eq, Option.bind_eq_some_iff] at h
  obtain ⟨name, -, hreg⟩ := h
  exact howns.mem name reg hreg

/-- An assignment to a register of the function. -/
theorem assign_follows {value : Expr} (htracks : Accounts s a) (howns : Owns v a)
    (hreg : reg ∈ v.bound) (h : Ends (assign reg value) v s u v' s') :
    v' = v ∧ Follows s a s' a := by
  obtain ⟨x, hx, hassign, rfl⟩ := assign_ends h
  have huniform := (translates hx).uniform fun _ _ => howns.named
  exact ⟨rfl, Registers.assign_follows htracks huniform (howns.live hreg) hassign⟩

/-- **A definition** allocates a register for a new name before it assigns to it. -/
theorem define_follows {name : Name} {value : Expr} (htracks : Accounts s a) (howns : Owns v a)
    (h : Ends (define name value) v s u v' s') :
    ∃ a', Follows s a s' a' ∧ Owns v' a' ∧ v.bound ⊆ v'.bound := by
  obtain ⟨hne, ⟨reg, x, hreg, hx, hassign, rfl⟩ | ⟨reg, x, s₁, -, hx, halloc, hassign, rfl⟩⟩ :=
    define_ends h
  · have huniform := (translates hx).uniform fun _ _ => howns.named
    exact ⟨a, Registers.assign_follows htracks huniform (howns.named hreg) hassign, howns, List.Subset.refl _⟩
  · obtain ⟨hkind, hnone, hfollows⟩ := Follows.alloc htracks halloc
    have huniform := (translates hx).uniform fun _ _ => howns.named
    have hassigned := Registers.assign_follows hfollows.tracks
      (huniform.mono (Allocation.keeps_update hnone _)) (Function.update_self ..) hassign
    have howns' := howns.enter hnone (some name)
    rw [Variables.enter, visible, if_neg hne, hkind] at howns'
    exact ⟨_, hfollows.trans hassigned, howns', List.subset_append_left _ _⟩

/-- **A statement** of a straight line keeps the discipline. -/
theorem statement_follows {kind : StmtKind} (htracks : Accounts s a) (howns : Owns v a)
    (h : Ends (statement kind) v s u v' s') :
    ∃ a', Follows s a s' a' ∧ Owns v' a' ∧ v.bound ⊆ v'.bound := by
  unfold statement at h
  split at h
  · exact define_follows htracks howns h
  · simp only [ends_bind, ends_get, ends_need] at h
    obtain ⟨_, _, _, ⟨rfl, rfl, rfl⟩, reg, _, _, ⟨hreg, rfl, rfl⟩, hassign⟩ := h
    obtain ⟨rfl, hfollows⟩ := assign_follows htracks howns (localOf?_mem howns hreg) hassign
    exact ⟨a, hfollows, howns, List.Subset.refl _⟩
  · obtain ⟨reg, inst, x, hreg, hinst, hx, hupdate, rfl⟩ := update_ends h
    have huniform := (translates hx).uniform fun _ _ => howns.named
    refine ⟨a, Registers.update_follows hinst htracks huniform (fun hshift => ?_)
      (howns.live (localOf?_mem howns hreg)) hupdate, howns, List.Subset.refl _⟩
    rw [secondKind, hshift]
    rfl
  · obtain ⟨reg, hreg, hadjust, rfl⟩ := step_ends h
    exact ⟨a, Registers.adjust_follows htracks (howns.live (localOf?_mem howns hreg)) hadjust,
      howns, List.Subset.refl _⟩
  · exact absurd h not_ends_refuse

/-- Assignments to results. -/
theorem assignEach_follows {outs : List Registers.Reg} {values : List Expr} (htracks : Accounts s a)
    (howns : Owns v a) (houts : outs ⊆ v.bound)
    (h : Ends (assignEach outs values) v s u v' s') : v' = v ∧ Follows s a s' a := by
  fun_induction assignEach outs values generalizing s with
  | case1 out outs value values ih =>
      obtain ⟨_, v₁, s₁, hfirst, hrest⟩ := ends_bind.1 h
      obtain ⟨rfl, hfollows⟩ := assign_follows htracks howns (houts List.mem_cons_self) hfirst
      obtain ⟨rfl, hfollows'⟩ :=
        ih hfollows.tracks (List.subset_of_cons_subset houts) hrest
      exact ⟨rfl, hfollows.trans hfollows'⟩
  | case2 =>
      obtain ⟨-, rfl, rfl⟩ := ends_pure.1 h
      exact ⟨rfl, .refl htracks⟩

/-- **The statements** of a straight line keep the discipline. -/
theorem statements_follow {outs : List Registers.Reg} {stmts : List Stmt} (htracks : Accounts s a)
    (howns : Owns v a) (houts : outs ⊆ v.bound)
    (h : Ends (statements outs stmts) v s u v' s') : ∃ a', Follows s a s' a' ∧ Owns v' a' := by
  fun_induction statements outs stmts generalizing v s a with
  | case1 =>
      obtain ⟨-, rfl, rfl⟩ := ends_pure.1 h
      exact ⟨a, .refl htracks, howns⟩
  | case2 span values =>
      rcases returnValues_ends h with ⟨-, rfl, rfl⟩ | ⟨-, -, hassign⟩
      · exact ⟨a, .refl htracks, howns⟩
      · obtain ⟨rfl, hfollows⟩ := assignEach_follows htracks howns houts hassign
        exact ⟨a, hfollows, howns⟩
  | case3 span kind rest hlast ih =>
      obtain ⟨_, v₁, s₁, hfirst, hrest⟩ := ends_bind.1 h
      obtain ⟨a₁, hfollows, howns₁, hsub⟩ := statement_follows htracks howns hfirst
      obtain ⟨a', hfollows', howns'⟩ := ih hfollows.tracks howns₁ (List.Subset.trans houts hsub) hrest
      exact ⟨a', hfollows.trans hfollows', howns'⟩

/-! ### The beginning and the end of a function -/

/-- The registers of parameters or results are numbered from `n` on, and the next number follows. -/
theorem numbered_append (n : Nat) (ks js : List Registers.Kind) :
    numbered n (ks ++ js) = numbered n ks ++ numbered (n + ks.length) js := by
  induction ks generalizing n with
  | nil => rfl
  | cons k ks ih =>
      rw [List.cons_append, numbered, ih, numbered, List.cons_append, List.length_cons,
        Nat.add_assoc, Nat.add_comm 1]

/-- **Parameters or results** are allocated one after the other. -/
theorem bindEach_follows {params : List Param} {ks : List Registers.Kind}
    {regs : List Registers.Reg} (htracks : Accounts s a) (howns : Owns v a) (hfilled : Filled v s)
    (h : Ends (bindEach params ks) v s regs v' s') :
    ∃ a', regs = numbered v.bound.length (ks.take params.length) ∧ v'.bound = v.bound ++ regs ∧
      s'.code = s.code.pushAll (regs.map .alloc) ∧ ObeyAll (regs.map .alloc) a a' ∧
        Accounts s' a' ∧ Owns v' a' ∧ Filled v' s' := by
  fun_induction bindEach params ks generalizing regs v s a with
  | case1 p params k ks ih =>
      obtain ⟨reg, v₁, s₁, hfirst, h⟩ := ends_bind.1 h
      obtain ⟨regs, v₂, s₂, hrest, h⟩ := ends_bind.1 h
      obtain ⟨rfl, rfl, rfl⟩ := ends_pure.1 h
      obtain ⟨halloc, rfl⟩ := bind_enters hfirst
      obtain ⟨hreg, hcode, -⟩ := hfilled.alloc halloc
      obtain ⟨hkind, hobeys, -, htracks₁⟩ := htracks.alloc halloc
      rw [← hkind] at htracks₁
      obtain ⟨a', hregs, hbound, hcode', hobeys', htracks', howns', hfilled'⟩ :=
        ih htracks₁ (howns.enter hobeys.1 p.name) (hfilled.enter halloc p.name) hrest
      refine ⟨a', ?_, ?_, ?_, ⟨hobeys, hobeys'⟩, htracks', howns', hfilled'⟩
      · rw [hregs, Variables.enter_bound, List.length_append, hreg]
        rfl
      · rw [hbound, Variables.enter_bound, List.append_assoc]
        rfl
      · rw [hcode', hcode]
        rfl
  | case2 params ks hne =>
      obtain ⟨rfl, rfl, rfl⟩ := ends_pure.1 h
      refine ⟨a, ?_, by simp, rfl, rfl, htracks, howns, hfilled⟩
      cases params with
      | nil => rfl
      | cons p params =>
          cases ks with
          | nil => rfl
          | cons k ks => exact (hne p params k ks rfl rfl).elim

/-- Results that start at zero. -/
theorem zeroEach_follows {regs : List Registers.Reg} (htracks : Accounts s a) (howns : Owns v a)
    (hregs : regs ⊆ v.bound) (h : Ends (zeroEach regs) v s u v' s') :
    v' = v ∧ Follows s a s' a := by
  induction regs generalizing s with
  | nil =>
      obtain ⟨-, rfl, rfl⟩ := ends_pure.1 h
      exact ⟨rfl, .refl htracks⟩
  | cons reg regs ih =>
      obtain ⟨_, v₁, s₁, hfirst, hrest⟩ := ends_bind.1 h
      obtain ⟨hwrite, rfl⟩ := ends_write.1 hfirst
      have hlive := howns.live (hregs List.mem_cons_self)
      have huniform : (Registers.Expr.imm (.zero reg.kind)).Uniform a reg.kind := rfl
      have hfollows := Registers.assign_follows htracks huniform hlive hwrite
      obtain ⟨rfl, hfollows'⟩ := ih hfollows.tracks (List.subset_of_cons_subset hregs) hrest
      exact ⟨rfl, hfollows.trans hfollows'⟩

/-- **Releases** of all registers leave none live. -/
theorem freeEach_follows {regs : List Registers.Reg} {u : PUnit} (htracks : Accounts s a)
    (hkinds : ∀ i k, a i = some k ↔ ⟨i, k⟩ ∈ regs) (hnodup : regs.Nodup)
    (h : Ends (forIn regs PUnit.unit fun reg _ => do
      write (Registers.free reg)
      return .yield PUnit.unit) v s u v' s') : Follows s a s' .empty := by
  induction regs generalizing s a with
  | nil =>
      obtain ⟨-, rfl, rfl⟩ := ends_pure.1 h
      have hempty : a = .empty := by
        funext i
        exact Option.eq_none_iff_forall_not_mem.2 fun k hk => by simpa using (hkinds i k).1 hk
      subst hempty
      exact .refl htracks
  | cons reg regs ih =>
      rw [List.forIn_cons] at h
      obtain ⟨_, v₁, s₁, hfirst, hrest⟩ := ends_bind.1 h
      obtain ⟨_, v₂, s₂, hfree, hnext⟩ := ends_bind.1 hfirst
      obtain ⟨rfl, rfl, rfl⟩ := ends_pure.1 hnext
      obtain ⟨hwrite, rfl⟩ := ends_write.1 hfree
      obtain rfl := Registers.Lower.ends_free.1 hwrite
      have hlive : a reg.id = some reg.kind := (hkinds _ _).2 List.mem_cons_self
      have hfollows := Follows.free htracks (.inl hlive)
      refine hfollows.trans (ih hfollows.tracks (fun i k => ?_) hnodup.of_cons hrest)
      by_cases hi : i = reg.id
      · subst hi
        rw [Function.update_self]
        refine ⟨nofun, fun hmem => ?_⟩
        have hk := (hkinds reg.id k).2 (List.mem_cons_of_mem reg hmem)
        rw [hlive] at hk
        cases hk
        exact absurd hmem (List.nodup_cons.1 hnodup).1
      · rw [Function.update_of_ne hi, hkinds, List.mem_cons]
        exact or_iff_right fun heq => hi (congrArg Registers.Reg.id heq)

/-- **The code of a function** starts with the allocations of its parameters and results. -/
theorem function_follows {sig : Sig} {ps rs : List Registers.Kind} {stmts : List Stmt}
    (h : Ends (function sig ps rs stmts) ⟨[], []⟩ .empty u v s) :
    ∃ a s₀, s₀.code = Registers.Stream.empty.pushAll
        ((numbered 0 (ps.take sig.params.length ++ rs.take sig.results.length)).map .alloc) ∧
      ObeyAll ((numbered 0 (ps.take sig.params.length ++ rs.take sig.results.length)).map .alloc)
        .empty a ∧ Follows s₀ a s .empty := by
  have hstart : Accounts .empty .empty := fun _ => rfl
  rw [function] at h
  obtain ⟨regs, v₁, s₁, hparams, h⟩ := ends_bind.1 h
  obtain ⟨outs, v₂, s₂, hresults, h⟩ := ends_bind.1 h
  obtain ⟨a₁, hregs, hbound₁, hcode₁, hobeys₁, htracks₁, howns₁, hfilled₁⟩ :=
    bindEach_follows hstart .start .start hparams
  obtain ⟨a₂, houts, hbound₂, hcode₂, hobeys₂, htracks₂, howns₂, -⟩ :=
    bindEach_follows htracks₁ howns₁ hfilled₁ hresults
  have hall : numbered 0 (ps.take sig.params.length ++ rs.take sig.results.length) =
      regs ++ outs := by
    rw [numbered_append, hregs, houts, hbound₁, hregs]
    simp
  have hsub : outs ⊆ v₂.bound := by
    rw [hbound₂]
    exact List.subset_append_right _ _
  -- what follows the allocations does not depend on whether results are zeroed
  have hrest {s₃ : Registers.Lowering} (hfollows : Follows s₂ a₂ s₃ a₂) (h : Ends (do
      statements outs stmts
      for reg in (← get).bound do
        write (Registers.free reg)) v₂ s₃ u v s) : Follows s₂ a₂ s .empty := by
    obtain ⟨_, v₃, s₄, hstmts, h⟩ := ends_bind.1 h
    obtain ⟨_, _, _, hget, h⟩ := ends_bind.1 h
    obtain ⟨rfl, rfl, rfl⟩ := ends_get.1 hget
    obtain ⟨_, _, _, hfree, hlast⟩ := ends_bind.1 h
    obtain ⟨-, rfl, rfl⟩ := ends_pure.1 hlast
    obtain ⟨a₃, hfollows', howns₃⟩ := statements_follow hfollows.tracks howns₂ hsub hstmts
    exact hfollows.trans
      (hfollows'.trans (freeEach_follows hfollows'.tracks howns₃.kinds howns₃.nodup hfree))
  refine ⟨a₂, s₂, ?_, ?_, ?_⟩
  · rw [hcode₂, hcode₁, hall, List.map_append, Registers.Stream.pushAll_append]
    rfl
  · rw [hall, List.map_append]
    exact Registers.obeyAll_append.2 ⟨a₁, hobeys₁, hobeys₂⟩
  · split at h
    · obtain ⟨_, _, s₃, hzero, hnext⟩ := ends_bind.1 h
      obtain ⟨rfl, hfollows⟩ := zeroEach_follows htracks₂ howns₂ hsub hzero
      exact hrest hfollows hnext
    · exact hrest (.refl htracks₂) h

/-- **Register discipline.**  The register code of a function can be read back.  It starts by
allocating the parameters and then the results, in order and with their kinds, to the registers
numbered from zero; from no live register on, every instruction obeys the discipline; and no register
is live at the end. -/
theorem ofFunc?_disciplined {decl : FuncDecl} {params results : List ScriptCore.Kind}
    {code : Registers.Stream} (hcode : ofFunc? decl params results = .ok (some code)) :
    ∃ ps rs rest, ofKinds? params = some ps ∧ ofKinds? results = some rs ∧
      code.instrs? = some ((numbered 0 (ps.take decl.sig.params.length ++
        rs.take decl.sig.results.length)).map .alloc ++ rest) ∧
      ObeyAll ((numbered 0 (ps.take decl.sig.params.length ++
        rs.take decl.sig.results.length)).map .alloc ++ rest) .empty .empty := by
  obtain ⟨stmts, span, ps, rs, hbody, hps, hrs⟩ : ∃ stmts span ps rs,
      decl.body = some (.mk stmts span) ∧ ofKinds? params = some ps ∧
        ofKinds? results = some rs := by
    unfold ofFunc? at hcode
    split at hcode
    · rename_i body ps rs hbody hps hrs
      obtain ⟨stmts, span⟩ := body
      exact ⟨stmts, span, ps, rs, hbody, hps, hrs⟩
    · cases hcode
  obtain ⟨u, v, s, hends, rfl⟩ := ends_of_ofFunc? hbody hps hrs hcode
  obtain ⟨a, s₀, hcode₀, hobeys, hfollows⟩ := function_follows hends
  obtain ⟨is, hcode', hrest⟩ := hfollows.code
  have hvoid : ((numbered 0 (ps.take decl.sig.params.length ++
      rs.take decl.sig.results.length)).map Registers.Instr.alloc).filter (fun i => !i.isVoid) =
        (numbered 0 (ps.take decl.sig.params.length ++
          rs.take decl.sig.results.length)).map .alloc := by
    rw [List.filter_eq_self]
    intro i hi
    obtain ⟨reg, -, rfl⟩ := List.mem_map.1 hi
    rfl
  refine ⟨ps, rs, is.filter fun i => !i.isVoid, hps, hrs, ?_,
    Registers.obeyAll_append.2 ⟨a, hobeys, hrest.filter⟩⟩
  rw [hcode', hcode₀, ← Registers.Stream.pushAll_append, Registers.Stream.instrs?_pushAll,
    List.filter_append, hvoid]

/-- The statements `b := (a + 1) * (a - 2); return b << n`. -/
def scaledStmts : List Stmt :=
  let mention (name : Name) : Expr := .node .none (.ident name)
  let number (i : Int) : Expr := .node .none (.int i)
  let sum : Expr := .node .none (.binary .add (mention "a") (number 1))
  let difference : Expr := .node .none (.binary .sub (mention "a") (number 2))
  [.node .none (.define ["b"] [.node .none (.binary .mul sum difference)]),
    .node .none (.return [.node .none (.binary .shl (mention "b") (mention "n"))])]

/-- The function `func f(a int32, n uint8) int32 { b := (a + 1) * (a - 2); return b << n }`. -/
def scaled : FuncDecl :=
  let named (name : Name) : TypeExpr := .node .none (.named name)
  ⟨"f", none, .mk [.mk (some "a") (named "int32"), .mk (some "n") (named "uint8")]
    [.mk none (named "int32")] false, some (.mk scaledStmts .none), .none⟩

/-- The register code of `scaled`: the variable and two temporaries follow the parameters and the
result, and the count of the shift has a kind of its own. -/
def scaledCode : Registers.Stream :=
  Registers.Stream.empty.pushAll [.alloc ⟨0, .int32⟩, .alloc ⟨1, .uint8⟩, .alloc ⟨2, .int32⟩,
    .alloc ⟨3, .int32⟩, .alloc ⟨4, .int32⟩, .binary .add (.reg 0) (.imm (.int 1 .int32)) 4,
    .alloc ⟨5, .int32⟩, .binary .sub (.reg 0) (.imm (.int 2 .int32)) 5,
    .binary .mul (.reg 4) (.reg 5) 3, .free ⟨4, .int32⟩, .free ⟨5, .int32⟩,
    .binary .shl (.reg 3) (.reg 1) 2, .free ⟨0, .int32⟩, .free ⟨1, .uint8⟩, .free ⟨2, .int32⟩,
    .free ⟨3, .int32⟩]

/-- The code of `scaled` keeps the discipline. -/
theorem scaledCode_disciplined :
    ofFunc? scaled [.int32, .uint8] [.int32] = .ok (some scaledCode) ∧
      ∃ rest, scaledCode.instrs? =
          some ([.alloc ⟨0, .int32⟩, .alloc ⟨1, .uint8⟩, .alloc ⟨2, .int32⟩] ++ rest) ∧
        ObeyAll ([.alloc ⟨0, .int32⟩, .alloc ⟨1, .uint8⟩, .alloc ⟨2, .int32⟩] ++ rest)
          .empty .empty := by
  have hcode : ofFunc? scaled [.int32, .uint8] [.int32] = .ok (some scaledCode) := by cbv
  obtain ⟨ps, rs, rest, hps, hrs, hinstrs, hobeys⟩ := ofFunc?_disciplined hcode
  cases hps
  cases hrs
  exact ⟨hcode, rest, hinstrs, hobeys⟩

end ScriptCore.StraightLine
