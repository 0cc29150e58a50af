import ScriptCore.Proofs.Registers.Values

/-!
# What a refused expression leaves behind

Lowering refuses an operation that is not defined on the kind of its first operand, and looks at an
operation before it looks at its operands.  By then, left operands of the operations around it may
have been computed: each of them is held in a temporary, which stays in use when the error is
returned, and the instructions that compute it stay in the stream.

So a refused expression leaves a trace exactly when the first operation that is refused stands in
the right operand of an operation whose left operand is no leaf.  Nothing else is lost: registers in
use stay in use, and tokens are only appended.

Main statements: `lower_succeeds_iff` with `assign_succeeds_iff` and `update_succeeds_iff`,
`lower_fails` and `refused_traceless_iff`.
-/

namespace ScriptCore.Registers

namespace Expr

/-- The error of the first operation that is refused: an operation comes before its operands, and
the left operand before the right one. -/
def refusal? : Expr → Option CodeError
  | imm _ | reg _ => none
  | unary op x => if op.accepts x.kind then x.refusal? else some (.unsupportedKind op.text x.kind)
  | binary op x y =>
    if accepts op x.kind then x.refusal?.or y.refusal?
    else some (.unsupportedKind (mnemonic op) x.kind)

/-- The number of operands that are held in temporaries when the first operation is refused: left
operands, other than leaves, of the operations that have it in their right operand. -/
def held : Expr → Nat
  | imm _ | reg _ => 0
  | unary op x => if op.accepts x.kind then x.held else 0
  | binary op x y =>
    if accepts op x.kind then
      if x.refusal?.isSome then x.held
      else (if x.isLeaf then 0 else 1) + y.held
    else 0

end Expr

namespace Lower

variable {α β : Type} {s s' : Lowering} {err : CodeError}

/-- A step ends with an error in a state. -/
def Fails (step : Lower α) (s : Lowering) (err : CodeError) (s' : Lowering) : Prop :=
  step.run.run s = (.error err, s')

/-- A step ends with a result or an error. -/
theorem ends_or_fails (step : Lower α) (s : Lowering) :
    (∃ a s', Ends step s a s') ∨ ∃ err s', Fails step s err s' := by
  rcases h : step.run.run s with ⟨err | a, s'⟩
  · exact .inr ⟨err, s', h⟩
  · exact .inl ⟨a, s', h⟩

/-- It does not end with both. -/
theorem Ends.not_fails {step : Lower α} {a : α} (h : Ends step s a s') {s'' : Lowering} :
    ¬Fails step s err s'' := by
  intro hfails
  rw [Fails, show step.run.run s = _ from h] at hfails
  cases hfails

/-- A result without a step. -/
theorem not_fails_pure {a : α} : ¬Fails (pure a) s err s' := by
  rintro ⟨⟩

/-- An instruction is always written. -/
theorem not_fails_emit {i : Instr} : ¬Fails (emit i) s err s' := by
  rintro ⟨⟩

/-- The first of two steps fails, or the second one. -/
theorem fails_bind {step : Lower α} {next : α → Lower β} :
    Fails (step >>= next) s err s' ↔
      Fails step s err s' ∨ ∃ a s₁, Ends step s a s₁ ∧ Fails (next a) s₁ err s' := by
  unfold Fails Ends
  simp only [ExceptT.run_bind, StateT.run_bind]
  rcases step.run.run s with ⟨e | a, s₁⟩
  · constructor
    · intro h
      cases h
      exact .inl rfl
    · rintro (h | ⟨a, s₂, heq, -⟩)
      · cases h
        rfl
      · cases heq
  · constructor
    · intro h
      exact .inr ⟨a, s₁, rfl, h⟩
    · rintro (h | ⟨a', s₂, heq, h⟩)
      · cases h
      · cases heq
        exact h

/-- What is required does not hold. -/
theorem fails_require {ok : Bool} {op : String} {kind : Kind} :
    Fails (require ok op kind) s err s' ↔
      ok = false ∧ .unsupportedKind op kind = err ∧ s = s' := by
  unfold require
  cases ok with
  | true => simp [not_fails_pure]
  | false =>
      constructor
      · rintro ⟨⟩
        exact ⟨rfl, rfl, rfl⟩
      · rintro ⟨-, rfl, rfl⟩
        rfl

end Lower

section
variable {s s₁ s₂ s' : Lowering} {xs ys : List Lowered} {err : CodeError} {x y e : Expr}

/-- A release does not fail. -/
theorem not_fails_release {l : Lowered} {keep : Option Reg} :
    ¬(release l keep).Fails s err s' := by
  unfold release
  split
  · split <;> rintro ⟨⟩
  · exact Lower.not_fails_pure

/-- Releases do not fail. -/
theorem not_fails_releaseAll {keep : Option Reg} : ¬(releaseAll keep xs).Fails s err s' := by
  induction xs generalizing s with
  | nil => exact Lower.not_fails_pure
  | cons x xs ih =>
      rw [releaseAll, Lower.fails_bind]
      rintro (h | ⟨_, s₁, -, h⟩)
      · exact not_fails_release h
      · exact ih h

/-- An instruction into a destination does not fail. -/
theorem not_fails_finish {kind : Kind} {instr : Nat → Instr} :
    ¬(finish xs kind instr).Fails s err s' := by
  simp only [finish, Lower.fails_bind]
  rintro (h | ⟨dst, s₁, -, h | ⟨_, s₂, -, h | ⟨_, s₃, -, h⟩⟩⟩)
  · unfold destination at h
    split at h <;> cases h
  · exact Lower.not_fails_emit h
  · exact not_fails_releaseAll h
  · exact Lower.not_fails_pure h

/-! ### Expressions that are lowered -/

/-- A register that is free after operands have been lowered was free before. -/
theorem Operands.free_before (h : Operands xs s s₁) {id : Nat} (hfree : s₁.isLive id = false) :
    s.isLive id = false := by
  cases hused : s.isLive id with
  | false => rfl
  | true =>
      rw [(h.live id).2 (.inl hused)] at hfree
      cases hfree

/-- Operands that are lowered after others. -/
theorem Operands.append (h : Operands xs s s₁) (h' : Operands ys s₁ s₂) :
    Operands (xs ++ ys) s s₂ := by
  have hmem : ∀ t, t ∈ temps (xs ++ ys) ↔ t ∈ temps xs ∨ t ∈ temps ys := by
    simp [temps, List.filterMap_append]
  have happart : ∀ t ∈ temps xs, ∀ u ∈ temps ys, t.id ≠ u.id := by
    intro t ht u hu heq
    have hfree := h'.fresh u hu
    rw [← heq, h.temps_live t ht] at hfree
    cases hfree
  refine ⟨fun i => ?_, fun t ht => ?_, fun t ht u hu heq => ?_⟩
  · rw [h'.live, h.live, or_assoc, ← exists_or]
    simp only [hmem, or_and_right]
  · rcases (hmem t).1 ht with ht | ht
    · exact h.fresh t ht
    · exact h.free_before (h'.fresh t ht)
  · rcases (hmem t).1 ht with ht | ht <;> rcases (hmem u).1 hu with hu | hu
    · exact h.apart t ht u hu heq
    · exact absurd heq (happart t ht u hu)
    · exact absurd heq.symm (happart u hu t ht)
    · exact h'.apart t ht u hu heq

/-- An expression that has been lowered: no operation is refused, tokens are appended, and an inner
node has come into a temporary. -/
structure Accepted (e : Expr) (s : Lowering) (l : Lowered) (s' : Lowering) : Prop where
  refusal : e.refusal? = none
  tokens : s.code.tokens <+: s'.code.tokens
  operands : Operands [l] s s'
  temp : e.isLeaf = false → l.temp.isSome = true
  leaf : e.isLeaf = true → s' = s

/-- A leaf has been lowered. -/
theorem accepted_leaf {o : Operand} (hleaf : e.isLeaf = true) (hrefusal : e.refusal? = none) :
    Accepted e s ⟨o, none⟩ s := by
  refine ⟨hrefusal, List.prefix_rfl, ?_, by simp [hleaf], fun _ => rfl⟩
  refine ⟨fun i => ?_, fun t ht => ?_, fun t ht => ?_⟩
  · simp [temps]
  · cases ht
  · cases ht

/-- An inner node has been lowered, after its operands. -/
theorem accepted_finish {kind : Kind} {instr : Nat → Instr} {dst : Reg} (hinner : e.isLeaf = false)
    (hrefusal : e.refusal? = none) (hops : Operands xs s s₁)
    (htokens : s.code.tokens <+: s₁.code.tokens) (h : (finish xs kind instr).Ends s₁ dst s') :
    Accepted e s ⟨.reg dst.id, some dst⟩ s' := by
  obtain ⟨is, hcode, -, hdst, hafter, -⟩ := finish_spec h hops.temps_live hops.apart
  have hnew : s.isLive dst.id = false := by
    rcases hdst with hmem | hfree
    · exact hops.fresh dst hmem
    · exact hops.free_before hfree
  have hone : ∀ t, t ∈ temps [(⟨.reg dst.id, some dst⟩ : Lowered)] ↔ t = dst := by
    simp [temps]
  refine ⟨hrefusal, ?_, ⟨fun i => ?_, fun t ht => ?_, fun t ht u hu _ => ?_⟩, fun _ => rfl, ?_⟩
  · rw [hcode, Stream.pushAll_tokens]
    exact htokens.trans (List.prefix_append _ _)
  · rw [hafter, hops.others_live, or_comm]
    simp only [hone, exists_eq_left, @eq_comm _ i]
  · rw [(hone t).1 ht]
    exact hnew
  · rw [(hone t).1 ht, (hone u).1 hu]
  · simp [hinner]

/-- **No operation of an expression that has been lowered is refused.** -/
theorem lower_accepted (e : Expr) {l : Lowered} (h : (lower e).Ends s l s') :
    Accepted e s l s' := by
  induction e generalizing s s' l with
  | imm c =>
      obtain ⟨rfl, rfl⟩ := Lower.ends_pure.1 h
      exact accepted_leaf rfl rfl
  | reg r =>
      obtain ⟨rfl, rfl⟩ := Lower.ends_pure.1 h
      exact accepted_leaf rfl rfl
  | unary op x ih =>
      rw [lower_unary] at h
      simp only [Lower.ends_bind, Lower.ends_require, Lower.ends_pure] at h
      obtain ⟨_, _, ⟨hop, rfl⟩, a, s₁, hx, dst, s₂, hfinish, rfl, rfl⟩ := h
      have ha := ih hx
      refine accepted_finish rfl ?_ ha.operands ha.tokens hfinish
      rw [Expr.refusal?, if_pos hop, ha.refusal]
  | binary op x y ihx ihy =>
      rw [lower_binary] at h
      simp only [Lower.ends_bind, Lower.ends_require, Lower.ends_pure] at h
      obtain ⟨_, _, ⟨hop, rfl⟩, a, s₁, hx, b, s₂, hy, dst, s₃, hfinish, rfl, rfl⟩ := h
      have ha := ihx hx
      have hb := ihy hy
      refine accepted_finish rfl ?_ (ha.operands.append hb.operands) (ha.tokens.trans hb.tokens)
        hfinish
      rw [Expr.refusal?, if_pos hop, ha.refusal, hb.refusal]
      rfl

/-! ### Expressions that are refused -/

/-- The same tokens, and the same registers in use. -/
def Lowering.SameAs (s s' : Lowering) : Prop :=
  s'.code.tokens = s.code.tokens ∧ ∀ i, s'.isLive i = s.isLive i

/-- Tokens have been appended, and a number of registers that were free have come into use. -/
structure Strands (n : Nat) (s s' : Lowering) : Prop where
  tokens : s.code.tokens <+: s'.code.tokens
  live : ∃ ids : List Nat, ids.Nodup ∧ ids.length = n ∧ (∀ id ∈ ids, s.isLive id = false) ∧
    ∀ i, s'.isLive i = true ↔ s.isLive i = true ∨ i ∈ ids
  none : n = 0 → s' = s

namespace Strands

variable {n : Nat}

/-- Nothing has happened. -/
protected theorem refl (s : Lowering) : Strands 0 s s :=
  ⟨List.prefix_rfl, ⟨[], List.nodup_nil, rfl, by simp, by simp⟩, fun _ => rfl⟩

/-- An operand had been computed before. -/
theorem after {l : Lowered} (ha : Accepted e s l s₁) (hinner : e.isLeaf = false)
    (h : Strands n s₁ s') : Strands (1 + n) s s' := by
  obtain ⟨t, ht⟩ := Option.isSome_iff_exists.1 (ha.temp hinner)
  have hone : ∀ u, u ∈ temps [l] ↔ u = t := by
    intro u
    rw [Operands.mem_temps_single, ht, Option.some.injEq, eq_comm]
  have hlive := ha.operands.live
  simp only [hone, exists_eq_left] at hlive
  obtain ⟨ids, hnodup, hlength, hfree, hids⟩ := h.live
  refine ⟨ha.tokens.trans h.tokens, ⟨t.id :: ids, List.nodup_cons.2 ⟨fun hmem => ?_, hnodup⟩,
    by rw [List.length_cons, hlength, Nat.add_comm], ?_, fun i => ?_⟩, by omega⟩
  · have hdead := hfree t.id hmem
    rw [(hlive t.id).2 (.inr rfl)] at hdead
    cases hdead
  · exact List.forall_mem_cons.2 ⟨ha.operands.fresh t ((hone t).2 rfl), fun id hid =>
      ha.operands.free_before (hfree id hid)⟩
  · rw [hids, hlive, List.mem_cons, or_assoc, @eq_comm _ i]

/-- There is no trace exactly when no register has come into use. -/
theorem sameAs_iff (h : Strands n s s') : s.SameAs s' ↔ n = 0 := by
  constructor
  · intro hsame
    obtain ⟨ids, -, hlength, hfree, hlive⟩ := h.live
    rw [← hlength, List.length_eq_zero_iff, List.eq_nil_iff_forall_not_mem]
    intro id hid
    have hused := (hlive id).2 (.inr hid)
    rw [hsame.2 id, hfree id hid] at hused
    cases hused
  · intro hn
    rw [h.none hn]
    exact ⟨rfl, fun _ => rfl⟩

end Strands

/-- An expression has been refused in a state, with the error of its first refused operation. -/
structure Refused (e : Expr) (s : Lowering) (err : CodeError) (s' : Lowering) : Prop where
  error : e.refusal? = some err
  strands : Strands e.held s s'

/-- **A refused expression** leaves the operands behind that were held when its first refused
operation was met. -/
theorem lower_fails (e : Expr) (h : (lower e).Fails s err s') : Refused e s err s' := by
  induction e generalizing s s' with
  | imm c => exact absurd h Lower.not_fails_pure
  | reg r => exact absurd h Lower.not_fails_pure
  | unary op x ih =>
      rw [lower_unary] at h
      simp only [Lower.fails_bind, Lower.ends_require, Lower.fails_require] at h
      obtain ⟨hop, rfl, rfl⟩ | ⟨_, _, ⟨hop, rfl⟩, hx | ⟨a, s₁, -, hfinish | ⟨_, _, -, h⟩⟩⟩ := h
      · exact ⟨by simp [Expr.refusal?, hop], by simpa [Expr.held, hop] using Strands.refl s⟩
      · have hrefused := ih hx
        exact ⟨by simpa [Expr.refusal?, hop] using hrefused.error,
          by simpa [Expr.held, hop] using hrefused.strands⟩
      · exact absurd hfinish not_fails_finish
      · exact absurd h Lower.not_fails_pure
  | binary op x y ihx ihy =>
      rw [lower_binary] at h
      simp only [Lower.fails_bind, Lower.ends_require, Lower.fails_require] at h
      obtain ⟨hop, rfl, rfl⟩ | ⟨_, _, ⟨hop, rfl⟩, hx | ⟨a, s₁, hx, hy | ⟨b, s₂, -, hfinish |
        ⟨_, _, -, h⟩⟩⟩⟩ := h
      · exact ⟨by simp [Expr.refusal?, hop], by simpa [Expr.held, hop] using Strands.refl s⟩
      · have hrefused := ihx hx
        exact ⟨by simp [Expr.refusal?, hop, hrefused.error],
          by simpa [Expr.held, hop, hrefused.error] using hrefused.strands⟩
      · -- the left operand has been computed by the time the right one is refused
        have ha := lower_accepted x hx
        have hrefused := ihy hy
        refine ⟨by simpa [Expr.refusal?, hop, ha.refusal] using hrefused.error, ?_⟩
        cases hleaf : x.isLeaf with
        | true =>
            rw [← ha.leaf hleaf]
            simpa [Expr.held, hop, ha.refusal, hleaf] using hrefused.strands
        | false =>
            simpa [Expr.held, hop, ha.refusal, hleaf] using hrefused.strands.after ha hleaf
      · exact absurd hfinish not_fails_finish
      · exact absurd h Lower.not_fails_pure

/-- A step succeeds if it does not fail. -/
theorem Lower.ends_iff_not_fails {α : Type} (step : Lower α) (s : Lowering) :
    (∃ a s', Ends step s a s') ↔ ¬∃ err s', Fails step s err s' := by
  constructor
  · rintro ⟨a, s', hends⟩ ⟨err, s'', hfails⟩
    exact hends.not_fails hfails
  · exact (ends_or_fails step s).resolve_right

/-- **An expression is lowered** if and only if none of its operations is refused. -/
theorem lower_succeeds_iff (e : Expr) (s : Lowering) :
    (∃ l s', (lower e).Ends s l s') ↔ e.refusal? = none := by
  constructor
  · rintro ⟨l, s', h⟩
    exact (lower_accepted e h).refusal
  · intro hnone
    rw [Lower.ends_iff_not_fails]
    rintro ⟨err, s', h⟩
    have herror := (lower_fails e h).error
    rw [hnone] at herror
    cases herror

/-! ### Statements that are refused -/

/-- An assignment is refused as its expression is, for it computes only the topmost operation in
another place. -/
theorem assign_fails_iff {dst : Reg} :
    (assign e dst).Fails s err s' ↔ (lower e).Fails s err s' := by
  cases e with
  | imm c => exact iff_of_false Lower.not_fails_emit Lower.not_fails_pure
  | reg r => exact iff_of_false Lower.not_fails_emit Lower.not_fails_pure
  | unary op x =>
      simp only [assign_unary, lower_unary, Lower.fails_bind, Lower.not_fails_emit,
        not_fails_releaseAll, not_fails_finish, Lower.not_fails_pure, and_false, exists_false,
        or_false]
  | binary op x y =>
      simp only [assign_binary, lower_binary, Lower.fails_bind, Lower.not_fails_emit,
        not_fails_releaseAll, not_fails_finish, Lower.not_fails_pure, and_false, exists_false,
        or_false]

/-- A step is refused before anything happens. -/
theorem adjust_fails {op : Adjust} {dst : Reg} (h : (adjust op dst).Fails s err s') : s' = s := by
  simp only [adjust, Lower.fails_bind, Lower.fails_require, Lower.not_fails_emit, and_false,
    exists_false, or_false] at h
  exact h.2.2.symm

/-- An update is refused for the kind of its destination, before anything happens, or else as its
expression is. -/
theorem update_fails_iff {op : Update} {dst : Reg} : (update op e dst).Fails s err s' ↔
    (op.accepts dst.kind = false ∧ .unsupportedKind op.text dst.kind = err ∧ s = s') ∨
      op.accepts dst.kind = true ∧ (lower e).Fails s err s' := by
  by_cases hassign : op = .assign
  · subst hassign
    rw [update, if_pos rfl, assign_fails_iff]
    simp [Update.accepts, Update.op]
  · rw [update, if_neg hassign]
    simp only [Lower.fails_bind, Lower.fails_require, Lower.ends_require, Lower.not_fails_emit,
      not_fails_release, and_false, exists_false, or_false]
    constructor
    · rintro (hop | ⟨_, _, ⟨hop, rfl⟩, h⟩)
      · exact .inl hop
      · exact .inr ⟨hop, h⟩
    · rintro (hop | ⟨hop, h⟩)
      · exact .inl hop
      · exact .inr ⟨(), s, ⟨hop, rfl⟩, h⟩

/-- **An assignment** succeeds if and only if no operation is refused. -/
theorem assign_succeeds_iff (e : Expr) (dst : Reg) (s : Lowering) :
    (∃ u s', (assign e dst).Ends s u s') ↔ e.refusal? = none := by
  rw [← lower_succeeds_iff e s, Lower.ends_iff_not_fails, Lower.ends_iff_not_fails]
  simp only [assign_fails_iff]

/-- **An update** succeeds if and only if it is defined on the kind of the register and no operation
is refused. -/
theorem update_succeeds_iff (op : Update) (e : Expr) (dst : Reg) (s : Lowering) :
    (∃ u s', (update op e dst).Ends s u s') ↔ op.accepts dst.kind = true ∧ e.refusal? = none := by
  rw [← lower_succeeds_iff e s, Lower.ends_iff_not_fails, Lower.ends_iff_not_fails]
  simp only [update_fails_iff]
  cases op.accepts dst.kind <;> simp

/-- **A refused operation leaves no trace exactly when no operand was held.** -/
theorem refused_traceless_iff (e : Expr) (dst : Reg) (s : Lowering) :
    (∀ err s', (lower e).run.run s = (.error err, s') →
      Refused e s err s' ∧ (s.SameAs s' ↔ e.held = 0)) ∧
    (∀ err s', (assign e dst).run.run s = (.error err, s') →
      Refused e s err s' ∧ (s.SameAs s' ↔ e.held = 0)) ∧
    (∀ op err s', (adjust op dst).run.run s = (.error err, s') → s' = s) ∧
    ∀ op err s', (update op e dst).run.run s = (.error err, s') →
      op.accepts dst.kind = false ∧ s' = s ∨
        op.accepts dst.kind = true ∧ Refused e s err s' ∧ (s.SameAs s' ↔ e.held = 0) := by
  have hlower : ∀ err s', (lower e).Fails s err s' →
      Refused e s err s' ∧ (s.SameAs s' ↔ e.held = 0) := fun err s' h =>
    ⟨lower_fails e h, (lower_fails e h).strands.sameAs_iff⟩
  refine ⟨hlower, fun err s' h => hlower err s' (assign_fails_iff.1 h), fun op err s' h =>
    adjust_fails h, fun op err s' h => ?_⟩
  exact (update_fails_iff.1 h).imp (fun h => ⟨h.1, h.2.2.symm⟩) fun h => ⟨h.1, hlower err s' h.2⟩

namespace Refused

/-- An integer register and a boolean one in use. -/
def registers : Lowering :=
  ((Lowering.empty.alloc .int).2.alloc .bool).2

/-- A sum whose right operand is refused: `x + !r0`. -/
def sum (x : Expr) : Expr :=
  .binary .add x (.unary .not (.reg ⟨0, .int⟩))

/-- The sum of an inner node, refused when that has been computed: `-r0 + !r0`. -/
def late : Expr :=
  sum (.unary .neg (.reg ⟨0, .int⟩))

/-- The sum of a register is refused without a trace, and so is a step of a boolean register; the
sum of an inner node is not. -/
theorem sum_refused :
    Refused late registers (.unsupportedKind "not" .int) ((lower late).run.run registers).2 ∧
      ¬registers.SameAs ((assign late ⟨0, .int⟩).run.run registers).2 ∧
      registers.SameAs ((update .add (sum (.reg ⟨0, .int⟩)) ⟨0, .int⟩).run.run registers).2 ∧
      ((adjust .inc ⟨1, .bool⟩).run.run registers).2 = registers := by
  obtain ⟨hlower, hassign, -, -⟩ := refused_traceless_iff late ⟨0, .int⟩ registers
  obtain ⟨-, -, -, hupdate⟩ :=
    refused_traceless_iff (sum (.reg ⟨0, .int⟩)) ⟨0, .int⟩ registers
  obtain ⟨-, -, hadjust, -⟩ := refused_traceless_iff late ⟨1, .bool⟩ registers
  have hleaf := hupdate .add (.unsupportedKind "not" .int) _ rfl
  refine ⟨(hlower _ _ rfl).1, fun hsame => ?_, ?_,
    hadjust .inc (.unsupportedKind "inc" .bool) _ rfl⟩
  · exact absurd ((hassign (.unsupportedKind "not" .int) _ rfl).2.1 hsame) (by decide)
  · rcases hleaf with ⟨hkind, -⟩ | ⟨-, -, hiff⟩
    · exact absurd hkind (by decide)
    · exact hiff.2 (by decide)

/-- **A refused expression can leave a trace**: the register that holds `-r0` stays in use. -/
theorem inner_leaves_trace : ¬∀ (s : Lowering) (e : Expr) (err : CodeError) (s' : Lowering),
    (lower e).run.run s = (.error err, s') → s.SameAs s' := by
  intro hsame
  have h := hsame registers late _ _ rfl
  exact absurd (h.2 2) (by decide)

end Refused

end

end ScriptCore.Registers
