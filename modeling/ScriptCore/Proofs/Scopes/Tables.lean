import ScriptCore.Proofs.Declaration.Dependency
import ScriptCore.Proofs.Scopes.Blocks

/-!
# Tables of a scope

Whatever is loaded into a scope, also if it fails half way, and whatever names are generated, the
scope only grows by declarations whose names are not bound yet (`Extends`).  So the tables by name
and by method change in one entry at a time, and agree with the declarations (`Consistent`).

Main statements: `load_extends`, `Consistent.of_extends` and `Consistent.unique`.
-/

namespace ScriptCore

namespace Scope

variable {s t u : Scope} {d : Decl} {i : Nat} {name : Name} {keys names : List Name}
  {kind : DeclKind} {group index : Nat} {lines : List ValueSpec} {item : Item}

/-! ### Growing scopes -/

/-- A scope grows by declarations whose names are not bound, and its counters move on. -/
inductive Extends (s : Scope) : Scope → Prop
  | refl : Extends s s
  | counters {t : Scope} {generated blocks : Nat} (h : Extends s t)
      (hgenerated : t.generated ≤ generated) (hblocks : t.blocks ≤ blocks) :
      Extends s { t with generated, blocks }
  | added {t : Scope} {d : Decl} (h : Extends s t) (hname : d.name ∈ d.boundNames)
      (hfree : ∀ n ∈ d.boundNames, ¬t.Binds n) (hgroup : ∀ b ∈ d.group, b < t.blocks) :
      Extends s (t.added d)

namespace Extends

/-- Growing twice. -/
theorem trans (h : s.Extends t) (h' : t.Extends u) : s.Extends u := by
  induction h' with
  | refl => exact h
  | counters _ hgenerated hblocks ih => exact ih.counters hgenerated hblocks
  | added _ hname hfree hgroup ih => exact ih.added hname hfree hgroup

/-- Blocks keep their numbers. -/
theorem blocks_le (h : s.Extends t) : s.blocks ≤ t.blocks := by
  induction h with
  | refl => exact Nat.le_refl _
  | counters _ _ hblocks ih => exact Nat.le_trans ih hblocks
  | added _ _ _ _ ih => exact ih

/-- **Declarations stay as they are.** -/
theorem isPrefix (h : s.Extends t) : s.decls.toList <+: t.decls.toList := by
  induction h with
  | refl => exact List.prefix_rfl
  | counters _ _ _ ih => exact ih
  | added _ _ _ _ ih =>
      refine ih.trans ?_
      rw [Scope.added, Array.toList_push]
      exact List.prefix_append _ _

end Extends

/-! ### Steps that let a scope grow -/

/-- Whatever comes of the step, the scope grows; what is declared belongs to the given block, or
to none. -/
def Load.Grows {α : Type} (group : Option Nat) (step : Load α) : Prop :=
  ∀ s : Scope, (∀ b ∈ group, b < s.blocks) → s.Extends (step.run s).2

namespace Load.Grows

variable {α β : Type} {block : Option Nat}

/-- A result. -/
theorem pure (a : α) : Grows block (Pure.pure a) :=
  fun _ _ => .refl

/-- An error. -/
theorem throw (e : SortError) : Grows block (throw e : Load α) :=
  fun _ _ => .refl

/-- One step after another. -/
theorem bind {step : Load α} {next : α → Load β} (h : Grows block step)
    (hnext : ∀ a, Grows block (next a)) : Grows block (step >>= next) := by
  intro s hblock
  have hstep := h s hblock
  rw [run_bind]
  generalize step.run s = result at hstep
  obtain ⟨e | a, t⟩ := result
  · exact hstep
  · exact hstep.trans (hnext a t fun b hb => Nat.lt_of_lt_of_le (hblock b hb) hstep.blocks_le)

/-- A choice. -/
theorem ite {P : Prop} [Decidable P] {step step' : Load α} (h : Grows block step)
    (h' : Grows block step') : Grows block (if P then step else step') := by
  split
  · exact h
  · exact h'

/-- A declaration that is bound under its own name. -/
theorem add (hname : d.name ∈ d.boundNames) (hblock : d.group = block) : Grows block (add d) := by
  intro s hgroup
  rw [← hblock] at hgroup
  by_cases hfree : ∀ n ∈ d.boundNames, ¬s.Binds n
  · rw [run_add_of_free hfree]
    exact .added .refl hname hfree hgroup
  · obtain ⟨name, -, previous, -, hrun⟩ := run_add_of_bound (by simpa using hfree)
    rw [hrun]
    exact .refl

/-- A generated name. -/
theorem fresh (base : String) : Grows block (fresh base) := by
  intro s _
  obtain ⟨counter, hle, heq⟩ := s.gensym_eq base
  change s.Extends (s.gensym base).2
  rw [heq]
  exact .counters .refl (Nat.le_succ_of_le hle) (Nat.le_refl _)

/-- A name, or a generated one for a blank. -/
theorem nameOrFresh (name : Name) : Grows block (nameOrFresh name) :=
  .ite (fresh blank) (pure name)

/-- The names of a line. -/
theorem namesOrFresh (names : List Name) : Grows block (namesOrFresh names) := by
  induction names with
  | nil => exact pure []
  | cons name rest ih => exact .bind (nameOrFresh name) fun n => .bind ih fun bound => pure _

/-- The names of a line, one by one. -/
theorem addGrouped (kind : DeclKind) (group : Nat) (iota : Option Nat) (line : ValueSpec)
    (index : Nat) (keys : List Name) :
    Grows (some group) (addGrouped kind group iota line index keys) := by
  induction keys generalizing index with
  | nil => exact pure ()
  | cons key rest ih => exact .bind (add (List.mem_singleton_self key) rfl) fun _ => ih (index + 1)

/-- A line. -/
theorem loadSpec (kind : DeclKind) (group : Nat) (iota : Option Nat) (line : ValueSpec) :
    Grows (some group) (loadSpec kind group iota line) := by
  refine .bind (namesOrFresh line.names) fun keys => .ite ?_ ?_
  · split
    · exact add List.mem_cons_self rfl
    · exact throw _
  · split
    · exact add (List.mem_singleton_self _) rfl
    · exact addGrouped kind group iota _ 0 keys

/-- A line of a block. -/
theorem loadLine (kind : DeclKind) (group index : Nat) (line : ValueSpec) :
    Grows (some group) (loadLine kind group index line) :=
  .ite (throw _) (loadSpec kind group _ line)

/-- The lines of a block. -/
theorem loadLines (kind : DeclKind) (group index : Nat) (lines : List ValueSpec) :
    Grows (some group) (loadLines kind group index lines) := by
  induction lines generalizing index with
  | nil => exact pure ()
  | cons line rest ih => exact .bind (loadLine kind group index line) fun _ => ih (index + 1)

/-- A function, method or macro. -/
theorem loadFunc (decl : FuncDecl) (isMacro : Bool) : Grows none (loadFunc decl isMacro) := by
  have hadd : ∀ p : DeclKind × Name,
      Grows none (Scope.add ⟨p.1, p.2, .func decl, decl.span, none, none, 0⟩) := fun p =>
    add (List.mem_singleton_self p.2) rfl
  unfold Scope.loadFunc
  cases hrecv : decl.recv with
  | some recv =>
      dsimp only
      cases receiverName recv.type with
      | none => exact .bind (throw _) hadd
      | some base => exact .bind (pure _) hadd
  | none =>
      refine .ite (.bind (nameOrFresh decl.name) fun name => hadd (_, name)) ?_
      refine .ite (.bind (fresh "init") fun name => hadd (_, name)) ?_
      exact .bind (nameOrFresh decl.name) fun name => hadd (_, name)

end Load.Grows

/-- **Loading lets a scope grow**, whatever comes of it. -/
theorem load_extends (s : Scope) (item : Item) : s.Extends ((load item).run s).2 := by
  have hblock : s.Extends { s with blocks := s.blocks + 1 } :=
    .counters .refl (Nat.le_refl _) (Nat.le_succ _)
  cases item with
  | const specs =>
      rw [load_const]
      exact hblock.trans (Load.Grows.loadLines _ _ _ _ _ (by simp))
  | var specs =>
      rw [load_var]
      exact hblock.trans (Load.Grows.loadLines _ _ _ _ _ (by simp))
  | type spec =>
      have hgrows : Load.Grows none (load (.type spec)) :=
        .bind (.nameOrFresh spec.name) fun name => .add (List.mem_singleton_self name) rfl
      exact hgrows s (by simp)
  | func decl => exact Load.Grows.loadFunc decl false s (by simp)
  | macroDecl decl => exact Load.Grows.loadFunc decl true s (by simp)
  | importDecl spec =>
      exact Load.Grows.add (List.mem_singleton_self _) rfl s (by simp)

/-! ### Tables -/

/-- The tables of a scope agree with its declarations. -/
structure Consistent (s : Scope) : Prop where
  seq : ∀ (i : Nat) (d : Decl), s.decls[i]? = some d → d.seq = i
  index : ∀ name i, s.indexOf? name = some i ↔
    ∃ d : Decl, s.decls[i]? = some d ∧ name ∈ d.boundNames
  named : ∀ (i : Nat) (d : Decl), s.decls[i]? = some d → d.name ∈ d.boundNames
  methods : ∀ method i, i ∈ s.methodIndices method ↔
    ∃ d : Decl, s.decls[i]? = some d ∧ d.kind = .method ∧ d.func.map FuncDecl.name = some method
  ascending : ∀ method, (s.methodIndices method).Pairwise (· < ·)
  group : ∀ (i : Nat) (d : Decl), s.decls[i]? = some d → ∀ b ∈ d.group, b < s.blocks

/-- A declaration that is added has the next index under its names. -/
theorem indexOf?_added (hfree : ∀ n ∈ d.boundNames, ¬s.Binds n) :
    (s.added d).indexOf? name =
      if name ∈ d.boundNames then some s.decls.size else s.indexOf? name := by
  rw [indexOf?, added, Array.findIdx?_push]
  by_cases hname : name ∈ d.boundNames
  · have hnone := indexOf?_eq_none_iff.2 (hfree name hname)
    rw [indexOf?] at hnone
    rw [if_pos hname, hnone, Option.none_or]
    exact if_pos (List.contains_iff_mem.2 hname)
  · rw [if_neg hname, indexOf?]
    have hnot : ¬({ d with seq := s.decls.size } : Decl).boundNames.contains name = true :=
      fun h => hname (List.contains_iff_mem.1 h)
    rw [if_neg hnot, Option.or_none]

/-- A method that is added comes last among those of its name. -/
theorem methodIndices_added (method : Name) : (s.added d).methodIndices method =
    s.methodIndices method ++
      if d.kind = .method ∧ d.func.map FuncDecl.name = some method then [s.decls.size] else [] := by
  have hsize : (s.added d).decls.size = s.decls.size + 1 := Array.size_push _
  rw [methodIndices, hsize, List.range_succ, List.filter_append, methodIndices]
  congr 1
  · refine List.filter_congr fun i hi => ?_
    have hlt := List.mem_range.1 hi
    rw [added, Array.getElem?_push_lt hlt, Array.getElem?_eq_getElem hlt]
  · rw [List.filter_singleton, added, Array.getElem?_push_size]
    simp [Decl.func]

namespace Consistent

/-- Nothing is declared yet. -/
theorem empty : empty.Consistent where
  seq := by simp [Scope.empty]
  index := by simp [Scope.empty, indexOf?]
  named := by simp [Scope.empty]
  methods := by simp [Scope.empty, methodIndices]
  ascending := by simp [Scope.empty, methodIndices]
  group := by simp [Scope.empty]

/-- What is declared afterwards. -/
theorem getElem?_added {d' : Decl} : (s.added d).decls[i]? = some d' ↔
    s.decls[i]? = some d' ∨ i = s.decls.size ∧ d' = { d with seq := s.decls.size } := by
  rw [added, Array.getElem?_push]
  split
  · next hi =>
    subst hi
    simp [eq_comm]
  · next hi => simp [hi]

/-- A declaration is added under names that are not bound. -/
theorem added (h : s.Consistent) (hname : d.name ∈ d.boundNames)
    (hfree : ∀ n ∈ d.boundNames, ¬s.Binds n) (hgroup : ∀ b ∈ d.group, b < s.blocks) :
    (s.added d).Consistent where
  seq i d' hd' := by
    rcases getElem?_added.1 hd' with hold | ⟨rfl, rfl⟩
    · exact h.seq i d' hold
    · rfl
  index name i := by
    rw [indexOf?_added hfree]
    split
    · next hname =>
      constructor
      · rintro ⟨⟩
        exact ⟨_, getElem?_added.2 (.inr ⟨rfl, rfl⟩), hname⟩
      · rintro ⟨d', hd', hname'⟩
        rcases getElem?_added.1 hd' with hold | ⟨rfl, -⟩
        · exact absurd ⟨d', Array.mem_of_getElem? hold, hname'⟩ (hfree name hname)
        · rfl
    · next hname =>
      rw [h.index]
      refine exists_congr fun d' => ?_
      rw [getElem?_added]
      constructor
      · exact fun ⟨hold, hname'⟩ => ⟨.inl hold, hname'⟩
      · rintro ⟨hold | ⟨-, rfl⟩, hname'⟩
        · exact ⟨hold, hname'⟩
        · exact absurd hname' hname
  named i d' hd' := by
    rcases getElem?_added.1 hd' with hold | ⟨rfl, rfl⟩
    · exact h.named i d' hold
    · exact hname
  methods _ _ := mem_methodIndices
  ascending method := by
    rw [methodIndices_added]
    refine List.pairwise_append.2 ⟨h.ascending method, by split <;> simp, fun i hi j hj => ?_⟩
    obtain ⟨d', hd', -⟩ := mem_methodIndices.1 hi
    split at hj
    · cases List.mem_singleton.1 hj
      exact (Array.getElem?_eq_some_iff.1 hd').1
    · cases hj
  group i d' hd' := by
    rcases getElem?_added.1 hd' with hold | ⟨rfl, rfl⟩
    · exact h.group i d' hold
    · exact hgroup

/-- **Growing keeps the tables consistent.** -/
theorem of_extends (h : s.Consistent) (hst : s.Extends t) : t.Consistent := by
  induction hst with
  | refl => exact h
  | counters _ _ hblocks ih =>
      exact ⟨ih.seq, ih.index, ih.named, ih.methods, ih.ascending,
        fun i d hd b hb => Nat.lt_of_lt_of_le (ih.group i d hd b hb) hblocks⟩
  | added _ hname hfree hgroup ih => exact ih.added hname hfree hgroup

/-- **No name is bound twice.** -/
theorem unique (h : s.Consistent) {j : Nat} {d d' : Decl} (hd : s.decls[i]? = some d)
    (hd' : s.decls[j]? = some d') (hname : name ∈ d.boundNames) (hname' : name ∈ d'.boundNames) :
    i = j :=
  Option.some.inj (((h.index name i).2 ⟨d, hd, hname⟩).symm.trans
    ((h.index name j).2 ⟨d', hd', hname'⟩))

end Consistent

end Scope

end ScriptCore
