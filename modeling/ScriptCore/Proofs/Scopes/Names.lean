import Mathlib.Data.List.Nodup
import Mathlib.Data.List.Perm.Subperm
import ScriptCore.Declaration.Scope

/-!
# Bound and generated names

A scope binds the names of its declarations.  A generated name is not bound: among as many counters
as there are bound names, and one more, there is one whose name is free.  A line declares its names
under keys, which are the names themselves and a generated name for each blank; written names have
no `#` in them, so blanks never get in the way of anything.

Main statements: `not_binds_gensym` and `admits_keysOf`.
-/

namespace ScriptCore

namespace Scope

variable {s s' : Scope} {name : Name} {names : List Name}

/-! ### Bound names -/

/-- A declaration of the scope binds the name. -/
def Binds (s : Scope) (name : Name) : Prop :=
  ∃ d ∈ s.decls, name ∈ d.boundNames

/-- Only bound names are found. -/
theorem get?_eq_none_iff : s.get? name = none ↔ ¬s.Binds name := by
  simp [get?, Binds]

/-- What is found under a name is a declaration that binds it. -/
theorem get?_eq_some {d : Decl} (h : s.get? name = some d) : d ∈ s.decls ∧ name ∈ d.boundNames :=
  ⟨Array.mem_of_find?_eq_some h, by simpa using Array.find?_some h⟩

/-- Only bound names have an index. -/
theorem indexOf?_eq_none_iff : s.indexOf? name = none ↔ ¬s.Binds name := by
  simp [indexOf?, Binds]

/-- Scopes with the same declarations bind the same names. -/
theorem binds_congr (h : s'.decls = s.decls) : s'.Binds name ↔ s.Binds name := by
  rw [Binds, Binds, h]

/-- All bound names. -/
def bound (s : Scope) : List Name :=
  s.decls.toList.flatMap Decl.boundNames

theorem mem_bound : name ∈ s.bound ↔ s.Binds name := by
  simp [bound, Binds]

/-- Their number. -/
theorem length_bound (s : Scope) : s.bound.length = s.boundCount := by
  have hfold : ∀ (ds : List Decl) (n : Nat),
      ds.foldl (fun n d => n + d.boundNames.length) n =
        n + (ds.flatMap Decl.boundNames).length := by
    intro ds
    induction ds with
    | nil => exact fun _ => rfl
    | cons d ds ih =>
        intro n
        rw [List.foldl_cons, ih, List.flatMap_cons, List.length_append, Nat.add_assoc]
  rw [boundCount, ← Array.foldl_toList, hfold, Nat.zero_add, bound]

/-! ### Generated names -/

/-- Different counters generate different names. -/
theorem generatedName_inj {base : String} {a b : Nat} :
    generatedName base a = generatedName base b ↔ a = b := by
  refine ⟨fun h => ?_, fun h => h ▸ rfl⟩
  have hlists := congrArg String.toList h
  simp only [generatedName, String.toList_append] at hlists
  have hdigits := congrArg (fun ds => Nat.ofDigitChars 10 ds 0) (List.append_cancel_left hlists)
  simpa [Nat.toString_eq_ofList_toDigits] using hdigits

/-- A generated name has a `#` in it. -/
theorem hash_mem_generatedName (base : String) (counter : Nat) :
    '#' ∈ (generatedName base counter).toList := by
  simp [generatedName]

/-- The search stops at a name that is not bound, or all names that it met are bound. -/
theorem freshCounter_spec (s : Scope) (base : String) (fuel counter : Nat) :
    counter ≤ freshCounter s base fuel counter ∧
      (¬s.Binds (generatedName base (freshCounter s base fuel counter)) ∨
        freshCounter s base fuel counter = counter + fuel ∧
          ∀ i < fuel, s.Binds (generatedName base (counter + i))) := by
  induction fuel generalizing counter with
  | zero => exact ⟨Nat.le_refl _, .inr ⟨rfl, fun i hi => absurd hi (Nat.not_lt_zero i)⟩⟩
  | succ fuel ih =>
      rw [freshCounter]
      split
      · rename_i hsome
        obtain ⟨hle, hcases⟩ := ih (counter + 1)
        refine ⟨by omega, hcases.imp_right fun ⟨hend, hall⟩ => ⟨by omega, fun i hi => ?_⟩⟩
        cases i with
        | zero =>
            rw [Nat.add_zero]
            by_contra hfree
            rw [indexOf?_eq_none_iff.2 hfree] at hsome
            cases hsome
        | succ i =>
            rw [show counter + (i + 1) = counter + 1 + i by omega]
            exact hall i (by omega)
      · rename_i hnone
        refine ⟨Nat.le_refl _, .inl (indexOf?_eq_none_iff.1 ?_)⟩
        simpa using hnone

/-- **A generated name is not bound.** -/
theorem not_binds_gensym (s : Scope) (base : String) : ¬s.Binds (s.gensym base).1 := by
  rw [gensym]
  rcases (freshCounter_spec s base s.boundCount s.generated).2 with hfree | ⟨hend, hall⟩
  · exact hfree
  · -- all candidates but the last are bound, so with the last there would be one too many
    intro hlast
    dsimp only at hlast
    rw [hend] at hlast
    let candidates := (List.range (s.boundCount + 1)).map
      fun i => generatedName base (s.generated + i)
    have hnodup : candidates.Nodup := by
      refine List.Nodup.map (fun a b hab => ?_) List.nodup_range
      have := generatedName_inj.1 hab
      omega
    have hsub : candidates ⊆ s.bound := by
      intro k hk
      obtain ⟨i, hi, rfl⟩ := List.mem_map.1 hk
      rw [mem_bound]
      rcases Nat.lt_succ_iff_lt_or_eq.1 (List.mem_range.1 hi) with hlt | rfl
      · exact hall i hlt
      · exact hlast
    have hle := (List.subperm_of_subset hnodup hsub).length_le
    rw [length_bound, List.length_map, List.length_range] at hle
    omega

/-- A generated name is formed with a counter that was not used before. -/
theorem gensym_eq (s : Scope) (base : String) : ∃ counter, s.generated ≤ counter ∧
    s.gensym base = (generatedName base counter, { s with generated := counter + 1 }) :=
  ⟨_, (freshCounter_spec s base s.boundCount s.generated).1, rfl⟩

/-! ### Keys of a line -/

/-- The keys under which names are declared, and the scope with its counter moved on. -/
def keysOf (s : Scope) : List Name → List Name × Scope
  | [] => ([], s)
  | n :: rest =>
    let first := if n = blank then s.gensym blank else (n, s)
    let others := keysOf first.2 rest
    (first.1 :: others.1, others.2)

/-- Names can be declared: they are all different, and none is bound. -/
def Admits (s : Scope) (names : List Name) : Prop :=
  names.Nodup ∧ ∀ n ∈ names, ¬s.Binds n

/-- The names that are not blank. -/
def written (names : List Name) : List Name :=
  names.filter (· ≠ blank)

@[simp] theorem written_blank (rest : List Name) : written (blank :: rest) = written rest :=
  List.filter_cons_of_neg (by simp)

theorem written_cons {n : Name} (hn : n ≠ blank) (rest : List Name) :
    written (n :: rest) = n :: written rest :=
  List.filter_cons_of_pos (by simpa using hn)

/-- A name that is not blank, and a generated one for a blank. -/
theorem keysOf_cons_of_ne (s : Scope) {n : Name} (hn : n ≠ blank) (rest : List Name) :
    s.keysOf (n :: rest) = (n :: (s.keysOf rest).1, (s.keysOf rest).2) := by
  rw [keysOf, if_neg hn]

/-- A blank. -/
theorem keysOf_cons_blank (s : Scope) (rest : List Name) : ∃ counter, s.generated ≤ counter ∧
    ¬s.Binds (generatedName blank counter) ∧ s.keysOf (blank :: rest) =
      (generatedName blank counter ::
          (keysOf { s with generated := counter + 1 } rest).1,
        (keysOf { s with generated := counter + 1 } rest).2) := by
  obtain ⟨counter, hle, heq⟩ := s.gensym_eq blank
  have hfree := s.not_binds_gensym blank
  rw [heq] at hfree
  refine ⟨counter, hle, hfree, ?_⟩
  rw [keysOf, if_pos rfl, heq]

/-- There are as many keys as names. -/
@[simp] theorem length_keysOf (s : Scope) (names : List Name) :
    (s.keysOf names).1.length = names.length := by
  induction names generalizing s with
  | nil => rfl
  | cons n rest ih => rw [keysOf, List.length_cons, ih, List.length_cons]

/-- Naming declares nothing and begins no block. -/
theorem keysOf_scope (s : Scope) (names : List Name) :
    (s.keysOf names).2.decls = s.decls ∧ (s.keysOf names).2.blocks = s.blocks ∧
      s.generated ≤ (s.keysOf names).2.generated := by
  induction names generalizing s with
  | nil => exact ⟨rfl, rfl, Nat.le_refl _⟩
  | cons n rest ih =>
      by_cases hn : n = blank
      · subst hn
        obtain ⟨counter, hle, -, heq⟩ := s.keysOf_cons_blank rest
        obtain ⟨hdecls, hblocks, hgenerated⟩ := ih { s with generated := counter + 1 }
        rw [heq]
        dsimp only at hgenerated ⊢
        exact ⟨hdecls, hblocks, by omega⟩
      · rw [keysOf_cons_of_ne s hn]
        exact ih s

/-- What a key is. -/
theorem mem_keysOf {k : Name} (hk : k ∈ (s.keysOf names).1) : k ∈ written names ∨
    ∃ counter, s.generated ≤ counter ∧ k = generatedName blank counter ∧ ¬s.Binds k := by
  induction names generalizing s with
  | nil => cases hk
  | cons n rest ih =>
      by_cases hn : n = blank
      · subst hn
        obtain ⟨counter, hle, hfree, heq⟩ := s.keysOf_cons_blank rest
        rw [heq] at hk
        rcases List.mem_cons.1 hk with rfl | hk
        · exact .inr ⟨counter, hle, rfl, hfree⟩
        · refine (ih hk).imp (fun h => ?_) fun ⟨c, hc, heq, hnot⟩ => ⟨c, ?_, heq, hnot⟩
          · rwa [written_blank]
          · dsimp only at hc
            omega
      · rw [keysOf_cons_of_ne s hn] at hk
        rcases List.mem_cons.1 hk with rfl | hk
        · exact .inl (by rw [written_cons hn]; exact List.mem_cons_self)
        · refine (ih hk).imp_left fun h => ?_
          rw [written_cons hn]
          exact List.mem_cons_of_mem _ h

/-- A name that is not blank is a key. -/
theorem mem_keysOf_of_written {n : Name} (hn : n ∈ written names) : n ∈ (s.keysOf names).1 := by
  induction names generalizing s with
  | nil => cases hn
  | cons first rest ih =>
      by_cases hfirst : first = blank
      · subst hfirst
        obtain ⟨counter, -, -, heq⟩ := s.keysOf_cons_blank rest
        rw [heq]
        exact List.mem_cons_of_mem _ (ih (by rwa [written_blank] at hn))
      · rw [keysOf_cons_of_ne s hfirst]
        rw [written_cons hfirst] at hn
        rcases List.mem_cons.1 hn with rfl | hn
        · exact List.mem_cons_self
        · exact List.mem_cons_of_mem _ (ih hn)

/-- The keys are different if the names that are not blank are. -/
theorem nodup_keysOf (hplain : ∀ n ∈ names, '#' ∉ n.toList) :
    (s.keysOf names).1.Nodup ↔ (written names).Nodup := by
  induction names generalizing s with
  | nil => exact Iff.rfl
  | cons n rest ih =>
      obtain ⟨hplainN, hplainRest⟩ := List.forall_mem_cons.1 hplain
      by_cases hn : n = blank
      · subst hn
        obtain ⟨counter, -, -, heq⟩ := s.keysOf_cons_blank rest
        rw [heq, List.nodup_cons, ih hplainRest, written_blank]
        refine and_iff_right fun hmem => ?_
        rcases mem_keysOf hmem with hwritten | ⟨c, hc, hsame, -⟩
        · exact hplainRest _ (List.mem_of_mem_filter hwritten) (hash_mem_generatedName _ _)
        · have := generatedName_inj.1 hsame
          dsimp only at hc
          omega
      · rw [keysOf_cons_of_ne s hn, written_cons hn, List.nodup_cons, List.nodup_cons,
          ih hplainRest]
        refine and_congr_left fun _ => not_congr ⟨fun hmem => ?_, mem_keysOf_of_written⟩
        rcases mem_keysOf hmem with hwritten | ⟨c, -, rfl, -⟩
        · exact hwritten
        · exact absurd (hash_mem_generatedName _ _) hplainN

/-- A generated key stands for one blank. -/
theorem count_keysOf_le (s : Scope) {k : Name} (hplain : ∀ n ∈ names, '#' ∉ n.toList)
    (hk : '#' ∈ k.toList) :
    (s.keysOf names).1.count k ≤ 1 := by
  induction names generalizing s with
  | nil => exact Nat.zero_le _
  | cons n rest ih =>
      obtain ⟨hplainN, hplainRest⟩ := List.forall_mem_cons.1 hplain
      by_cases hn : n = blank
      · subst hn
        obtain ⟨counter, -, -, heq⟩ := s.keysOf_cons_blank rest
        rw [heq, List.count_cons]
        split
        · next hfirst =>
          -- the counter has moved on, so the other keys are formed with others
          have hlater : k ∉ (keysOf { s with generated := counter + 1 } rest).1 := fun hmem => by
            rcases mem_keysOf hmem with hwritten | ⟨c, hc, rfl, -⟩
            · exact hplainRest _ (List.mem_of_mem_filter hwritten) hk
            · have := generatedName_inj.1 (beq_iff_eq.1 hfirst)
              dsimp only at hc
              omega
          exact Nat.le_of_eq (congrArg (· + 1) (List.count_eq_zero_of_not_mem hlater))
        · exact ih _ hplainRest
      · rw [keysOf_cons_of_ne s hn, List.count_cons_of_ne]
        · exact ih _ hplainRest
        · rintro rfl
          exact hplainN hk

/-- **Blanks do not get in the way**: the keys of a line can be declared exactly if the names that
are not blank can be. -/
theorem admits_keysOf (hplain : ∀ n ∈ names, '#' ∉ n.toList) :
    s.Admits (s.keysOf names).1 ↔ s.Admits (written names) := by
  rw [Admits, Admits, nodup_keysOf hplain]
  refine and_congr_right fun _ => ⟨fun h n hn => h n (mem_keysOf_of_written hn), fun h k hk => ?_⟩
  rcases mem_keysOf hk with hwritten | ⟨_, -, -, hfree⟩
  · exact h k hwritten
  · exact hfree

end Scope

end ScriptCore
