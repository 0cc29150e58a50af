import Mathlib.Data.Set.Finite.Lattice
import Mathlib.Order.Interval.Set.Nat
import Mathlib.Order.WellFounded
import ScriptCore.Proofs.Types.Comparable

/-!
# Containment by value

The values of an array hold its elements, those of a struct its fields, and those of a named type
are the values of what it stands for.  Named types are tied to what they stand for after they were
built and in any order, and the test that is made then follows only the definitions made so far.
No type ever comes to hold itself, all the same.

1. `Acyclic` is the invariant of tables.  A new definition adds one step, from the named type to
   what it stands for; it closes a cycle exactly if what it stands for already leads back
   (`closes_iff`).
2. In a table without cycles a path passes through each definition at most once, so that there is
   a measure by which every step goes down (`depth`, `Acyclic.wellFounded`).  This makes the bound
   on the number of definitions large enough for the test (`holds_iff`).
3. The test therefore refuses the definitions that close a cycle and no others
   (`setUnderlying_invalidRecursive_iff`), and every operation keeps the invariant
   (`TypeOp.performAll_acyclic`).
-/

namespace ScriptCore

namespace TypeTable

/-- No type is stored inside its own values. -/
def Acyclic (t : TypeTable) : Prop :=
  ∀ ty, ¬Relation.TransGen (fun a b => b ∈ t.parts a) ty ty

/-- The named type with the number `id` is the type or stored inside its values. -/
def Reaches (t : TypeTable) (ty : Ty) (id : Nat) : Prop :=
  ∃ name package, t.Component ty (.named id name package)

/-- One step inside, if `id` stood for `target` too. -/
def StepWith (t : TypeTable) (id : Nat) (target a b : Ty) : Prop :=
  b ∈ t.parts a ∨ (∃ name package, a = .named id name package) ∧ b = target

/-- If `id` stood for `target`, some type would be stored inside its own values. -/
def Closes (t : TypeTable) (id : Nat) (target : Ty) : Prop :=
  ∃ ty, Relation.TransGen (t.StepWith id target) ty ty

variable {t t' : TypeTable}

/-- A type leads to a named type by being it or through one of its parts. -/
theorem reaches_iff {ty : Ty} {id : Nat} :
    t.Reaches ty id ↔ (∃ name package, ty = .named id name package) ∨
      ∃ b ∈ t.parts ty, t.Reaches b id := by
  constructor
  · rintro ⟨name, package, hpath⟩
    rcases hpath.cases_head with rfl | ⟨b, hb, hrest⟩
    · exact .inl ⟨name, package, rfl⟩
    · exact .inr ⟨b, hb, name, package, hrest⟩
  · rintro (⟨name, package, rfl⟩ | ⟨b, hb, name, package, hrest⟩)
    · exact ⟨name, package, .refl⟩
    · exact ⟨name, package, .head hb hrest⟩

/-- What a component leads to, the type leads to. -/
theorem Component.reaches {a b : Ty} {id : Nat} (h : t.Component a b) (hb : t.Reaches b id) :
    t.Reaches a id := by
  obtain ⟨name, package, hrest⟩ := hb
  exact ⟨name, package, h.trans hrest⟩

/-! ### One more definition -/

/-- A path takes the new step or does without it; if it takes it, it leads to the named type
before. -/
theorem StepWith.split {id : Nat} {target a b : Ty}
    (h : Relation.TransGen (t.StepWith id target) a b) :
    Relation.TransGen (fun a b => b ∈ t.parts a) a b ∨
      t.Reaches a id ∧ Relation.ReflTransGen (t.StepWith id target) target b := by
  induction h with
  | single hstep =>
      rcases hstep with hpart | ⟨⟨name, package, rfl⟩, rfl⟩
      · exact .inl (.single hpart)
      · exact .inr ⟨⟨name, package, .refl⟩, .refl⟩
  | tail _ hstep ih =>
      rcases ih with hold | ⟨hreach, hnew⟩
      · rcases hstep with hpart | ⟨⟨name, package, rfl⟩, rfl⟩
        · exact .inl (hold.tail hpart)
        · exact .inr ⟨⟨name, package, hold.to_reflTransGen⟩, .refl⟩
      · exact .inr ⟨hreach, hnew.tail hstep⟩

/-- The new step is not needed to lead to the named type at which it starts. -/
theorem StepWith.reaches {id : Nat} {target a b : Ty}
    (h : Relation.ReflTransGen (t.StepWith id target) a b) (hb : t.Reaches b id) :
    t.Reaches a id := by
  induction h using Relation.ReflTransGen.head_induction_on with
  | refl => exact hb
  | head hstep _ ih =>
      rcases hstep with hpart | ⟨⟨name, package, rfl⟩, -⟩
      · exact Component.reaches (.single hpart) ih
      · exact ⟨name, package, .refl⟩

/-- **A definition closes a cycle exactly if what the named type is to stand for leads back to
it.** -/
theorem closes_iff (h : t.Acyclic) {id : Nat} {target : Ty} :
    t.Closes id target ↔ t.Reaches target id := by
  constructor
  · rintro ⟨ty, hcycle⟩
    rcases StepWith.split hcycle with hold | ⟨hreach, hnew⟩
    · exact absurd hold (h ty)
    · exact StepWith.reaches hnew hreach
  · rintro ⟨name, package, hpath⟩
    refine ⟨.named id name package, .head' (.inr ⟨⟨name, package, rfl⟩, rfl⟩) ?_⟩
    exact Relation.ReflTransGen.mono (fun _ _ => Or.inl) _ _ hpath

/-- Tables in which named types stand for the same have the same parts. -/
theorem parts_congr (h : ∀ id, t'.definition? id = t.definition? id) (ty : Ty) :
    t'.parts ty = t.parts ty := by
  cases ty with
  | named id name package => rw [parts, h, parts]
  | _ => rfl

/-- A table with the same parts has no cycle either. -/
theorem Acyclic.congr (h : t.Acyclic) (hparts : ∀ ty, t'.parts ty = t.parts ty) : t'.Acyclic := by
  intro ty hcycle
  simp only [hparts] at hcycle
  exact h ty hcycle

/-- After a named type was defined, it may stand for something new, and no other type does. -/
theorem definition?_define {id k : Nat} {r u : TypeRef} {d : Descriptor}
    (hu : (t.revise id fun e => e.define r d).definition? k = some u) :
    t.definition? k = some u ∨ k = id ∧ u = r := by
  obtain ⟨e, he, hu⟩ := Option.bind_eq_some_iff.1 hu
  rw [revise, List.getElem?_modify] at he
  obtain ⟨e', he', rfl⟩ := Option.map_eq_some_iff.1 he
  have hold : e'.underlying = some u → t.definition? k = some u := by
    intro hu
    rw [definition?, he']
    exact hu
  by_cases hid : id = k
  · rw [if_pos hid, Definition.define] at hu
    cases hunder : e'.underlying with
    | none =>
        simp only [hunder, Option.none_or, Option.some.injEq] at hu
        exact .inr ⟨hid.symm, hu.symm⟩
    | some w => exact .inl (hold (by rw [← hu, hunder, Option.some_or]))
  · rw [if_neg hid] at hu
    exact .inl (hold hu)

/-- A definition that does not lead back closes no cycle. -/
theorem Acyclic.define (h : t.Acyclic) {id : Nat} {r : TypeRef} {d : Descriptor}
    (hno : ¬t.Reaches r.type id) : (t.revise id fun e => e.define r d).Acyclic := by
  intro ty hcycle
  refine hno ((closes_iff h).1 ⟨ty, ?_⟩)
  refine Relation.TransGen.mono (fun a b hb => ?_) _ _ hcycle
  cases a with
  | named k name package =>
      obtain ⟨u, hu, rfl⟩ := mem_parts_named.1 hb
      rcases definition?_define hu with hu | ⟨rfl, rfl⟩
      · exact .inl (mem_parts_named.2 ⟨u, hu, rfl⟩)
      · exact .inr ⟨⟨name, package, rfl⟩, rfl⟩
  | _ => exact .inl hb

/-! ### A measure -/

/-- A named type that stands for something is one of the named types of the table. -/
theorem lt_of_definition? {id : Nat} {u : TypeRef} (h : t.definition? id = some u) :
    id < t.named.length := by
  obtain ⟨d, hd, -⟩ := Option.bind_eq_some_iff.1 h
  exact (List.getElem?_eq_some_iff.1 hd).1

/-- The named types to which a type leads. -/
def reached (t : TypeTable) (ty : Ty) : Set Nat :=
  {id | id < t.named.length ∧ t.Reaches ty id}

/-- How many named types a type leads to. -/
noncomputable def depth (t : TypeTable) (ty : Ty) : Nat :=
  (t.reached ty).ncard

/-- A type leads to no more named types than there are. -/
theorem reached_subset (t : TypeTable) (ty : Ty) : t.reached ty ⊆ Set.Iio t.named.length :=
  fun _ hid => hid.1

/-- A type leads to finitely many named types. -/
theorem reached_finite (t : TypeTable) (ty : Ty) : (t.reached ty).Finite :=
  (Set.finite_lt_nat _).subset (t.reached_subset ty)

/-- The depth is at most the number of named types. -/
theorem depth_le (t : TypeTable) (ty : Ty) : t.depth ty ≤ t.named.length := by
  have hcard := Set.ncard_le_ncard (t.reached_subset ty) (Set.finite_lt_nat _)
  rwa [Set.ncard_Iio_nat] at hcard

/-- A part leads nowhere where the whole does not lead. -/
theorem reached_part {a b : Ty} (hb : b ∈ t.parts a) : t.reached b ⊆ t.reached a :=
  fun _ hid => ⟨hid.1, Component.reaches (.single hb) hid.2⟩

/-- A part leads to no more named types than the whole. -/
theorem depth_part {a b : Ty} (hb : b ∈ t.parts a) : t.depth b ≤ t.depth a :=
  Set.ncard_le_ncard (reached_part hb) (t.reached_finite a)

/-- What a named type stands for leads to fewer: no longer to the named type itself. -/
theorem depth_definition (h : t.Acyclic) {id : Nat} {u : TypeRef} (hu : t.definition? id = some u)
    (name : Name) (package : Option String) :
    t.depth u.type < t.depth (.named id name package) := by
  have hstep : ∀ name package, u.type ∈ t.parts (.named id name package) := fun _ _ =>
    mem_parts_named.2 ⟨u, hu, rfl⟩
  have hin : id ∈ t.reached (.named id name package) :=
    ⟨lt_of_definition? hu, name, package, .refl⟩
  have hout : id ∉ t.reached u.type := by
    rintro ⟨-, name', package', hpath⟩
    exact h _ (.tail' hpath (hstep name' package'))
  refine Set.ncard_lt_ncard ⟨reached_part (hstep name package), fun hsub => ?_⟩
    (t.reached_finite _)
  exact hout (hsub hin)

/-- The types written in a type literal are smaller. -/
theorem sizeOf_inner {ty b : Ty} (hb : b ∈ ty.inner) : sizeOf b < sizeOf ty := by
  cases ty with
  | array n e =>
      rw [List.mem_singleton.1 hb]
      simp +arith
  | struct fs =>
      obtain ⟨f, hf, rfl⟩ := List.mem_map.1 hb
      have hlist := List.sizeOf_lt_of_mem hf
      have hfield : sizeOf f.type < sizeOf f := by
        cases f
        simp +arith
      simp only [Ty.struct.sizeOf_spec]
      omega
  | _ => cases hb

/-- **Every way inside a type comes to an end.** -/
theorem Acyclic.wellFounded (h : t.Acyclic) : WellFounded fun b a => b ∈ t.parts a := by
  have hlex : WellFounded (Prod.Lex (fun m n : Nat => m < n) fun m n : Nat => m < n) :=
    WellFounded.prod_lex Nat.lt_wfRel.wf Nat.lt_wfRel.wf
  refine Subrelation.wf (fun {b a} hb => ?_) (InvImage.wf (fun ty => (t.depth ty, sizeOf ty)) hlex)
  cases a with
  | named id name package =>
      obtain ⟨u, hu, rfl⟩ := mem_parts_named.1 hb
      exact Prod.Lex.left _ _ (depth_definition h hu name package)
  | _ =>
      rcases Nat.lt_or_eq_of_le (depth_part hb) with hlt | heq
      · exact Prod.Lex.left _ _ hlt
      · simp only [InvImage, heq]
        exact Prod.Lex.right _ (sizeOf_inner hb)

/-! ### The test -/

/-- The fields that hold a named type. -/
theorem holdsField_eq_any (stops : Nat → Bool) (fs : List (Name × Descriptor)) :
    holdsWith.holdsField stops fs = fs.any fun f => holdsWith stops f.2 := by
  induction fs with
  | nil => rfl
  | cons f fs ih => rw [holdsWith.holdsField, ih, List.any_cons]

/-- Of a type literal the test asks about the types written in it. -/
theorem holdsWith_literal (stops : Nat → Bool) {ty : Ty} (h : ty.isNamed = false) :
    holdsWith stops ty.descriptor = ty.inner.any fun e => holdsWith stops e.descriptor := by
  cases ty with
  | array n e => simp only [Ty.descriptor, holdsWith, Ty.inner, List.any_cons, List.any_nil,
      Bool.or_false]
  | struct fs =>
      simp only [Ty.descriptor, holdsWith, holdsField_eq_any, Ty.fieldDescriptors_eq_map, Ty.inner,
        List.any_map, Function.comp_def]
  | func recv ps rs v => cases recv <;> rfl
  | named => cases h
  | _ => rfl

/-- The same at any bound. -/
theorem holdsAt_literal (id n : Nat) {ty : Ty} (h : ty.isNamed = false) :
    t.holdsAt id n ty.descriptor = ty.inner.any fun e => t.holdsAt id n e.descriptor := by
  cases n with
  | zero => exact holdsWith_literal _ h
  | succ n => exact holdsWith_literal _ h

/-- The test is right with a bound that is no smaller than the depth of the type. -/
theorem holdsAt_iff (ht : t.InStep) (h : t.Acyclic) (id : Nat) (ty : Ty) {n : Nat}
    (hn : t.depth ty ≤ n) : t.holdsAt id n ty.descriptor = true ↔ t.Reaches ty id := by
  induction ty using h.wellFounded.induction generalizing n with
  | _ ty ih =>
      rw [reaches_iff]
      by_cases hnamed : ty.isNamed = true
      · cases ty with
        | named k name package =>
            cases n with
            | zero =>
                -- Nothing is left of the bound, so the type stands for nothing.
                have hnone : t.definition? k = none := by
                  rw [Option.eq_none_iff_forall_ne_some]
                  intro u hu
                  have hlt := depth_definition h hu name package
                  omega
                simp [Ty.descriptor, holdsAt, holdsWith, parts, hnone]
            | succ n =>
                have hrec : ∀ u, t.definition? k = some u →
                    (t.holdsAt id n u.type.descriptor = true ↔ t.Reaches u.type id) := by
                  intro u hu
                  have hlt := depth_definition h hu name package
                  exact ih u.type (mem_parts_named.2 ⟨u, hu, rfl⟩) (by omega)
                cases hu : t.definition? k with
                | none => simp [Ty.descriptor, holdsAt, holdsWith, parts, hu, ht.described?_eq]
                | some u =>
                    simp [Ty.descriptor, holdsAt, holdsWith, parts, hu, ht.described?_eq,
                      hrec u hu]
        | _ => cases hnamed
      · have hliteral := Bool.eq_false_iff.2 hnamed
        have hself : ¬∃ name package, ty = .named id name package := by
          rintro ⟨name, package, rfl⟩
          cases hliteral
        rw [holdsAt_literal id n hliteral, List.any_eq_true, or_iff_right hself,
          parts_of_not_named hliteral]
        refine exists_congr fun b => and_congr_right fun hb => ?_
        have hpart : b ∈ t.parts ty := by rwa [parts_of_not_named hliteral]
        exact ih b hpart (Nat.le_trans (depth_part hpart) hn)

/-- **The test is right.** -/
theorem holds_iff (ht : t.InStep) (h : t.Acyclic) (id : Nat) (ty : Ty) :
    t.holds id ty.descriptor = true ↔ t.Reaches ty id :=
  holdsAt_iff ht h id ty (t.depth_le ty)

/-- A type that is defined stands for what is not named. -/
theorem resolve_named_iff (u : TypeRef) :
    (t.resolve u).type.isNamed = true ↔ ¬t.Defined u.type := by
  rw [Defined, Bool.not_eq_false]
  obtain ⟨home, ty⟩ := u
  cases ty with
  | named id name package =>
      cases hu : t.definition? id with
      | none => simp [resolve, underlying, hu]
      | some r => simp [resolve, underlying, hu]
  | _ => rfl

/-- What a type stands for. -/
theorem resolve_type (u : TypeRef) : (t.resolve u).type = t.underlying u.type := by
  obtain ⟨home, ty⟩ := u
  cases ty with
  | named id name package =>
      cases hu : t.definition? id with
      | none => simp [resolve, underlying, hu]
      | some r => simp [resolve, underlying, hu]
  | _ => rfl

end TypeTable

namespace Universe

/-- The definition of a named type is refused as recursive, refused as a second one, or made. -/
theorem setUnderlying_run (t : TypeTable) (home id : Nat) (name : Name)
    (package : Option String) (u : TypeRef) :
    (setUnderlying ⟨home, .named id name package⟩ u).run.run t =
      if (t.resolve u).type.isNamed || t.holds id (t.rtype (t.resolve u)) then
        (.error (.invalidRecursive name), t)
      else if (t.definition? id).isSome then (.error (.alreadyDefined name), t)
      else (.ok (), t.revise id fun d => d.define (t.resolve u) (t.rtype (t.resolve u))) := by
  rw [setUnderlying, Build.get_bind]
  dsimp only
  by_cases hrec : ((t.resolve u).type.isNamed || t.holds id (t.rtype (t.resolve u))) = true
  · rw [if_pos hrec, if_pos hrec]
    rfl
  · rw [if_neg hrec, if_neg hrec]
    by_cases hsecond : (t.definition? id).isSome = true
    · rw [if_pos hsecond, if_pos hsecond]
      rfl
    · rw [if_neg hsecond, if_neg hsecond]
      rfl

/-- **Exactly the definitions that would be recursive are refused as such**: those by a named type
that stands for nothing, and those after which some type would hold itself. -/
theorem setUnderlying_invalidRecursive_iff {t : TypeTable} (ht : t.InStep) (h : t.Acyclic)
    (r u : TypeRef) (name : Name) :
    ((setUnderlying r u).run.run t).1 = .error (.invalidRecursive name) ↔
      ∃ id package, r.type = .named id name package ∧
        (¬t.Defined u.type ∨ t.Closes id (t.underlying u.type)) := by
  obtain ⟨home, ty⟩ := r
  cases ty with
  | named id owner package =>
      have htest : ((t.resolve u).type.isNamed || t.holds id (t.rtype (t.resolve u))) = true ↔
          ¬t.Defined u.type ∨ t.Closes id (t.underlying u.type) := by
        rw [Bool.or_eq_true, TypeTable.resolve_named_iff, ht.rtype_eq, TypeTable.holds_iff ht h,
          TypeTable.resolve_type, TypeTable.closes_iff h]
      have hrefused : ((setUnderlying ⟨home, .named id owner package⟩ u).run.run t).1 =
          .error (.invalidRecursive name) ↔ owner = name ∧
            ((t.resolve u).type.isNamed || t.holds id (t.rtype (t.resolve u))) = true := by
        rw [setUnderlying_run]
        split
        · simp [*]
        · split
          · simp [*]
          · simp [*]
      rw [hrefused, htest]
      constructor
      · rintro ⟨rfl, hrec⟩
        exact ⟨id, package, rfl, hrec⟩
      · rintro ⟨_, _, heq, hrec⟩
        cases heq
        exact ⟨rfl, hrec⟩
  | _ =>
      constructor
      · intro hrun
        cases hrun
      · rintro ⟨_, _, heq, -⟩
        cases heq

end Universe

/-! ### Operations -/

namespace TypeOp

variable {t : TypeTable}

/-- Building a type literal, declaring a type and declaring a method define nothing. -/
theorem Step.definition?_eq {t' : TypeTable} {op : TypeOp} (hstep : Step t op t') :
    (∀ id, t'.definition? id = t.definition? id) ∨
      ∃ home id name package u, op = .setUnderlying ⟨home, .named id name package⟩ u := by
  cases hstep with
  | refused => exact .inl fun _ => rfl
  | built => exact .inl fun id => by rw [TypeTable.definition?, TypeTable.intern_named]; rfl
  | declared =>
      refine .inl fun id => ?_
      rw [TypeTable.definition?, TypeTable.intern_named, TypeTable.declare, TypeTable.definition?]
      by_cases hlt : id < t.named.length
      · rw [List.getElem?_append_left hlt]
      · rw [List.getElem?_append_right (Nat.le_of_not_lt hlt),
          List.getElem?_eq_none (Nat.le_of_not_lt hlt)]
        cases id - t.named.length <;> rfl
  | defined home id name package u => exact .inr ⟨home, id, name, package, u, rfl⟩
  | extended home id =>
      refine .inl fun k => ?_
      rw [TypeTable.definition?, TypeTable.revise, List.getElem?_modify, TypeTable.definition?]
      by_cases hid : id = k
      · cases t.named[k]? <;> simp [hid]
      · cases t.named[k]? <;> simp [hid]

/-- What is left of a table after a definition. -/
theorem outcome_setUnderlying (t : TypeTable) (home id : Nat) (name : Name)
    (package : Option String) (u : TypeRef) :
    ((setUnderlying ⟨home, .named id name package⟩ u).outcome t).2 = t ∨
      (t.holds id (t.rtype (t.resolve u)) = false ∧
        ((setUnderlying ⟨home, .named id name package⟩ u).outcome t).2 =
          t.revise id fun d => d.define (t.resolve u) (t.rtype (t.resolve u))) := by
  have hperform : (setUnderlying ⟨home, .named id name package⟩ u).perform.run.run t =
      Prod.map (Except.map fun _ => none) (fun t => t)
        ((Universe.setUnderlying ⟨home, .named id name package⟩ u).run.run t) := by
    rw [perform, ExceptT.run_map, StateT.run_map]
    rfl
  rw [outcome, hperform, Universe.setUnderlying_run]
  by_cases hrec : ((t.resolve u).type.isNamed || t.holds id (t.rtype (t.resolve u))) = true
  · rw [if_pos hrec]
    exact .inl rfl
  · rw [if_neg hrec]
    rw [Bool.or_eq_true, not_or, Bool.not_eq_true, Bool.not_eq_true] at hrec
    by_cases hsecond : (t.definition? id).isSome = true
    · rw [if_pos hsecond]
      exact .inl rfl
    · rw [if_neg hsecond]
      exact .inr ⟨hrec.2, rfl⟩

/-- No operation closes a cycle. -/
theorem outcome_acyclic (ht : t.InStep) (h : t.Acyclic) (op : TypeOp) :
    (op.outcome t).2.Acyclic := by
  rcases (outcome_step t op).definition?_eq with hsame | ⟨home, id, name, package, u, rfl⟩
  · exact h.congr (TypeTable.parts_congr hsame)
  · rcases outcome_setUnderlying t home id name package u with hsame | ⟨hno, hdefined⟩
    · rwa [hsame]
    · rw [hdefined]
      refine h.define fun hreach => ?_
      rw [ht.rtype_eq, Bool.eq_false_iff] at hno
      exact hno ((TypeTable.holds_iff ht h id _).2 hreach)

/-- The empty table has no cycle. -/
theorem empty_acyclic : TypeTable.empty.Acyclic := by
  intro ty hcycle
  -- A cycle would begin at a literal and go on to smaller literals only.
  have hlt : ∀ a b, Relation.TransGen (fun a b => b ∈ TypeTable.empty.parts a) a b →
      sizeOf b < sizeOf a := by
    intro a b hpath
    have hstep : ∀ a b, b ∈ TypeTable.empty.parts a → sizeOf b < sizeOf a := by
      intro a b hb
      cases a with
      | named id name package =>
          obtain ⟨u, hu, -⟩ := TypeTable.mem_parts_named.1 hb
          cases hu
      | _ => exact TypeTable.sizeOf_inner hb
    induction hpath with
    | single hb => exact hstep _ _ hb
    | tail _ hb ih => exact Nat.lt_trans (hstep _ _ hb) ih
  exact Nat.lt_irrefl _ (hlt ty ty hcycle)

/-- After any operations no type is stored inside its own values. -/
theorem performAll_keeps_acyclic (ht : t.InStep) (h : t.Acyclic) (ops : List TypeOp) :
    (performAll ops t).2.Acyclic := by
  induction ops generalizing t with
  | nil => exact h
  | cons op ops ih => exact ih (outcome_inStep ht op).1 (outcome_acyclic ht h op)

end TypeOp

end ScriptCore
