import ScriptCore.Proofs.Addressing.Fits
import ScriptCore.Proofs.Results.Written

/-!
# Bodies that are written down

What a body consists of when it has been written down with labels: the parts of its statements and
nothing else.  All its jumps land in it.  A label is pending between the jumps to it and the point
where it is bound; every form of statement binds the labels it makes, so in the end none is pending.

Main statements: `Routine.written_holds` (the finished body keeps to what its statements keep to)
and `Tree.write_landed`.
-/

namespace ScriptCore

open Code

namespace Assembly

variable {k k' : Assembly} {pending : List Nat}

/-! ### Parts -/

/-- Parts of the code so far. -/
def parts (k : Assembly) : List Part :=
  k.code.toList.flatMap Instr.parts

/-- An instruction is added. -/
@[simp] theorem push_parts (k : Assembly) (i : Instr) : (k.push i).parts = k.parts ++ i.parts := by
  simp [parts, push]

/-- Instructions are added. -/
@[simp] theorem pushAll_parts (k : Assembly) (is : List Instr) :
    (k.pushAll is).parts = k.parts ++ is.flatMap Instr.parts := by
  induction is generalizing k with
  | nil => simp
  | cons i is ih => simp [ih]

/-- A branch is added. -/
@[simp] theorem branchOn_parts (k : Assembly) (test : Option Code.Expr) (label : Nat) :
    (k.branchOn test label).parts = k.parts ++ partsOf? test := by
  cases test <;> simp [branchOn, partsOf?, Instr.parts, Instr.sources, Instr.targets]

/-- A label is no code. -/
@[simp] theorem newLabel_parts (k : Assembly) : k.newLabel.2.parts = k.parts := rfl

/-- A bound label is no code. -/
@[simp] theorem place_parts (k : Assembly) (label : Nat) : (k.place label).parts = k.parts := rfl

/-- A loop is no code. -/
@[simp] theorem enterLoop_parts (k : Assembly) (l : LoopLabels) :
    (k.enterLoop l).parts = k.parts := rfl

/-- A loop is no code. -/
@[simp] theorem leaveLoop_parts (k : Assembly) : k.leaveLoop.parts = k.parts := rfl

/-! ### Labels -/

/-- A label has a position in the code so far. -/
def Bound (k : Assembly) (label : Nat) : Prop :=
  ∃ p, k.labels[label]? = some (some p) ∧ p ≤ k.code.size

/-- A label that is bound stays bound. -/
theorem Bound.of_grows {label : Nat} (h : k.Bound label) (hgrows : k.Grows k') :
    k'.Bound label := by
  obtain ⟨p, hp, hle⟩ := h
  refine ⟨p, (hgrows.labels label (List.getElem?_eq_some_iff.1 hp).1).trans hp,
    Nat.le_trans hle (Nat.le_of_not_lt fun hlt => ?_)⟩
  have hlast := hgrows.code k'.code.size _ (Array.getElem?_eq_getElem hlt)
  simp at hlast

/-- A label that is bound here is bound. -/
theorem bound_place {label : Nat} (h : k.labels[label]? = some none) :
    (k.place label).Bound label :=
  ⟨k.code.size, Labels.getElem?_bind_self h, Nat.le_refl _⟩

/-- Every jump so far goes to a label that is bound or pending, and so do `break` and `continue` in
the loops around.  What is pending is not bound yet. -/
structure Landed (k : Assembly) (pending : List Nat) : Prop where
  jumps : ∀ i ∈ k.code, ∀ label, i.label? = some label → label ∈ pending ∨ k.Bound label
  unbound : ∀ label ∈ pending, k.labels[label]? = some none
  loops : ∀ l ∈ k.loops, l.exit ∈ pending ∧ l.next ∈ pending

namespace Landed

/-- An instruction whose label is pending or bound. -/
theorem push {i : Instr} (h : k.Landed pending)
    (hi : ∀ label, i.label? = some label → label ∈ pending ∨ k.Bound label) :
    (k.push i).Landed pending := by
  have hbound : ∀ label, k.Bound label → (k.push i).Bound label :=
    fun _ hb => hb.of_grows ((Grows.refl k).push i)
  refine ⟨fun j hj label hlabel => ?_, h.unbound, h.loops⟩
  rcases Array.mem_push.1 hj with hj | rfl
  · exact (h.jumps j hj label hlabel).imp_right (hbound label)
  · exact (hi label hlabel).imp_right (hbound label)

/-- Instructions without labels. -/
theorem pushAll {is : List Instr} (h : k.Landed pending) (his : ∀ i ∈ is, i.isPlain = true) :
    (k.pushAll is).Landed pending := by
  induction is generalizing k with
  | nil => exact h
  | cons i is ih =>
      refine ih (h.push fun label hlabel => ?_) fun j hj => his j (List.mem_cons_of_mem _ hj)
      have hplain := his i List.mem_cons_self
      cases i <;> simp_all [Instr.isPlain, Instr.label?]

/-- A jump to a label that is pending or bound. -/
theorem jump {label : Nat} (h : k.Landed pending) (hlabel : label ∈ pending ∨ k.Bound label) :
    (k.push (.jump label)).Landed pending :=
  h.push fun _ hl => Option.some.inj hl ▸ hlabel

/-- A branch to a pending label. -/
theorem branch {label : Nat} (h : k.Landed pending) (e : Code.Expr) (hlabel : label ∈ pending) :
    (k.push (.branch e label)).Landed pending :=
  h.push fun _ hl => .inl (Option.some.inj hl ▸ hlabel)

/-- A branch to a pending label, if there is a condition. -/
theorem branchOn {label : Nat} (h : k.Landed pending) (test : Option Code.Expr)
    (hlabel : label ∈ pending) : (k.branchOn test label).Landed pending := by
  cases test with
  | none => exact h
  | some e => exact h.branch e hlabel

/-- A new label is pending. -/
theorem newLabel (h : k.Landed pending) : k.newLabel.2.Landed (k.newLabel.1 :: pending) := by
  have hgrows := (Grows.refl k).newLabel
  refine ⟨fun i hi label hlabel => ?_, fun label hlabel => ?_, fun l hl => ?_⟩
  · exact (h.jumps i hi label hlabel).imp (List.mem_cons_of_mem _) fun hb => hb.of_grows hgrows
  · rcases List.mem_cons.1 hlabel with rfl | hlabel
    · exact k.newLabel_unbound
    · exact hgrows.unbound (h.unbound label hlabel)
  · exact (h.loops l hl).imp (List.mem_cons_of_mem _) (List.mem_cons_of_mem _)

/-- A new label is none of the pending ones. -/
theorem fresh (h : k.Landed pending) : k.newLabel.1 ∉ pending := fun hmem =>
  absurd (List.getElem?_eq_some_iff.1 (h.unbound _ hmem)).1 (by simp [newLabel_fst])

/-- A label that is bound is no longer pending. -/
theorem place {label : Nat} (h : k.Landed (label :: pending)) (hlabel : label ∉ pending)
    (hloops : ∀ l ∈ k.loops, l.exit ∈ pending ∧ l.next ∈ pending) :
    (k.place label).Landed pending := by
  refine ⟨fun i hi other hother => ?_, fun other hother => ?_, hloops⟩
  · rcases h.jumps i hi other hother with hmem | ⟨p, hp, hle⟩
    · rcases List.mem_cons.1 hmem with rfl | hmem
      · exact .inr ⟨k.code.size, Labels.getElem?_bind_self (h.unbound _ List.mem_cons_self),
          Nat.le_refl _⟩
      · exact .inl hmem
    · exact .inr ⟨p, Labels.getElem?_bind_of_bound hp, hle⟩
  · have hne : other ≠ label := by
      rintro rfl
      exact hlabel hother
    rw [Assembly.place, Labels.getElem?_bind_ne hne]
    exact h.unbound other (List.mem_cons_of_mem _ hother)

/-- The order of the pending labels does not matter. -/
theorem swap {a b : Nat} (h : k.Landed (a :: b :: pending)) : k.Landed (b :: a :: pending) := by
  have hmem : ∀ l, l ∈ a :: b :: pending → l ∈ b :: a :: pending :=
    fun _ => (List.Perm.swap b a pending).mem_iff.1
  exact ⟨fun i hi label hlabel => (h.jumps i hi label hlabel).imp_left (hmem label),
    fun label hlabel => h.unbound label ((List.Perm.swap a b pending).mem_iff.1 hlabel),
    fun l hl => (h.loops l hl).imp (hmem _) (hmem _)⟩

/-- A loop whose labels are pending is entered. -/
theorem enterLoop {l : LoopLabels} (h : k.Landed pending) (hexit : l.exit ∈ pending)
    (hnext : l.next ∈ pending) : (k.enterLoop l).Landed pending := by
  refine ⟨h.jumps, h.unbound, fun l' hl' => ?_⟩
  rcases List.mem_cons.1 hl' with rfl | hl'
  · exact ⟨hexit, hnext⟩
  · exact h.loops l' hl'

/-- The innermost loop is left. -/
theorem leaveLoop (h : k.Landed pending) : k.leaveLoop.Landed pending :=
  ⟨h.jumps, h.unbound, fun l hl => h.loops l (List.mem_of_mem_tail hl)⟩

end Landed

end Assembly

/-! ### Statements -/

/-- A statement that is written down adds its parts. -/
theorem Tree.write_admits {w : World} (t : Tree) {k : Assembly} (ht : w.Admits t.parts)
    (hk : w.Admits k.parts) : w.Admits (t.write k).parts := by
  induction t generalizing k with
  | act is => simpa [write] using ⟨hk, ht⟩
  | seq first rest ihFirst ihRest =>
      rw [parts, World.admits_append] at ht
      exact ihRest ht.2 (ihFirst ht.1 hk)
  | ifThen e body ih =>
      rw [parts, World.admits_append] at ht
      exact ih ht.2 (by simpa [Instr.parts, Instr.sources, Instr.targets] using ⟨hk, ht.1⟩)
  | ifElse e body otherwise ihBody ihOtherwise =>
      rw [parts, World.admits_append, World.admits_append] at ht
      have hbody := @ihBody (k.newLabel.2.push (.branch e k.newLabel.1)) ht.2.1
        (by simpa [Instr.parts, Instr.sources, Instr.targets] using ⟨hk, ht.1⟩)
      rw [write]
      refine ihOtherwise ht.2.2 ?_
      rw [Assembly.place_parts, Assembly.push_parts, World.admits_append]
      exact ⟨hbody, World.admits_nil⟩
  | loop init test post body ihInit ihPost ihBody =>
      rw [parts, World.admits_append, World.admits_append, World.admits_append] at ht
      obtain ⟨hinit, htest, hbody, hpost⟩ := ht
      have hstart := ihInit hinit hk
      rw [write]
      simp only [Assembly.place_parts, Assembly.push_parts, World.admits_append]
      refine ⟨ihPost hpost ?_, World.admits_nil⟩
      exact ihBody hbody (by simpa using ⟨hstart, htest⟩)
  | leave =>
      cases hloops : k.loops <;>
        simp [write, hloops, hk, Instr.parts, Instr.sources, Instr.targets]
  | next =>
      cases hloops : k.loops <;>
        simp [write, hloops, hk, Instr.parts, Instr.sources, Instr.targets]

/-- **A statement that is written down leaves no label of its own pending.** -/
theorem Tree.write_landed {inLoop : Bool} (t : Tree) {k : Assembly} {pending : List Nat}
    (hwell : t.WellFormed inLoop) (h : k.Landed pending) : (t.write k).Landed pending := by
  induction t generalizing inLoop k pending with
  | act is => exact h.pushAll hwell
  | seq first rest ihFirst ihRest => exact ihRest hwell.2 (ihFirst hwell.1 h)
  | ifThen e body ih =>
      have hbranch := h.newLabel.branch e List.mem_cons_self
      exact (ih hwell hbranch).place h.fresh (by simpa using h.loops)
  | ifElse e body otherwise ihBody ihOtherwise =>
      have hbranch := h.newLabel.branch e List.mem_cons_self
      have hbody := ihBody hwell.1 hbranch
      obtain ⟨hskip, hdone⟩ := not_or.1 (mt List.mem_cons.2 hbody.fresh)
      have hjump := hbody.newLabel.jump (.inl List.mem_cons_self)
      have hloops : ∀ l ∈ k.loops, l.exit ∈ pending ∧ l.next ∈ pending := h.loops
      have hplaced := hjump.swap.place (by simp [h.fresh, Ne.symm hskip]) fun l hl =>
        (hloops l (by simpa using hl)).imp (List.mem_cons_of_mem _) (List.mem_cons_of_mem _)
      exact (ihOtherwise hwell.2 hplaced).place hdone (by simpa using hloops)
  | loop init test post body ihInit ihPost ihBody =>
      have hinit := ihInit hwell.1 h
      have htop := hinit.newLabel.place hinit.fresh (by simpa using h.loops)
      have hexit := htop.newLabel
      have hagain := hexit.newLabel
      have htest := hagain.branchOn test (List.mem_cons_of_mem _ List.mem_cons_self)
      have hbody := ihBody hwell.2.2 (htest.enterLoop (l := ⟨_, _⟩)
        (List.mem_cons_of_mem _ List.mem_cons_self) List.mem_cons_self)
      have hnext := hbody.leaveLoop.place hexit.fresh (by simpa using hexit.loops)
      have hpost := ihPost hwell.2.1 hnext
      rw [write]
      refine (hpost.jump (.inr ?_)).place htop.fresh (by simpa using h.loops)
      refine (Assembly.bound_place (init.write k).newLabel_unbound).of_grows ?_
      refine post.write_grows (.place (.leaveLoop (body.write_grows ?_)) ?_)
      · exact (((Assembly.Grows.refl _).newLabel.newLabel).branchOn test _).enterLoop _
      · exact (Assembly.Grows.refl _).newLabel.length
  | leave =>
      rw [write]
      cases hloops : k.loops with
      | nil => exact h
      | cons l rest =>
          have hl := h.loops l (hloops ▸ List.mem_cons_self)
          exact h.jump (.inl hl.1)
  | next =>
      rw [write]
      cases hloops : k.loops with
      | nil => exact h
      | cons l rest =>
          have hl := h.loops l (hloops ▸ List.mem_cons_self)
          exact h.jump (.inl hl.2)

/-! ### Bodies -/

/-- Parts of a body without labels. -/
def Routine.parts (p : Routine) : List Part :=
  p.entry.flatMap Instr.parts ++ (p.body.parts ++ p.ending.instr.parts)

instance : HasCode Routine := ⟨fun w p => w.Admits p.parts, World.Admits.mono⟩

/-- **The finished body keeps to what its statements keep to**: its parts are theirs, all its jumps
land in it, and it returns as many values as all ways out of the statements do. -/
theorem Routine.written_holds {w : World} {l : Level} {p : Routine} {count : Nat}
    (hentry : Plain p.entry) (hwell : p.body.WellFormed false) (hreturns : p.Returns count)
    (h : (w.push l).Covers p) : w.Holds (.literal ((p.write .empty).body l.next)) := by
  have hparts : (w.push l).Admits (p.write .empty).parts := by
    obtain ⟨he, hrest⟩ := World.admits_append.1 h
    obtain ⟨hbody, hending⟩ := World.admits_append.1 hrest
    rw [write, Assembly.push_parts, World.admits_append]
    refine ⟨p.body.write_admits hbody ?_, hending⟩
    rw [Assembly.pushAll_parts, World.admits_append]
    exact ⟨World.admits_nil, he⟩
  have hempty : Assembly.empty.Landed [] :=
    ⟨fun i hi => absurd hi (Array.not_mem_empty i), by simp, fun l hl => absurd hl List.not_mem_nil⟩
  have hlanded := p.body.write_landed hwell (hempty.pushAll hentry)
  refine ⟨Body.Within.of_parts (fun x hx => (hparts x hx).within) (fun i hi label hlabel => ?_)
    (hreturns.written l.next).2, Body.KeepsTo.of_parts fun x hx => (hparts x hx).keepsTo⟩
  -- a label that is bound before the last instruction lies at that one or before it
  rcases Array.mem_push.1 hi with hi | rfl
  · obtain ⟨position, hposition, hle⟩ :=
      (hlanded.jumps i hi label hlabel).resolve_left List.not_mem_nil
    refine ⟨position, hposition, ?_⟩
    have hsize : ((p.write .empty).body l.next).instrs.size =
        (p.body.write (Assembly.empty.pushAll p.entry)).code.size + 1 := Array.size_push _
    omega
  · cases hend : p.ending <;> simp [hend, Ending.instr, Instr.label?] at hlabel

end ScriptCore
