import ScriptCore.Proofs.Addressing.Parts
import ScriptCore.Proofs.Control.WellFormed

/-!
# Returns that are written down

Writing a body down with labels adds jumps and branches to its statements, and what falling off its
end returns comes last.  So where all returns of the statements are of as many values as that, all
returns of the finished body are of as many values as it declares.

Main statement: `Routine.Returns.written`.
-/

namespace ScriptCore

open Code

/-! ### Code so far -/

/-- All returns so far are of so many values. -/
def Assembly.Returns (count : Nat) (k : Assembly) : Prop :=
  ∀ i ∈ k.code, i.Returns count

/-- What goes on does not return. -/
theorem Code.Instr.returns_of_goesOn {i : Instr} (h : i.goesOn = true) (count : Nat) :
    i.Returns count := by
  cases i <;> trivial

namespace Assembly.Returns

variable {count : Nat} {k : Assembly}

/-- Without code nothing returns. -/
theorem empty : Assembly.empty.Returns count := by
  intro i hi
  exact absurd hi (Array.not_mem_empty i)

/-- One instruction more. -/
theorem push (h : k.Returns count) {i : Instr} (hi : i.Returns count) :
    (k.push i).Returns count := by
  intro j hj
  rcases Array.mem_push.1 hj with hj | rfl
  · exact h j hj
  · exact hi

/-- Several instructions more. -/
theorem pushAll (h : k.Returns count) {is : List Instr} (his : ∀ i ∈ is, i.Returns count) :
    (k.pushAll is).Returns count := by
  induction is generalizing k with
  | nil => exact h
  | cons i is ih =>
      have hpush : (k.push i).Returns count := h.push (his i List.mem_cons_self)
      exact ih hpush fun j hj => his j (List.mem_cons_of_mem i hj)

/-- A new label is no code. -/
theorem newLabel (h : k.Returns count) : k.newLabel.2.Returns count := h

/-- A bound label is no code. -/
theorem place (h : k.Returns count) (label : Nat) : (k.place label).Returns count := h

/-- A loop is no code. -/
theorem enterLoop (h : k.Returns count) (l : LoopLabels) : (k.enterLoop l).Returns count := h

/-- A loop is no code. -/
theorem leaveLoop (h : k.Returns count) : k.leaveLoop.Returns count := h

/-- A branch does not return. -/
theorem branchOn (h : k.Returns count) (test : Option Code.Expr) (label : Nat) :
    (k.branchOn test label).Returns count := by
  cases test with
  | none => exact h
  | some e => exact h.push trivial

end Assembly.Returns

/-! ### Statements -/

/-- All returns in a statement are of so many values. -/
def Tree.Returns (count : Nat) : Tree → Prop
  | .act is => ∀ i ∈ is, i.Returns count
  | .seq first rest => first.Returns count ∧ rest.Returns count
  | .ifThen _ body => body.Returns count
  | .ifElse _ body otherwise => body.Returns count ∧ otherwise.Returns count
  | .loop init _ post body => init.Returns count ∧ post.Returns count ∧ body.Returns count
  | .leave | .next => True

/-- A statement that is written down adds its own returns and no others. -/
theorem Tree.write_returns {count : Nat} (t : Tree) {k : Assembly} (ht : t.Returns count)
    (hk : k.Returns count) : (t.write k).Returns count := by
  induction t generalizing k with
  | act is => exact hk.pushAll ht
  | seq first rest ihFirst ihRest => exact ihRest ht.2 (ihFirst ht.1 hk)
  | ifThen e body ih =>
      have hbranch := hk.newLabel.push (i := .branch e k.newLabel.1) trivial
      exact (ih ht hbranch).place _
  | ifElse e body otherwise ihBody ihOtherwise =>
      have hbranch := hk.newLabel.push (i := .branch e k.newLabel.1) trivial
      have hbody := (ihBody ht.1 hbranch).newLabel
      exact (ihOtherwise ht.2 ((hbody.push (i := .jump _) trivial).place _)).place _
  | loop init test post body ihInit ihPost ihBody =>
      obtain ⟨hinit, hpost, hbody⟩ := ht
      have hstart := ((ihInit hinit hk).newLabel.place (init.write k).newLabel.1).newLabel.newLabel
      have hround (exit : Nat) (l : LoopLabels) :=
        ihBody hbody ((hstart.branchOn test exit).enterLoop l)
      exact ((ihPost hpost ((hround _ _).leaveLoop.place _)).push (i := .jump _) trivial).place _
  | leave =>
      rw [write]
      cases k.loops with
      | nil => exact hk
      | cons l rest => exact hk.push trivial
  | next =>
      rw [write]
      cases k.loops with
      | nil => exact hk
      | cons l rest => exact hk.push trivial

/-! ### Bodies -/

/-- All ways out of a body return so many values. -/
structure Routine.Returns (count : Nat) (p : Routine) : Prop where
  entry : ∀ i ∈ p.entry, i.Returns count
  body : p.body.Returns count
  ending : p.ending.instr.Returns count

/-- **A body that is written down** declares as many results as all its ways out return, and all
its returns are of so many values. -/
theorem Routine.Returns.written {count : Nat} {p : Routine} (h : p.Returns count) (slots : Nat) :
    ((p.write .empty).body slots).resultCount = count ∧
      ((p.write .empty).body slots).Returns := by
  have hcode : (p.write .empty).Returns count :=
    (p.body.write_returns h.body (Assembly.Returns.empty.pushAll h.entry)).push h.ending
  have hlast : (p.write .empty).code.back? = some p.ending.instr := Array.back?_push
  have hcount : ((p.write .empty).body slots).resultCount = count := by
    have hending := h.ending
    unfold Body.resultCount
    rw [show ((p.write .empty).body slots).instrs = (p.write .empty).code from rfl, hlast]
    cases hend : p.ending with
    | named slots =>
        rw [hend] at hending
        exact hending
    | zeros values =>
        rw [hend] at hending
        exact hending
  refine ⟨hcount, fun i hi => ?_⟩
  rw [hcount]
  exact hcode i hi

end ScriptCore
