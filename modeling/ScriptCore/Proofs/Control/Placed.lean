import ScriptCore.Proofs.Control.Elaborate

/-!
# Where a statement stands in a body

A statement that is written down occupies the positions between two ends of the body, and every
label it uses has been bound to the position it stands for (`Tree.Placed`).  Labels are bound only
after the code that jumps to them has been written; what makes this work is that writing keeps all
labels that exist already, bound or not (`Assembly.Grows`), and that a bound label stays bound.

Main statement: `Tree.write_placed`.
-/

namespace ScriptCore

namespace Code

/-- Instructions that neither jump nor branch. -/
def Instr.isPlain : Instr → Bool
  | .jump _ | .branch _ _ => false
  | _ => true

/-- Instructions stand in a body from a position on. -/
def Body.Holds (body : Body) (p : Nat) (is : List Instr) : Prop :=
  ∀ j i, is[j]? = some i → body.instrs[p + j]? = some i

end Code

/-- Simple statements are plain instructions, and `leave` and `next` stand in loops. -/
def Tree.WellFormed (inLoop : Bool) : Tree → Prop
  | .act is => ∀ i ∈ is, i.isPlain = true
  | .seq first rest => first.WellFormed inLoop ∧ rest.WellFormed inLoop
  | .ifThen _ body => body.WellFormed inLoop
  | .ifElse _ body otherwise => body.WellFormed inLoop ∧ otherwise.WellFormed inLoop
  | .loop init _ post body =>
    init.WellFormed inLoop ∧ post.WellFormed inLoop ∧ body.WellFormed true
  | .leave | .next => inLoop = true

/-- A statement stands in a body from one position up to another; `loop` are the labels of the loop
around it. -/
inductive Tree.Placed (body : Code.Body) : Tree → Option LoopLabels → Nat → Nat → Prop
  | act {is loop p} (plain : ∀ i ∈ is, i.isPlain = true) (holds : body.Holds p is) :
      Placed body (.act is) loop p (p + is.length)
  | seq {first rest loop p m q} (first_placed : Placed body first loop p m)
      (rest_placed : Placed body rest loop m q) : Placed body (.seq first rest) loop p q
  | ifThen {e t loop p q skip} (branch : body.instrs[p]? = some (.branch e skip))
      (body_placed : Placed body t loop (p + 1) q) (skip_at : body.labels.target skip = q) :
      Placed body (.ifThen e t) loop p q
  | ifElse {e t u loop p m q skip done} (branch : body.instrs[p]? = some (.branch e skip))
      (body_placed : Placed body t loop (p + 1) m) (jump : body.instrs[m]? = some (.jump done))
      (skip_at : body.labels.target skip = m + 1) (other_placed : Placed body u loop (m + 1) q)
      (done_at : body.labels.target done = q) : Placed body (.ifElse e t u) loop p q
  | loop {init test post t loop p a b c d top exit again} (init_placed : Placed body init loop p a)
      (top_at : body.labels.target top = a)
      (test_placed : match test with
        | none => b = a
        | some e => body.instrs[a]? = some (.branch e exit) ∧ b = a + 1)
      (body_placed : Placed body t (some ⟨exit, again⟩) b c)
      (again_at : body.labels.target again = c) (post_placed : Placed body post loop c d)
      (jump : body.instrs[d]? = some (.jump top)) (exit_at : body.labels.target exit = d + 1) :
      Placed body (.loop init test post t) loop p (d + 1)
  | leave {l p} (jump : body.instrs[p]? = some (.jump l.exit)) :
      Placed body .leave (some l) p (p + 1)
  | next {l p} (jump : body.instrs[p]? = some (.jump l.next)) :
      Placed body .next (some l) p (p + 1)

namespace Labels

/-- Another label keeps its position. -/
theorem getElem?_bind_ne {ls : Labels} {label l position : Nat} (h : l ≠ label) :
    (ls.bind label position)[l]? = ls[l]? := by
  simp [bind, Ne.symm h]

/-- A label that had no position gets it. -/
theorem getElem?_bind_self {ls : Labels} {label position : Nat} (h : ls[label]? = some none) :
    (ls.bind label position)[label]? = some (some position) := by
  simp [bind, h]

/-- A label with a position keeps it. -/
theorem getElem?_bind_of_bound {ls : Labels} {label l position p : Nat}
    (h : ls[l]? = some (some p)) : (ls.bind label position)[l]? = some (some p) := by
  by_cases hl : l = label
  · subst hl
    simp [bind, h]
  · rw [getElem?_bind_ne hl, h]

end Labels

namespace Assembly

/-- More code and more labels; the labels there were are as they were. -/
structure Grows (k k' : Assembly) : Prop where
  code : ∀ (p : Nat) (i : Code.Instr), k.code[p]? = some i → k'.code[p]? = some i
  length : k.labels.length ≤ k'.labels.length
  labels : ∀ l < k.labels.length, k'.labels[l]? = k.labels[l]?

namespace Grows

variable {k k' k'' : Assembly}

/-- Nothing is added. -/
protected theorem refl (k : Assembly) : k.Grows k :=
  ⟨fun _ _ h => h, Nat.le_refl _, fun _ _ => rfl⟩

/-- More is added. -/
protected theorem trans (h : k.Grows k') (h' : k'.Grows k'') : k.Grows k'' :=
  ⟨fun p i hi => h'.code p i (h.code p i hi), Nat.le_trans h.length h'.length,
    fun l hl => (h'.labels l (Nat.lt_of_lt_of_le hl h.length)).trans (h.labels l hl)⟩

/-- A label that had no position has none. -/
theorem unbound (h : k.Grows k') {l : Nat} (hl : k.labels[l]? = some none) :
    k'.labels[l]? = some none := by
  rw [h.labels l (List.getElem?_eq_some_iff.1 hl).1, hl]

/-- An instruction is added. -/
theorem push (h : k.Grows k') (i : Code.Instr) : k.Grows (k'.push i) := by
  refine ⟨fun p j hj => ?_, h.length, h.labels⟩
  have hp := h.code p j hj
  have hlt := (Array.getElem?_eq_some_iff.1 hp).1
  rw [Assembly.push, Array.getElem?_push, if_neg (Nat.ne_of_lt hlt), hp]

/-- Instructions are added. -/
theorem pushAll (h : k.Grows k') (is : List Code.Instr) : k.Grows (k'.pushAll is) := by
  induction is generalizing k' with
  | nil => exact h
  | cons i is ih => exact ih (h.push i)

/-- A branch is added. -/
theorem branchOn (h : k.Grows k') (test : Option Code.Expr) (label : Nat) :
    k.Grows (k'.branchOn test label) := by
  cases test with
  | none => exact h
  | some e => exact h.push _

/-- A label is added. -/
theorem newLabel (h : k.Grows k') : k.Grows k'.newLabel.2 := by
  refine ⟨h.code, ?_, fun l hl => ?_⟩
  · simp only [Assembly.newLabel, List.length_append]
    exact Nat.le_add_right_of_le h.length
  · rw [← h.labels l hl, Assembly.newLabel,
      List.getElem?_append_left (Nat.lt_of_lt_of_le hl h.length)]

/-- A label that has been added is bound. -/
theorem place (h : k.Grows k') {label : Nat} (hlabel : k.labels.length ≤ label) :
    k.Grows (k'.place label) := by
  refine ⟨h.code, ?_, fun l hl => ?_⟩
  · simp only [Assembly.place, Labels.bind, List.length_modify]
    exact h.length
  · rw [← h.labels l hl, Assembly.place, Labels.getElem?_bind_ne (by omega)]

/-- Loops do not count. -/
theorem enterLoop (h : k.Grows k') (l : LoopLabels) : k.Grows (k'.enterLoop l) :=
  ⟨h.code, h.length, h.labels⟩

/-- Loops do not count. -/
theorem leaveLoop (h : k.Grows k') : k.Grows k'.leaveLoop :=
  ⟨h.code, h.length, h.labels⟩

end Grows

end Assembly

/-- A new label comes after those there were. -/
theorem Assembly.newLabel_fst (k : Assembly) : k.newLabel.1 = k.labels.length := rfl

/-- Writing adds code and labels. -/
theorem Tree.write_grows (t : Tree) {k k' : Assembly} (h : k.Grows k') : k.Grows (t.write k') := by
  induction t generalizing k' with
  | act is => exact h.pushAll is
  | seq first rest ihFirst ihRest => exact ihRest (ihFirst h)
  | ifThen e body ih => exact (ih (h.newLabel.push _)).place h.length
  | ifElse e body otherwise ihBody ihOtherwise =>
      have hbody := ihBody (h.newLabel.push (.branch e k'.newLabel.1))
      refine (ihOtherwise ((hbody.newLabel.push _).place h.length)).place ?_
      exact hbody.length
  | loop init test post body ihInit ihPost ihBody =>
      have hinit := ihInit h
      have htop := hinit.newLabel.place hinit.length
      have hagain := htop.newLabel.newLabel
      rw [write]
      refine ((ihPost ((ihBody ?_).leaveLoop.place htop.newLabel.length)).push _).place htop.length
      exact (hagain.branchOn test _).enterLoop _
  | leave => cases hloops : k'.loops <;> simp [write, hloops, h, h.push]
  | next => cases hloops : k'.loops <;> simp [write, hloops, h, h.push]

namespace Assembly

/-! ### Positions -/

variable {k k' : Assembly} {body : Code.Body}

/-- An instruction takes one position. -/
@[simp] theorem push_size (k : Assembly) (i : Code.Instr) :
    (k.push i).code.size = k.code.size + 1 := by
  simp [push]

/-- Instructions take one position each. -/
@[simp] theorem pushAll_size (k : Assembly) (is : List Code.Instr) :
    (k.pushAll is).code.size = k.code.size + is.length := by
  induction is generalizing k with
  | nil => rfl
  | cons i is ih =>
      rw [pushAll_cons, ih, push_size, List.length_cons]
      omega

/-- A label takes no position. -/
@[simp] theorem newLabel_size (k : Assembly) : k.newLabel.2.code.size = k.code.size := rfl

/-- Binding a label takes no position. -/
@[simp] theorem place_size (k : Assembly) (label : Nat) :
    (k.place label).code.size = k.code.size := rfl

/-- Entering a loop takes no position. -/
@[simp] theorem enterLoop_size (k : Assembly) (l : LoopLabels) :
    (k.enterLoop l).code.size = k.code.size := rfl

/-- Leaving a loop takes no position. -/
@[simp] theorem leaveLoop_size (k : Assembly) : k.leaveLoop.code.size = k.code.size := rfl

/-- A new label has no position. -/
theorem newLabel_unbound (k : Assembly) : k.newLabel.2.labels[k.newLabel.1]? = some none := by
  simp [newLabel]

/-- There is one label more. -/
theorem newLabel_lt (k : Assembly) : k.newLabel.1 < k.newLabel.2.labels.length := by
  simp [newLabel]

/-- What has been written so far stands in the finished body. -/
structure Within (k : Assembly) (body : Code.Body) : Prop where
  code : ∀ (p : Nat) (i : Code.Instr), k.code[p]? = some i → body.instrs[p]? = some i
  labels : ∀ l p : Nat, k.labels[l]? = some (some p) → body.labels[l]? = some (some p)

namespace Within

/-- What was written before stands there too. -/
theorem of_grows (h : k'.Within body) (hgrows : k.Grows k') : k.Within body := by
  refine ⟨fun p i hi => h.code p i (hgrows.code p i hi), fun l p hl => h.labels l p ?_⟩
  rw [hgrows.labels l (List.getElem?_eq_some_iff.1 hl).1, hl]

/-- What was written before a label was bound stands there too. -/
theorem of_place {label : Nat} (h : (k.place label).Within body) : k.Within body :=
  ⟨h.code, fun l p hl => h.labels l p (Labels.getElem?_bind_of_bound hl)⟩

/-- Loops do not count. -/
theorem of_leaveLoop (h : k.leaveLoop.Within body) : k.Within body :=
  ⟨h.code, h.labels⟩

/-- The last instruction stands in its position. -/
theorem push_at {i : Code.Instr} (h : (k.push i).Within body) :
    body.instrs[k.code.size]? = some i :=
  h.code _ i (by simp [push])

/-- What was written before an instruction stands there too. -/
theorem of_push {i : Code.Instr} (h : (k.push i).Within body) : k.Within body :=
  h.of_grows ((Grows.refl k).push i)

/-- A label that is bound now stands for this position. -/
theorem target_eq {label : Nat} (h : (k.place label).Within body)
    (hlabel : k.labels[label]? = some none) : body.labels.target label = k.code.size := by
  have hbound := h.labels label k.code.size (Labels.getElem?_bind_self hlabel)
  simp [Labels.target, hbound]

/-- Instructions stand one after the other. -/
theorem holds {is : List Code.Instr} (h : (k.pushAll is).Within body) :
    body.Holds k.code.size is := by
  induction is generalizing k with
  | nil =>
      intro j i hi
      cases hi
  | cons i is ih =>
      intro j i' hi'
      cases j with
      | zero =>
          cases hi'
          exact (h.of_grows ((Grows.refl _).pushAll is)).push_at
      | succ j =>
          have hrest := ih h j i' hi'
          rwa [push_size, Nat.add_right_comm, Nat.add_assoc] at hrest

end Within

end Assembly

namespace Tree

variable {body : Code.Body} {k : Assembly}

/-- A conditional statement without a second branch stands where it was written. -/
theorem placed_ifThen {e : Code.Expr} {t : Tree} {k₁ k₂ : Assembly}
    (hk₁ : k₁ = k.newLabel.2.push (.branch e k.newLabel.1)) (hgrows : k₁.Grows k₂)
    (h : (k₂.place k.newLabel.1).Within body)
    (hbody : t.Placed body k₁.loops.head? k₁.code.size k₂.code.size) :
    (ifThen e t).Placed body k.loops.head? k.code.size k₂.code.size := by
  subst hk₁
  rw [Assembly.push_size] at hbody
  exact .ifThen (h.of_place.of_grows hgrows).push_at hbody
    (h.target_eq (hgrows.unbound k.newLabel_unbound))

/-- A conditional statement with a second branch stands where it was written. -/
theorem placed_ifElse {e : Code.Expr} {t u : Tree} {k₁ k₂ k₃ k₄ : Assembly}
    (hk₁ : k₁ = k.newLabel.2.push (.branch e k.newLabel.1)) (hgrows : k₁.Grows k₂)
    (hk₃ : k₃ = (k₂.newLabel.2.push (.jump k₂.newLabel.1)).place k.newLabel.1)
    (hgrows' : k₃.Grows k₄) (h : (k₄.place k₂.newLabel.1).Within body)
    (hbody : t.Placed body k₁.loops.head? k₁.code.size k₂.code.size)
    (hother : u.Placed body k₃.loops.head? k₃.code.size k₄.code.size)
    (hloops : k₃.loops = k.loops) :
    (ifElse e t u).Placed body k.loops.head? k.code.size k₄.code.size := by
  have h₃ := h.of_place.of_grows hgrows'
  have hskip : k₂.newLabel.2.labels[k.newLabel.1]? = some none := by
    subst hk₁
    exact ((Assembly.Grows.refl k₂).newLabel).unbound (hgrows.unbound k.newLabel_unbound)
  have hdone : k₃.labels[k₂.newLabel.1]? = some none := by
    have hlt : k.newLabel.1 < k₂.newLabel.1 := by
      subst hk₁
      exact Nat.lt_of_lt_of_le k.newLabel_lt hgrows.length
    subst hk₃
    rw [Assembly.place, Labels.getElem?_bind_ne (Nat.ne_of_gt hlt)]
    exact k₂.newLabel_unbound
  have hdone_at := h.target_eq (hgrows'.unbound hdone)
  subst hk₁ hk₃
  have hskip_at := h₃.target_eq hskip
  have hjump := h₃.of_place.push_at
  have h₁ := h₃.of_place.of_push.of_grows ((Assembly.Grows.refl k₂).newLabel)
  rw [Assembly.push_size, Assembly.newLabel_size] at hbody hskip_at
  rw [hloops, Assembly.place_size, Assembly.push_size, Assembly.newLabel_size] at hother
  exact .ifElse (h₁.of_grows hgrows).push_at hbody hjump hskip_at hother hdone_at

/-- A loop stands where it was written. -/
theorem placed_loop {init t post : Tree} {test : Option Code.Expr}
    {k₁ k₂ k₃ k₄ k₅ k₆ : Assembly} (hk₂ : k₂ = k₁.newLabel.2.place k₁.newLabel.1)
    (hk₃ : k₃ = (k₂.newLabel.2.newLabel.2.branchOn test k₂.newLabel.1).enterLoop
      ⟨k₂.newLabel.1, k₂.newLabel.2.newLabel.1⟩)
    (hgrows : k₃.Grows k₄) (hk₅ : k₅ = k₄.leaveLoop.place k₂.newLabel.2.newLabel.1)
    (hgrows' : k₅.Grows k₆)
    (h : ((k₆.push (.jump k₁.newLabel.1)).place k₂.newLabel.1).Within body)
    (hinit : init.Placed body k.loops.head? k.code.size k₁.code.size)
    (hbody : t.Placed body k₃.loops.head? k₃.code.size k₄.code.size)
    (hpost : post.Placed body k₅.loops.head? k₅.code.size k₆.code.size)
    (hloops₃ : k₃.loops = ⟨k₂.newLabel.1, k₂.newLabel.2.newLabel.1⟩ :: k.loops)
    (hloops₅ : k₅.loops = k.loops) :
    (loop init test post t).Placed body k.loops.head? k.code.size (k₆.code.size + 1) := by
  have h₅ := h.of_place.of_push.of_grows hgrows'
  have hexit : k₅.labels[k₂.newLabel.1]? = some none := by
    have hnew : k₂.newLabel.2.Grows k₃ := by
      rw [hk₃]
      exact ((Assembly.Grows.refl _).newLabel.branchOn test _).enterLoop _
    have hne : k₂.newLabel.1 ≠ k₂.newLabel.2.newLabel.1 := Nat.ne_of_lt k₂.newLabel_lt
    rw [hk₅, Assembly.place, Labels.getElem?_bind_ne hne]
    exact hgrows.unbound (hnew.unbound k₂.newLabel_unbound)
  have hexit_at := h.target_eq (hgrows'.unbound hexit)
  have hagain_at : body.labels.target k₂.newLabel.2.newLabel.1 = k₄.code.size := by
    have hnew : k₂.newLabel.2.newLabel.2.Grows k₃ := by
      rw [hk₃]
      exact ((Assembly.Grows.refl _).branchOn test _).enterLoop _
    rw [hk₅] at h₅
    exact h₅.target_eq (hgrows.unbound (hnew.unbound (Assembly.newLabel_unbound _)))
  have h₃ : k₃.Within body := by
    rw [hk₅] at h₅
    exact h₅.of_place.of_leaveLoop.of_grows hgrows
  have htop_at : body.labels.target k₁.newLabel.1 = k₁.code.size := by
    have hnew : k₂.Grows k₃ := by
      rw [hk₃]
      exact ((Assembly.Grows.refl k₂).newLabel.newLabel.branchOn test _).enterLoop _
    have h₂ := h₃.of_grows hnew
    rw [hk₂] at h₂
    exact h₂.target_eq k₁.newLabel_unbound
  have hsize₂ : k₂.code.size = k₁.code.size := by rw [hk₂]; rfl
  rw [hloops₃, List.head?_cons] at hbody
  rw [hloops₅] at hpost
  have hsize₅ : k₅.code.size = k₄.code.size := by rw [hk₅]; rfl
  rw [hsize₅] at hpost
  rw [Assembly.push_size] at hexit_at
  refine .loop hinit htop_at ?_ hbody hagain_at hpost h.of_place.push_at hexit_at
  cases test with
  | none => rw [hk₃, ← hsize₂]; rfl
  | some e =>
      subst hk₃
      have hbranch : (k₂.newLabel.2.newLabel.2.push (.branch e k₂.newLabel.1)).Within body :=
        ⟨h₃.code, h₃.labels⟩
      rw [← hsize₂]
      exact ⟨hbranch.push_at, by simp [Assembly.branchOn]⟩

end Tree

/-- **A statement that is written down stands where it was written**, in every body that is written
on from there. -/
theorem Tree.write_placed {body : Code.Body} (t : Tree) {k : Assembly}
    (hwell : t.WellFormed (!k.loops.isEmpty)) (h : (t.write k).Within body) :
    t.Placed body k.loops.head? k.code.size (t.write k).code.size := by
  induction t generalizing k with
  | act is =>
      rw [write, Assembly.pushAll_size]
      exact .act hwell h.holds
  | seq first rest ihFirst ihRest =>
      have hfirst := ihFirst hwell.1 (h.of_grows (rest.write_grows (.refl _)))
      have hrest := ihRest (by simpa using hwell.2) h
      rw [write_loops] at hrest
      exact .seq hfirst hrest
  | ifThen e t ih =>
      obtain ⟨k₁, hk₁⟩ : ∃ k₁, k₁ = k.newLabel.2.push (.branch e k.newLabel.1) := ⟨_, rfl⟩
      have hwrite : (ifThen e t).write k = (t.write k₁).place k.newLabel.1 := by
        rw [hk₁]
        rfl
      rw [hwrite] at h ⊢
      rw [Assembly.place_size]
      have hloops : k₁.loops = k.loops := by simp [hk₁]
      exact placed_ifThen hk₁ (t.write_grows (.refl k₁)) h (ih (by rwa [hloops]) h.of_place)
  | ifElse e t u ihBody ihOther =>
      obtain ⟨k₁, hk₁⟩ : ∃ k₁, k₁ = k.newLabel.2.push (.branch e k.newLabel.1) := ⟨_, rfl⟩
      obtain ⟨k₂, hk₂⟩ : ∃ k₂, k₂ = t.write k₁ := ⟨_, rfl⟩
      obtain ⟨k₃, hk₃⟩ : ∃ k₃, k₃ =
        (k₂.newLabel.2.push (.jump k₂.newLabel.1)).place k.newLabel.1 := ⟨_, rfl⟩
      have hwrite : (ifElse e t u).write k = (u.write k₃).place k₂.newLabel.1 := by
        rw [hk₃, hk₂, hk₁]
        rfl
      rw [hwrite] at h ⊢
      rw [Assembly.place_size]
      have hgrows : k₁.Grows k₂ := hk₂ ▸ t.write_grows (.refl k₁)
      have hloops₁ : k₁.loops = k.loops := by simp [hk₁]
      have hloops₃ : k₃.loops = k.loops := by simp [hk₃, hk₂, hloops₁]
      have h₃ : k₃.Within body := h.of_place.of_grows (u.write_grows (.refl k₃))
      have h₂ : k₂.Within body := by
        rw [hk₃] at h₃
        exact h₃.of_place.of_push.of_grows ((Assembly.Grows.refl k₂).newLabel)
      have hbody := ihBody (k := k₁) (by rw [hloops₁]; exact hwell.1) (hk₂ ▸ h₂)
      rw [← hk₂] at hbody
      have hother := ihOther (k := k₃) (by rw [hloops₃]; exact hwell.2) h.of_place
      exact placed_ifElse hk₁ hgrows hk₃ (u.write_grows (.refl k₃)) h hbody hother hloops₃
  | loop init test post t ihInit ihPost ihBody =>
      obtain ⟨k₁, hk₁⟩ : ∃ k₁, k₁ = init.write k := ⟨_, rfl⟩
      obtain ⟨k₂, hk₂⟩ : ∃ k₂, k₂ = k₁.newLabel.2.place k₁.newLabel.1 := ⟨_, rfl⟩
      obtain ⟨k₃, hk₃⟩ : ∃ k₃, k₃ = (k₂.newLabel.2.newLabel.2.branchOn test k₂.newLabel.1).enterLoop
        ⟨k₂.newLabel.1, k₂.newLabel.2.newLabel.1⟩ := ⟨_, rfl⟩
      obtain ⟨k₄, hk₄⟩ : ∃ k₄, k₄ = t.write k₃ := ⟨_, rfl⟩
      obtain ⟨k₅, hk₅⟩ : ∃ k₅, k₅ = k₄.leaveLoop.place k₂.newLabel.2.newLabel.1 := ⟨_, rfl⟩
      obtain ⟨k₆, hk₆⟩ : ∃ k₆, k₆ = post.write k₅ := ⟨_, rfl⟩
      have hwrite : (loop init test post t).write k =
          (k₆.push (.jump k₁.newLabel.1)).place k₂.newLabel.1 := by
        rw [hk₆, hk₅, hk₄, hk₃, hk₂, hk₁]
        rfl
      rw [hwrite] at h ⊢
      rw [Assembly.place_size, Assembly.push_size]
      have hloops₃ : k₃.loops = ⟨k₂.newLabel.1, k₂.newLabel.2.newLabel.1⟩ :: k.loops := by
        simp [hk₃, hk₂, hk₁]
      have hloops₅ : k₅.loops = k.loops := by simp [hk₅, hk₄, hloops₃]
      have h₆ : k₆.Within body := h.of_place.of_push
      have h₅ : k₅.Within body := h₆.of_grows (hk₆ ▸ post.write_grows (.refl k₅))
      have h₄ : k₄.Within body := by
        rw [hk₅] at h₅
        exact h₅.of_place.of_leaveLoop
      have h₃ : k₃.Within body := h₄.of_grows (hk₄ ▸ t.write_grows (.refl k₃))
      have hgrows : k₂.Grows k₃ := by
        rw [hk₃]
        exact (((Assembly.Grows.refl k₂).newLabel.newLabel).branchOn test _).enterLoop _
      have h₁ : k₁.Within body := by
        have h₂ := h₃.of_grows hgrows
        rw [hk₂] at h₂
        exact h₂.of_place.of_grows (Assembly.Grows.refl k₁).newLabel
      have hinit := ihInit hwell.1 (hk₁ ▸ h₁)
      rw [← hk₁] at hinit
      have hbody := ihBody (k := k₃) (by rw [hloops₃]; exact hwell.2.2) (hk₄ ▸ h₄)
      rw [← hk₄] at hbody
      have hpost := ihPost (k := k₅) (by rw [hloops₅]; exact hwell.2.1) (hk₆ ▸ h₆)
      rw [← hk₆] at hpost
      exact placed_loop hk₂ hk₃ (hk₄ ▸ t.write_grows (.refl k₃)) hk₅
        (hk₆ ▸ post.write_grows (.refl k₅)) h hinit hbody hpost hloops₃ hloops₅
  | leave =>
      cases hloops : k.loops with
      | nil => simp [WellFormed, hloops] at hwell
      | cons l rest =>
          rw [write, hloops, List.head?_cons, Option.elim_some] at h ⊢
          rw [Assembly.push_size]
          exact .leave h.push_at
  | next =>
      cases hloops : k.loops with
      | nil => simp [WellFormed, hloops] at hwell
      | cons l rest =>
          rw [write, hloops, List.head?_cons, Option.elim_some] at h ⊢
          rw [Assembly.push_size]
          exact .next h.push_at

end ScriptCore
