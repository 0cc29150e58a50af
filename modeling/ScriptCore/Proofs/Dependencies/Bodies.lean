import ScriptCore.Proofs.Addressing.Statements
import ScriptCore.Proofs.Control.Agreement
import ScriptCore.Proofs.Dependencies.Rules
import ScriptCore.Proofs.Straight.Variables

/-!
# Bodies are blind

Assignments, declarations and control flow look up what their parts do.  A declaration binds its
names in the innermost block; they are bound as long as the block is open, whatever the blocks in it
declare, since a block leaves the ones around it as they were.

Main statements: `declareValues_blind`, `loop_quiet` and `bodyOf_blind`.
-/

namespace ScriptCore

/-! ### Names of a body -/

namespace Frame

variable {f : Frame} {n name : Name}

/-- A declared name is found, and so are those that were. -/
theorem find?_declare_isSome (ty : Ty) (h : n = name ∨ (f.find? n).isSome) :
    ((f.declare name ty).2.find? n).isSome := by
  by_cases heq : n = name
  · rw [heq, find?_declare]
    rfl
  · rw [StraightLine.find?_declare_ne f heq]
    exact h.resolve_left heq

/-- A declaration is one in the innermost block. -/
theorem declare_tail (f : Frame) (name : Name) (ty : Ty) :
    (f.declare name ty).2.blocks.tail = f.blocks.tail := by
  cases h : f.blocks <;> simp [declare, h]

/-- A name of the innermost block is a name of the body. -/
theorem find?_of_innermost {l : Local} (h : f.findInnermost? name = some l) :
    (f.find? name).isSome := by
  cases hblocks : f.blocks with
  | nil => simp [findInnermost?, hblocks] at h
  | cons block outer =>
      have hfound : findIn block name = some l := by simpa [findInnermost?, hblocks] using h
      simp [find?, hblocks, hfound]

end Frame

namespace Compiler

variable {v : Views} {b b' : List Name} {c d : Compiler} {n : Name} {f : Frame}

/-- A name stays one of a local variable if its body keeps it. -/
theorem BoundIn.frame {f' : Frame} {outer : List Frame} (h : BoundIn (f :: outer) n)
    (hkeep : (f.find? n).isSome → (f'.find? n).isSome) : BoundIn (f' :: outer) n := by
  obtain ⟨g, hg, hsome⟩ := h
  rcases List.mem_cons.1 hg with rfl | hmem
  · exact ⟨f', List.mem_cons_self, hkeep hsome⟩
  · exact ⟨g, List.mem_cons_of_mem _ hmem, hsome⟩

/-- The body of a state is replaced by another. -/
theorem Shows.frame (h : c.Shows v b)
    (hbound : ∀ n ∈ b', n = blank ∨ (f.find? n).isSome ∨
      n ∈ b ∧ ((c.frame.find? n).isSome → (f.find? n).isSome)) :
    Compiler.Shows v b' { c with frame := f } := by
  refine ⟨h.names, h.methods, fun n hn => ?_, h.plain⟩
  rcases hbound n hn with hblank | hfound | ⟨hold, hkeep⟩
  · exact .inl hblank
  · exact .inr ⟨f, List.mem_cons_self, hfound⟩
  · exact (h.bound n hold).imp_right fun hin => hin.frame hkeep

end Compiler

namespace Compile

variable {α β : Type} {v : Views} {b b' b₁ : List Name} {c : Compiler}

/-- One step after another, where what the first gives is known. -/
theorem Blind.bind_of {P : α → Prop} {p : Compile α} {f : α → Compile β} (h : Blind v b p b₁)
    (hp : Gives P p) (hf : ∀ a, P a → Blind v b₁ (f a) b') : Blind v b (p >>= f) b' :=
  fun c hc => (h c hc).bind_of fun a d hok hd => hf a (hp c (a, d) hok) d hd

/-- A change of the body being compiled. -/
theorem onFrame_blind {f : Frame → α × Frame}
    (hbound : ∀ fr n, n ∈ b' → n = blank ∨ ((f fr).2.find? n).isSome ∨
      n ∈ b ∧ ((fr.find? n).isSome → ((f fr).2.find? n).isSome))
    (htail : ∀ fr, (f fr).2.blocks.tail = fr.blocks.tail) : Blind v b (onFrame f) b' := by
  intro c hc
  refine ⟨rfl, ?_, ?_⟩
  · rintro _ _ ⟨⟩
    exact hc.frame (hbound c.frame)
  · rintro _ _ ⟨⟩
    exact ⟨htail c.frame, rfl⟩

/-- A change of the body being compiled that keeps its names. -/
theorem updateFrame_quiet {f : Frame → Frame} (h : ∀ fr, (f fr).blocks = fr.blocks) :
    Quiet v b (updateFrame f) := by
  have hfind (fr : Frame) (n : Name) : (f fr).find? n = fr.find? n := by
    rw [Frame.find?, Frame.find?, h]
  have hunit : Blind v b (onFrame fun fr => ((), f fr)) b := by
    apply onFrame_blind
    · intro fr n hn
      rw [hfind]
      exact .inr (.inr ⟨hn, id⟩)
    · intro fr
      rw [h]
  exact hunit

/-- A new slot. -/
theorem alloc_quiet : Quiet v b alloc :=
  onFrame_blind (fun _ _ hn => .inr (.inr ⟨hn, id⟩)) fun _ => rfl

/-- A new local variable. -/
theorem declareLocal_blind (name : Name) (ty : Ty) :
    Blind v b (declareLocal name ty) (name :: b) := by
  refine onFrame_blind (fun fr n hn => ?_) fun fr => fr.declare_tail name ty
  rcases List.mem_cons.1 hn with rfl | hmem
  · exact .inr (.inl (Frame.find?_declare_isSome ty (.inl rfl)))
  · exact .inr (.inr ⟨hmem, fun h => Frame.find?_declare_isSome ty (.inr h)⟩)

/-- The blank name counts as bound. -/
theorem pure_blank_blind (a : α) : Blind v b (pure a : Compile α) (blank :: b) := by
  intro c hc
  refine ⟨rfl, ?_, ?_⟩
  · rintro _ _ ⟨⟩
    refine ⟨hc.names, hc.methods, fun n hn => ?_, hc.plain⟩
    rcases List.mem_cons.1 hn with rfl | hmem
    · exact .inl rfl
    · exact hc.bound n hmem
  · rintro _ _ ⟨⟩
    exact .refl c

/-! ### Assignments -/

/-- An assignment of an operand to a place. -/
theorem store_quiet (place : Place) (op : Operand) : Quiet v b (store place op) :=
  .rule _

/-- An index expression as a place. -/
theorem indexPlace_quiet {container key : Compile Operand} (hcontainer : Quiet v b container)
    (hkey : Quiet v b key) : Quiet v b (indexPlace container key) :=
  hcontainer.bind fun _ => (Quiet.rule _).bind fun _ => hkey.bind fun _ =>
    (Quiet.rule _).bind fun _ => .pure _

/-- A selector as a place. -/
theorem selectorPlace_quiet {base : Compile (Option Place)} (h : Quiet v b base) (name : Name) :
    Quiet v b (selectorPlace base name) := by
  refine h.bind fun place => ?_
  cases place with
  | none => exact .fail _
  | some _ => exact (Quiet.rule _).bind fun _ => .pure _

/-- An assignment of the value in a slot. -/
theorem assignSlot_quiet {target : Compile (Option Place)} (h : Quiet v b target) (ty : Ty)
    (slot : Nat) : Quiet v b (assignSlot target ty slot) := by
  refine h.bind fun place => ?_
  cases place with
  | none => exact .pure _
  | some place =>
      exact Blind.types fun _ => Quiet.bind (store_quiet _ _) fun _ => Quiet.pure _

/-- An assignment of the values in slots. -/
theorem assignSlots_quiet {targets : List (Compile (Option Place))}
    (h : ∀ p ∈ targets, Quiet v b p) (slots : List (Ty × Nat)) :
    Quiet v b (assignSlots targets slots) := by
  induction targets generalizing slots with
  | nil => exact .pure _
  | cons target rest ih =>
      rw [List.forall_mem_cons] at h
      cases slots with
      | nil => exact .pure _
      | cons s slots =>
          exact (assignSlot_quiet h.1 _ _).bind fun _ => (ih h.2 slots).bind fun _ => .pure _

/-- Slots for types. -/
theorem allocEach_quiet (types : List Ty) : Quiet v b (allocEach types) := by
  induction types with
  | nil => exact .pure _
  | cons ty rest ih => exact alloc_quiet.bind fun _ => ih.bind fun _ => .pure _

/-- Operands with slots for their values. -/
theorem stageEach_quiet {values : List (Compile Operand)} (h : ∀ p ∈ values, Quiet v b p) :
    Quiet v b (stageEach values) := by
  induction values with
  | nil => exact .pure _
  | cons value rest ih =>
      rw [List.forall_mem_cons] at h
      exact h.1.bind fun _ => (Quiet.rule _).bind fun _ => alloc_quiet.bind fun _ =>
        (ih h.2).bind fun _ => .pure _

/-- An assignment of one value. -/
theorem assignOne_quiet {target : Compile (Option Place)} {value : Compile Operand}
    (htarget : Quiet v b target) (hvalue : Quiet v b value) :
    Quiet v b (assignOne target value) := by
  refine htarget.bind fun place => hvalue.bind fun op => ?_
  cases place with
  | none => exact (Quiet.check _).bind fun _ => .pure _
  | some place => exact Quiet.bind (store_quiet _ _) fun _ => .pure _

/-- An assignment of the results of a call. -/
theorem assignResults_quiet {targets : List (Compile (Option Place))} {value : Compile Operand}
    (htargets : ∀ p ∈ targets, Quiet v b p) (hvalue : Quiet v b value) :
    Quiet v b (assignResults targets value) := by
  refine hvalue.bind fun op => ?_
  cases op with
  | term _ => exact .fail _
  | results call types =>
      have hstores := (allocEach_quiet types).bind fun slots =>
        (assignSlots_quiet htargets slots).bind fun stores =>
          (Quiet.pure (.spread call 0 (slots.map fun s => some s.2) :: stores) : Quiet v b _)
      exact Blind.ite (fun _ => Blind.fail_bind _ _) fun _ => hstores

/-- An assignment of several values. -/
theorem assignEach_quiet {targets : List (Compile (Option Place))}
    {values : List (Compile Operand)} (htargets : ∀ p ∈ targets, Quiet v b p)
    (hvalues : ∀ p ∈ values, Quiet v b p) : Quiet v b (assignEach targets values) := by
  have hstores := (stageEach_quiet hvalues).bind fun staged =>
    (assignSlots_quiet htargets (staged.map Prod.snd)).bind fun stores =>
      (Quiet.pure (.setSlots (staged.map fun s => (some s.2.2, s.1)) :: stores) : Quiet v b _)
  exact Blind.ite (fun _ => Blind.fail_bind _ _) fun _ => hstores

/-- An assignment. -/
theorem assign_quiet {targets : List (Compile (Option Place))} {values : List (Compile Operand)}
    (htargets : ∀ p ∈ targets, Quiet v b p) (hvalues : ∀ p ∈ values, Quiet v b p) :
    Quiet v b (assign targets values) := by
  unfold assign
  split
  · exact assignOne_quiet (htargets _ (List.mem_singleton_self _))
      (hvalues _ (List.mem_singleton_self _))
  · exact assignResults_quiet htargets (hvalues _ (List.mem_singleton_self _))
  · exact assignEach_quiet htargets hvalues

/-- The place that an update needs. -/
theorem updatedPlace_quiet {target : Compile (Option Place)} (h : Quiet v b target) :
    Quiet v b (updatedPlace target) := by
  refine h.bind fun place => ?_
  cases place with
  | none => exact .fail _
  | some _ => exact .pure _

/-- Increment or decrement. -/
theorem step_quiet {target : Compile (Option Place)} (h : Quiet v b target) (increment : Bool) :
    Quiet v b (step target increment) :=
  (updatedPlace_quiet h).bind fun _ => .rule _

/-- An operator that is applied in place. -/
theorem update_quiet (op : BinaryOp) {target : Compile (Option Place)} {value : Compile Operand}
    (htarget : Quiet v b target) (hvalue : Quiet v b value) :
    Quiet v b (update op target value) :=
  (updatedPlace_quiet htarget).bind fun _ => hvalue.bind fun _ => .rule _

/-! ### Declarations of variables -/

/-- A declared name is bound. -/
theorem bindName_blind (redeclare : Bool) (name : Name) (ty : Ty) :
    Blind v b (bindName redeclare name ty) (name :: b) := by
  refine Blind.ite (fun hblank => ?_) fun _ => ?_
  · rw [hblank]
    exact pure_blank_blind none
  have hnew : Blind v b (do return some (← declareLocal name ty)) (name :: b) :=
    (declareLocal_blind name ty).bind fun _ => Quiet.pure _
  intro c hc
  refine .get rfl ?_
  cases hfind : c.frame.findInnermost? name with
  | none => exact hnew c hc
  | some l =>
      cases redeclare with
      | false => exact hnew c hc
      | true =>
          have hbound : c.Shows v (name :: b) := by
            refine ⟨hc.names, hc.methods, fun n hn => ?_, hc.plain⟩
            rcases List.mem_cons.1 hn with rfl | hmem
            · exact .inr ⟨c.frame, List.mem_cons_self, Frame.find?_of_innermost hfind⟩
            · exact hc.bound n hmem
          exact (Quiet.rule _).bind (fun _ => .pure _) c hbound

/-- One name after the others. -/
theorem append_cons_subset (names : List Name) (name : Name) (b : List Name) :
    name :: names ++ b ⊆ names ++ name :: b := by
  intro n hn
  simp only [List.cons_append, List.mem_cons, List.mem_append] at hn ⊢
  rcases hn with h | h | h
  · exact .inr (.inl h)
  · exact .inl h
  · exact .inr (.inr h)

/-- Names that are declared for the results of a call are bound. -/
theorem bindResults_blind (declared : Option Ty) (redeclare : Bool) {names : List Name}
    {types : List Ty} (hlength : types.length = names.length) :
    Blind v b (bindResults declared redeclare names types) (names ++ b) := by
  induction names generalizing types b with
  | nil =>
      cases types with
      | nil => exact Quiet.pure _
      | cons _ _ => cases hlength
  | cons name names ih =>
      cases types with
      | nil => cases hlength
      | cons ty types =>
          have hnames := (bindName_blind (v := v) (b := b) redeclare name (declared.getD ty)).bind
            fun slot => (ih (b := name :: b) (Nat.succ.inj hlength)).bind fun slots =>
              Quiet.pure (slot :: slots)
          exact (Blind.bind (Quiet.rule _) fun _ => hnames).mono (append_cons_subset names name b)

/-- Names that are declared for staged values are bound. -/
theorem bindStaged_blind (redeclare : Bool) {names : List Name} {staged : List (Ty × Code.Expr)}
    (hlength : staged.length = names.length) :
    Blind v b (bindStaged redeclare names staged) (names ++ b) := by
  induction names generalizing staged b with
  | nil =>
      cases staged with
      | nil => exact Quiet.pure _
      | cons _ _ => cases hlength
  | cons name names ih =>
      cases staged with
      | nil => cases hlength
      | cons s staged =>
          have hnames : Blind v b (bindStaged redeclare (name :: names) (s :: staged))
              (names ++ name :: b) :=
            (bindName_blind redeclare name _).bind fun _ =>
              (ih (Nat.succ.inj hlength)).bind fun _ => Quiet.pure _
          exact hnames.mono (append_cons_subset names name b)

/-- Staged values are stored. -/
theorem setStaged_blind (redeclare : Bool) {names : List Name} {staged : List (Ty × Code.Expr)}
    (hlength : staged.length = names.length) :
    Blind v b (do return Code.Instr.setSlots (← bindStaged redeclare names staged)) (names ++ b) :=
  (bindStaged_blind redeclare hlength).bind fun _ => Quiet.pure _

/-- A declaration of variables with values. -/
theorem declareValues_blind (names : List Name) (declared : Option Ty)
    {values : List (Compile Operand)} (h : ∀ p ∈ values, Quiet v b p) (redeclare : Bool) :
    Blind v b (declareValues names declared values redeclare) (names ++ b) := by
  refine Blind.bind (sequence_quiet h) fun ops => ?_
  have heach (hlength : ¬ops.length ≠ names.length) :
      Blind v b (do
        let staged ← rule fun t => stageDeclared t declared ops
        return Code.Instr.setSlots (← bindStaged redeclare names staged)) (names ++ b) := by
    refine Blind.bind_of (Quiet.rule _) (.rule fun t => stageDeclared_length t declared ops)
      fun staged hstaged => setStaged_blind redeclare ?_
    rw [hstaged]
    exact not_not.1 hlength
  dsimp only
  split
  · exact Blind.ite (fun _ => Blind.fail_bind _ _) fun hlength =>
      (bindResults_blind declared redeclare (not_not.1 hlength)).bind fun _ => Quiet.pure _
  · exact Blind.ite (fun _ => Blind.fail_bind _ _) heach

/-- A declaration of variables that start at zero. -/
theorem declareZeros_blind (names : List Name) (declared : Option Ty) :
    Blind v b (declareZeros names declared) (names ++ b) := by
  cases declared with
  | none => exact Blind.fail _
  | some ty =>
      exact Blind.types fun t => setStaged_blind false (List.length_map _)

/-! ### Blocks and bodies -/

/-- A step with a block of its own. -/
theorem withBlock_eq (content : Compile α) (c : Compiler) :
    withBlock content c = (content { c with frame := c.frame.nested }).map fun r =>
      (r.1, { r.2 with frame := r.2.frame.unnested }) := by
  change (content { c with frame := c.frame.nested }).bind (fun r => .ok
    (r.1, { r.2 with frame := r.2.frame.unnested })) = _
  cases content { c with frame := c.frame.nested } <;> rfl

/-- **A block binds nothing after it.**  What was bound is bound again, since the blocks around it
are as they were. -/
theorem withBlock_quiet {content : Compile α} (h : Blind v b content b') :
    Quiet v b (withBlock content) := by
  intro c hc
  have hnested : Compiler.Shows v b { c with frame := c.frame.nested } :=
    hc.frame fun n hn => .inr (.inr ⟨hn, id⟩)
  obtain ⟨hsame, hshows, houter⟩ := h _ hnested
  have hopened : ({ c.other v with frame := (c.other v).frame.nested } : Compiler) =
      Compiler.other v { c with frame := c.frame.nested } := rfl
  have hclosed (a : α) (d : Compiler) (hd : withBlock content c = .ok (a, d)) :
      ∃ e, content { c with frame := c.frame.nested } = .ok (a, e) ∧
        d = { e with frame := e.frame.unnested } := by
    rw [withBlock_eq] at hd
    cases hcontent : content { c with frame := c.frame.nested } with
    | error _ =>
        rw [hcontent] at hd
        cases hd
    | ok r =>
        rw [hcontent] at hd
        cases hd
        exact ⟨r.2, rfl, rfl⟩
  refine ⟨?_, fun a d hd => ?_, fun a d hd => ?_⟩
  · rw [withBlock_eq, withBlock_eq, hopened, hsame]
    cases content { c with frame := c.frame.nested } <;> rfl
  · obtain ⟨e, hcontent, rfl⟩ := hclosed a d hd
    obtain ⟨hblocks, henclosing⟩ := houter a e hcontent
    have hshown := hshows a e hcontent
    refine ⟨hshown.names, hshown.methods, fun n hn => ?_, hshown.plain⟩
    have hfind : e.frame.unnested.find? n = c.frame.find? n :=
      congrArg (List.findSome? fun block => Frame.findIn block n) hblocks
    apply (hc.bound n hn).imp_right
    intro hbound
    rw [henclosing]
    apply hbound.frame
    rw [hfind]
    exact id
  · obtain ⟨e, hcontent, rfl⟩ := hclosed a d hd
    obtain ⟨hblocks, henclosing⟩ := houter a e hcontent
    exact ⟨congrArg List.tail hblocks, henclosing⟩

/-- A step in a frame of its own. -/
theorem inFrame_quiet {nested : Bool} {content : Compile α}
    (h : Blind v (if nested then b else []) content b') : Quiet v b (inFrame nested content) := by
  intro c hc
  have hentered : (c.entered nested).Shows v (if nested then b else []) := by
    refine ⟨hc.names, hc.methods, fun n hn => ?_, hc.plain⟩
    cases nested with
    | false => cases hn
    | true =>
        apply (hc.bound n hn).imp_right
        intro hbound
        obtain ⟨f, hf, hsome⟩ := hbound
        exact ⟨f, List.mem_cons_of_mem _ hf, hsome⟩
  obtain ⟨hsame, hshows, -⟩ := h _ hentered
  have hother : (c.other v).entered nested = (c.entered nested).other v := by
    cases nested <;> rfl
  have hleft (a : α) (d : Compiler) (hd : inFrame nested content c = .ok (a, d)) :
      ∃ e, content (c.entered nested) = .ok (a, e) ∧
        d = { e with frame := c.frame, enclosing := c.enclosing } := by
    rw [inFrame_eq] at hd
    cases hcontent : content (c.entered nested) with
    | error _ =>
        rw [hcontent] at hd
        cases hd
    | ok r =>
        rw [hcontent] at hd
        cases hd
        exact ⟨r.2, rfl, rfl⟩
  refine ⟨?_, fun a d hd => ?_, fun a d hd => ?_⟩
  · rw [inFrame_eq, inFrame_eq, hother, hsame]
    cases content (c.entered nested) <;> rfl
  · obtain ⟨e, hcontent, rfl⟩ := hleft a d hd
    have hshown := hshows a e hcontent
    exact ⟨hshown.names, hshown.methods, hc.bound, hshown.plain⟩
  · obtain ⟨e, hcontent, rfl⟩ := hleft a d hd
    exact ⟨rfl, rfl⟩

/-- A condition. -/
theorem condition_quiet {test : Compile Operand} (h : Quiet v b test) :
    Quiet v b (condition test) :=
  h.bind fun _ => (Quiet.rule _).bind fun _ =>
    Blind.ite (fun _ => Quiet.pure _) fun _ => Quiet.fail _

/-- Operands as values of types. -/
theorem convertEach_quiet {values : List (Compile Operand)} (h : ∀ p ∈ values, Quiet v b p)
    (types : List Ty) : Quiet v b (convertEach values types) := by
  induction values generalizing types with
  | nil => exact .pure _
  | cons value rest ih =>
      rw [List.forall_mem_cons] at h
      cases types with
      | nil => exact .pure _
      | cons ty types =>
          exact (converted_quiet h.1 ty).bind fun _ => (ih h.2 types).bind fun _ => .pure _

/-- A return of as many values as there are results. -/
theorem returnEach_quiet {values : List (Compile Operand)} (h : ∀ p ∈ values, Quiet v b p) :
    Quiet v b (returnEach values) :=
  Blind.get (fun _ _ => rfl) fun _ _ => Blind.ite (fun _ => Blind.fail_bind _ _) fun _ =>
    (convertEach_quiet h _).bind fun _ => Quiet.pure _

/-- A return of the results of a call. -/
theorem returnResults_quiet {value : Compile Operand} (h : Quiet v b value) :
    Quiet v b (returnResults value) := by
  refine Blind.get (fun _ _ => rfl) fun c _ => Blind.bind h fun op => ?_
  cases op with
  | term _ => exact .fail _
  | results call types =>
      exact Blind.ite (fun _ => Blind.fail_bind _ _) fun _ =>
        Quiet.bind (Quiet.rule _) fun _ => Quiet.pure _

/-- A return without values. -/
theorem returnNothing_quiet : Quiet v b returnNothing := by
  refine Blind.get (fun _ _ => rfl) fun c _ => ?_
  dsimp only
  split
  · exact Quiet.pure _
  · exact Blind.ite (fun _ => Quiet.pure _) fun _ => Quiet.fail _

/-- A return statement. -/
theorem returnStmt_quiet {values : List (Compile Operand)} (h : ∀ p ∈ values, Quiet v b p) :
    Quiet v b (returnStmt values) := by
  match values with
  | [] => exact returnNothing_quiet
  | [value] =>
      exact Blind.get (fun _ _ => rfl) fun c _ => Blind.ite (fun _ => returnEach_quiet h)
        fun _ => returnResults_quiet (h _ (List.mem_singleton_self _))
  | _ :: _ :: _ => exact returnEach_quiet h

/-- Names of parameters and results. -/
def boundBy (slots : List (Option Name × Ty)) : List Name :=
  slots.filterMap Prod.fst

/-- The slot of a parameter or result, whose name is bound. -/
theorem bindSlot_blind (name : Option Name) (ty : Ty) :
    Blind v b (bindSlot name ty) (name.toList ++ b) := by
  cases name with
  | none => exact alloc_quiet
  | some name =>
      refine Blind.ite (fun hblank => ?_) fun _ => declareLocal_blind name ty
      rw [hblank]
      exact Blind.bind alloc_quiet fun slot => pure_blank_blind slot

/-- The slots of parameters or results, whose names are bound. -/
theorem bindSlots_blind (slots : List (Option Name × Ty)) :
    Blind v b (bindSlots slots) (boundBy slots ++ b) := by
  induction slots generalizing b with
  | nil => exact Quiet.pure _
  | cons s rest ih =>
      obtain ⟨name, ty⟩ := s
      have hslots : Blind v b (bindSlots ((name, ty) :: rest))
          (boundBy rest ++ (name.toList ++ b)) :=
        (bindSlot_blind name ty).bind fun _ => ih.bind fun _ => Quiet.pure _
      refine hslots.mono ?_
      cases name with
      | none => exact fun _ h => h
      | some name => exact append_cons_subset _ _ _

/-- Named results start at zero. -/
theorem bindResultSlots_blind (results : List (Option Name × Ty)) :
    Blind v b (bindResultSlots results) (boundBy results ++ b) := by
  refine Blind.ite (fun _ => ?_) fun hnone => ?_
  · refine (bindSlots_blind results).bind fun slots => Blind.types fun t => ?_
    have hslots : Quiet v (boundBy results ++ b)
        (updateFrame fun f => { f with namedResults := some slots }) :=
      updateFrame_quiet fun _ => rfl
    exact hslots.bind fun _ => Quiet.pure _
  · have hnames : boundBy results = [] := by
      rw [boundBy, List.filterMap_eq_nil_iff]
      intro r hr
      cases hname : r.1 with
      | none => rfl
      | some _ =>
          apply absurd _ hnone
          rw [List.any_eq_true]
          exact ⟨r, hr, by rw [hname]; rfl⟩
    rw [hnames]
    exact Quiet.pure _

/-- Names that a heading binds. -/
def headingNames (h : Heading) : List Name :=
  boundBy h.params ++ boundBy h.results

/-- The beginning of a body binds the names of receiver, parameters and results. -/
theorem enterBody_blind (recv : Option (Option Name × Ty)) (h : Heading) :
    Blind v b (enterBody recv h) ((recv.bind Prod.fst).toList ++ headingNames h ++ b) := by
  have hbegin : Blind v b (enterBody recv h)
      (boundBy h.results ++ (boundBy (recv.toList ++ h.params) ++ b)) :=
    Blind.bind (updateFrame_quiet fun _ => rfl) fun _ =>
      Blind.bind (bindSlots_blind _) fun _ => bindResultSlots_blind _
  refine hbegin.mono fun n hn => ?_
  have hrecv : boundBy recv.toList = (recv.bind Prod.fst).toList := by
    obtain _ | ⟨_ | _, _⟩ := recv <;> rfl
  have hslots : boundBy (recv.toList ++ h.params) = boundBy recv.toList ++ boundBy h.params :=
    List.filterMap_append
  rw [headingNames] at hn
  rw [hslots, hrecv]
  simp only [List.mem_append] at hn ⊢
  tauto

/-- The end of a body. -/
theorem leaveBody_quiet : Quiet v b leaveBody :=
  Blind.types fun _ => Blind.get (fun _ _ => rfl) fun _ _ => Quiet.pure _

end Compile

/-! ### Code -/

namespace Emit

open Compile (emit_bind emit_lift)

variable {α β : Type} {v : Views} {b b' b₁ : List Name}

/-- A step that adds code is blind, whatever the code before it. -/
def Blind (v : Views) (b : List Name) (p : Emit α) (b' : List Name) : Prop :=
  ∀ k, Compile.Blind v b (p k) b'

namespace Blind

/-- One step after another. -/
protected theorem bind {p : Emit α} {f : α → Emit β} (h : Blind v b p b₁)
    (hf : ∀ a, Blind v b₁ (f a) b') : Blind v b (p >>= f) b' := by
  intro k
  rw [emit_bind]
  exact (h k).bind fun r => hf r.1 r.2

/-- A step that adds no code. -/
protected theorem lift {p : Compile α} (h : Compile.Blind v b p b') :
    Blind v b (liftM p : Emit α) b' := by
  intro k
  rw [emit_lift]
  exact h.bind fun _ => Compile.Quiet.pure _

/-- A result. -/
protected theorem pure (a : α) : Blind v b (Pure.pure a : Emit α) b :=
  fun _ => Compile.Quiet.pure _

/-- Code is added to what there is. -/
protected theorem modifyGet (f : Assembly → α × Assembly) :
    Blind v b (MonadStateOf.modifyGet f : Emit α) b :=
  fun k => Compile.Quiet.pure (f k)

/-- Fewer names are bound. -/
protected theorem mono {p : Emit α} (h : Blind v b p b₁) (hsub : b' ⊆ b₁) : Blind v b p b' :=
  fun k => (h k).mono hsub

/-- Errors that get a place. -/
protected theorem at' {p : Emit α} (span : Span) (h : Blind v b p b') :
    Blind v b (Emit.at' span p) b' :=
  fun k => (h k).at' span

/-- Instructions. -/
theorem all {p : Compile (List Code.Instr)} (h : Compile.Blind v b p b') :
    Blind v b (do Emit.all (← p)) b' :=
  Blind.bind (.lift h) fun _ => .modifyGet _

/-- An instruction. -/
theorem one {p : Compile Code.Instr} (h : Compile.Blind v b p b') :
    Blind v b (do Emit.one (← p)) b' :=
  Blind.bind (.lift h) fun _ => .modifyGet _

end Blind

end Emit

namespace Compile

variable {α : Type} {v : Views} {b b' b₁ : List Name}

/-- Code in a block of its own. -/
theorem inBlock_quiet {content : Emit Unit} (h : Emit.Blind v b content b') :
    Emit.Blind v b (inBlock content) b :=
  fun k => withBlock_quiet (h k)

/-- A conditional statement, after which the names are bound that its last branch binds. -/
theorem ifThenElse_blind {test : Compile Operand} {body : Emit Unit}
    {otherwise : Option (Emit Unit)} (htest : Quiet v b test) (hbody : Emit.Blind v b body b₁)
    (hnone : otherwise = none → b' ⊆ b)
    (hotherwise : ∀ s ∈ otherwise, Emit.Blind v b s b') :
    Emit.Blind v b (ifThenElse test body otherwise) b' := by
  refine (Emit.Blind.lift (condition_quiet htest)).bind fun e =>
    (Emit.Blind.modifyGet _).bind fun skip => (Emit.Blind.modifyGet _).bind fun _ =>
      (inBlock_quiet hbody).bind fun _ => ?_
  cases otherwise with
  | none => exact (Emit.Blind.modifyGet _).mono (hnone rfl)
  | some s =>
      exact (Emit.Blind.modifyGet _).bind fun _ => (Emit.Blind.modifyGet _).bind fun _ =>
        (Emit.Blind.modifyGet _).bind fun _ => (hotherwise s rfl).bind fun _ =>
          Emit.Blind.modifyGet _

/-- A jump unless a condition holds. -/
theorem jumpUnless_quiet {test : Option (Compile Operand)} (h : ∀ t ∈ test, Quiet v b t)
    (label : Nat) : Emit.Blind v b (jumpUnless test label) b := by
  cases test with
  | none => exact .pure _
  | some t => exact (Emit.Blind.lift (condition_quiet (h t rfl))).bind fun _ => .modifyGet _

/-- A loop: its first clause binds names in the rest of it, its last clause binds none. -/
theorem loop_quiet {init post : Option (Emit Unit)} {test : Option (Compile Operand)}
    {body : Emit Unit} (hinit : Emit.Blind v b (optional init) b₁)
    (htest : ∀ t ∈ test, Quiet v b₁ t) (hpost : Emit.Blind v b₁ (optional post) b₁)
    (hbody : Emit.Blind v b₁ body b') : Emit.Blind v b (loop init test post body) b :=
  inBlock_quiet <| hinit.bind fun _ => (Emit.Blind.modifyGet _).bind fun _ =>
    (Emit.Blind.modifyGet _).bind fun _ => (Emit.Blind.modifyGet _).bind fun _ =>
      (Emit.Blind.modifyGet _).bind fun _ => (jumpUnless_quiet htest _).bind fun _ =>
        (Emit.Blind.modifyGet _).bind fun _ => (inBlock_quiet hbody).bind fun _ =>
          (Emit.Blind.modifyGet _).bind fun _ => (Emit.Blind.modifyGet _).bind fun _ =>
            hpost.bind fun _ => (Emit.Blind.modifyGet _).bind fun _ => .modifyGet _

/-- `break` and `continue`. -/
theorem branchOut_quiet (keyword : String) (label : LoopLabels → Nat) :
    Emit.Blind v b (branchOut keyword label) b := by
  intro k
  unfold branchOut
  cases k.loops with
  | nil => exact Quiet.fail _
  | cons _ _ => exact Quiet.pure _

/-- The body of a function, in which the names of receiver, parameters and results are bound. -/
theorem bodyOf_blind {recv : Option (Option Name × Ty)} {h : Heading} {content : Emit Unit}
    (hcontent : Emit.Blind v ((recv.bind Prod.fst).toList ++ headingNames h ++ b) content b') :
    Emit.Blind v b (bodyOf recv h content)
      ((recv.bind Prod.fst).toList ++ headingNames h ++ b) :=
  (Emit.Blind.lift (enterBody_blind recv h)).bind fun _ => (Emit.Blind.modifyGet _).bind fun _ =>
    (inBlock_quiet hcontent).bind fun _ => (Emit.Blind.lift leaveBody_quiet).bind fun _ =>
      .modifyGet _

/-- The code of a body. -/
theorem assembled_blind {content : Emit Unit} (h : Emit.Blind v b content b') :
    Blind v b (assembled content) b' :=
  (h .empty).bind fun _ => Blind.get (fun _ _ => rfl) fun _ _ => Quiet.pure _

/-- The function type of a heading. -/
theorem headingType_quiet (recv : Option Ty) (h : Heading) : Quiet v b (headingType recv h) :=
  signatureType_quiet _ _ _ _

/-- A function literal, whose names are bound in its body. -/
theorem funcLit_quiet {heading : Compile Heading} {content : Emit Unit} {names : List Name}
    (hheading : Quiet v b heading) (hnames : Gives (fun h => headingNames h = names) heading)
    (hcontent : Emit.Blind v (names ++ b) content b') : Quiet v b (funcLit heading content) := by
  refine Blind.bind_of hheading hnames fun h hh => (headingType_quiet none h).bind fun ty => ?_
  have hbody : Emit.Blind v (if true then b else []) (bodyOf none h content)
      (headingNames h ++ b) := by
    apply bodyOf_blind
    rw [← hh] at hcontent
    exact hcontent
  exact Quiet.bind (inFrame_quiet (assembled_blind hbody)) fun _ => Quiet.pure _

end Compile

end ScriptCore
