import ScriptCore.Proofs.Addressing.Operands

/-!
# Simple statements with checked addresses

Assignments, declarations and returns, and the blocks and bodies they stand in.  A statement takes
the level of its body from what the text gives before it to what the text gives after it: every
temporary and every declared name gets the next slot, in the state as in the text.

Main statements: `assign_agrees`, `declareValues_agrees` and `enterBody_agrees`.
-/

namespace ScriptCore

namespace Level

variable {l : Level}

/-- Temporaries take one slot each. -/
@[simp] theorem temporaries_next (l : Level) (n : Nat) : (l.temporaries n).next = l.next + n := by
  induction n with
  | zero => rfl
  | succ n ih => rw [temporaries, temporary_next, ih]; rfl

/-- Temporaries have no names. -/
@[simp] theorem temporaries_blocks (l : Level) (n : Nat) : (l.temporaries n).blocks = l.blocks := by
  induction n with
  | zero => rfl
  | succ n ih => rw [temporaries, ← ih]; rfl

/-- Temporaries one after the other. -/
theorem temporaries_add (l : Level) (m n : Nat) :
    (l.temporaries m).temporaries n = l.temporaries (m + n) := by
  induction n with
  | zero => rfl
  | succ n ih => rw [temporaries, ih]; rfl

/-- A declared name has a slot below the next one. -/
theorem bind_lt (l : Level) (redeclare : Bool) (name : Name) :
    l.next ≤ (l.bind redeclare name).2.next ∧
      ∀ slot, (l.bind redeclare name).1 = some slot → slot < (l.bind redeclare name).2.next := by
  unfold bind
  split
  · exact ⟨Nat.le_refl _, by simp⟩
  · split
    · next slot hslot =>
        refine ⟨Nat.le_refl _, ?_⟩
        rintro _ ⟨⟩
        obtain ⟨block, hblock, hfound⟩ := Option.bind_eq_some_iff.1 hslot
        obtain ⟨before, after, rfl, -⟩ := List.lookup_eq_some_iff.1 hfound
        exact slot_lt (l.named _ (List.mem_of_mem_head? hblock) (name, slot) (by simp))
    · refine ⟨by simp, ?_⟩
      rintro _ ⟨⟩
      simp

/-- Declared names have slots below the next one. -/
theorem bindAll_lt (l : Level) (redeclare : Bool) (names : List Name) :
    l.next ≤ (l.bindAll redeclare names).2.next ∧
      ∀ slot, some slot ∈ (l.bindAll redeclare names).1 →
        slot < (l.bindAll redeclare names).2.next := by
  induction names generalizing l with
  | nil => exact ⟨Nat.le_refl _, by simp [bindAll]⟩
  | cons name names ih =>
      obtain ⟨hle, hlt⟩ := l.bind_lt redeclare name
      obtain ⟨hles, hlts⟩ := ih (l.bind redeclare name).2
      refine ⟨Nat.le_trans hle hles, fun slot hslot => ?_⟩
      rcases List.mem_cons.1 hslot with heq | hslot
      · exact Nat.lt_of_lt_of_le (hlt slot heq.symm) hles
      · exact hlts slot hslot

end Level

/-! ### The frame of a body -/

namespace World

variable {w : World} {l l' : Level}

/-- The slots of a body only grow. -/
theorem push_le (w : World) (h : l.next ≤ l'.next) : (w.push l).Le (w.push l') :=
  ⟨.cons h (.refl _), Nat.le_refl _, fun _ h => h, fun _ h => h, rfl⟩

/-- The slots of a body are there. -/
theorem holds_slot {slot : Nat} (h : slot < l.next) : (w.push l).Holds (.slot 0 slot) :=
  ⟨⟨l.next, rfl, h⟩, fun heq => nomatch heq⟩

/-- Loading a slot of a body. -/
theorem load_covers {slot : Nat} (h : slot < l.next) : (w.push l).Covers (Code.Expr.load 0 slot) :=
  admits_cons.2 ⟨holds_slot h, admits_nil⟩

/-- Slots of a body that are stored in. -/
theorem targets_admits {slots : List (Option Nat)} (h : ∀ slot, some slot ∈ slots → slot < l.next) :
    (w.push l).Admits ((slots.filterMap id).map (.slot 0)) := by
  intro x hx
  obtain ⟨slot, hslot, rfl⟩ := List.mem_map.1 hx
  obtain ⟨o, ho, rfl⟩ := List.mem_filterMap.1 hslot
  exact holds_slot (h slot ho)

/-- Storing values in slots of a body. -/
theorem setSlots_covers {stores : List (Option Nat × Code.Expr)}
    (hvalues : (w.push l).Covers (stores.map Prod.snd))
    (hslots : ∀ slot, some slot ∈ stores.map Prod.fst → slot < l.next) :
    (w.push l).Covers (Code.Instr.setSlots stores) :=
  admits_append.2 ⟨admits_partsOf.2 hvalues, targets_admits hslots⟩

/-- Storing the results of a call in slots of a body. -/
theorem spread_covers {call : Code.Call} {slots : List (Option Nat)}
    (hcall : (w.push l).Covers call) (hslots : ∀ slot, some slot ∈ slots → slot < l.next) :
    (w.push l).Covers (Code.Instr.spread call 0 slots) :=
  admits_append.2 ⟨admits_cons.2 ⟨⟨⟨l.next, rfl⟩, trivial⟩, hcall⟩, targets_admits hslots⟩

end World

/-- The state with another frame fits the world with another level. -/
theorem Compiler.Fits.reframe {c : Compiler} {w : World} {l l' : Level} (h : c.Fits (w.push l))
    {f : Frame} (hf : f.Fits l') : ({ c with frame := f } : Compiler).Fits (w.push l') := by
  obtain ⟨hframes, hglobals, hnames, hmethods, hhosts⟩ := h
  cases hframes with
  | cons _ henclosing => exact ⟨.cons hf henclosing, hglobals, hnames, hmethods, hhosts.1, hhosts.2⟩

/-- The frame fits the level. -/
theorem Compiler.Fits.frame {c : Compiler} {w : World} {l : Level} (h : c.Fits (w.push l)) :
    c.frame.Fits l := by
  have hframes := h.frames
  cases hframes with
  | cons hf _ => exact hf

namespace Frame.Fits

variable {f : Frame} {l : Level}

/-- A new slot is a temporary. -/
theorem alloc (h : f.Fits l) : f.alloc.2.Fits l.temporary :=
  ⟨h.scope, by rw [Level.temporary_next, ← h.slots]; rfl, h.results⟩

/-- A declared name. -/
theorem declare (h : f.Fits l) (name : Name) (ty : Ty) :
    (f.declare name ty).2.Fits (l.declare name) := by
  refine ⟨?_, by rw [Level.declare_next, ← h.slots]; rfl, h.results⟩
  change _ = Level.declaredBlocks name l.next l.blocks
  rw [← h.scope, ← h.slots]
  unfold Frame.declare Frame.scope
  cases f.blocks <;> rfl

/-- A block is opened. -/
theorem nested (h : f.Fits l) : f.nested.Fits l.nested :=
  ⟨congrArg ([] :: ·) h.scope, h.slots, h.results⟩

/-- A block is closed. -/
theorem unnested (h : f.Fits l) : f.unnested.Fits l.unnested := by
  refine ⟨?_, h.slots, h.results⟩
  change _ = l.blocks.tail
  rw [← h.scope, Frame.scope, Frame.scope]
  exact List.map_tail

/-- Names of the innermost block. -/
theorem innermost (h : f.Fits l) (name : Name) :
    (f.findInnermost? name).map Local.slot = l.innermost? name := by
  unfold findInnermost? Level.innermost?
  rw [← h.scope, Frame.scope]
  cases f.blocks with
  | nil => rfl
  | cons block blocks => exact findIn_scope block name

end Frame.Fits

namespace Compile

open Code

variable {w : World} {l l' : Level}

/-- A step on the frame. -/
theorem onFrame_agrees {α : Type} {f : Frame → α × Frame} {Q : α → Prop}
    (h : ∀ fr : Frame, fr.Fits l → (f fr).2.Fits l' ∧ Q (f fr).1) :
    Agrees (w.push l) (onFrame f) (onFrame f) (w.push l') Q := by
  refine fun c hc => ⟨rfl, ?_, ?_⟩
  · rintro a c' ⟨⟩
    exact ⟨hc.reframe (h c.frame hc.frame).1, (h c.frame hc.frame).2⟩
  · rintro a c' ⟨⟩
    rfl

/-- A change of the frame. -/
theorem updateFrame_agrees {f : Frame → Frame} (h : ∀ fr : Frame, fr.Fits l → (f fr).Fits l') :
    Agrees (w.push l) (updateFrame f) (updateFrame f) (w.push l') fun _ => True :=
  .modify fun c hc => ⟨hc.reframe (h c.frame hc.frame), rfl⟩

/-- A new slot. -/
theorem alloc_agrees :
    Agrees (w.push l) alloc alloc (w.push l.temporary) fun slot => slot = l.next :=
  onFrame_agrees fun _ hf => ⟨hf.alloc, hf.slots⟩

/-- A new variable. -/
theorem declareLocal_agrees (name : Name) (ty : Ty) :
    Agrees (w.push l) (declareLocal name ty) (declareLocal name ty) (w.push (l.declare name))
      fun slot => slot = l.next :=
  onFrame_agrees fun _ hf => ⟨hf.declare name ty, hf.slots⟩

/-- A step with a block of its own. -/
theorem withBlock_agrees {α : Type} [HasCode α] {p q : Compile α}
    (h : Agrees (w.push l.nested) p q (w.push l') (w.push l').Covers) :
    Agrees (w.push l) (withBlock p) (withBlock q) (w.push l'.unnested)
      (w.push l'.unnested).Covers := by
  refine .bind (updateFrame_agrees fun _ hf => hf.nested) fun _ _ => .bind h fun a ha =>
    .bind (updateFrame_agrees fun _ hf => hf.unnested) fun _ _ => .pure (ha.mono ?_)
  exact w.push_le (Nat.le_refl _)

/-! ### Assignments -/

/-- An index expression as a place. -/
theorem indexPlace_stays {c c' k k' : Compile Operand} (hc : Stays w c c') (hk : Stays w k k') :
    Stays w (indexPlace c k) (indexPlace c' k') :=
  .bind hc fun _ hop => .bind (.rule fun _ => Operand.valueOf_covers hop) fun _ hr =>
    .bind hk fun _ hkey => .bind (.rule fun _ => elementPlace_covers hr _ hkey) fun _ hp =>
      .pure (World.covers_some.2 hp)

/-- A selector as a place. -/
theorem selectorPlace_stays {base base' : Compile (Option Place)} (h : Stays w base base')
    (name : Name) : Stays w (selectorPlace base name) (selectorPlace base' name) := by
  refine .bind h fun place hplace => ?_
  cases place with
  | none => exact .fail _
  | some b =>
      exact .bind (.rule fun t => fieldPlace_covers (World.covers_some.1 hplace) name) fun p hp =>
        .pure (World.covers_some.2 hp)

/-- Two steps agree whatever temporaries the body has. -/
def Steady {α : Type} [HasCode α] (w : World) (l : Level) (p q : Compile α) : Prop :=
  ∀ n, Stays (w.push (l.temporaries n)) p q

/-- Slots of temporaries. -/
def temporarySlots (l : Level) (n : Nat) : List Nat :=
  (List.range n).map (l.next + ·)

/-- One temporary more. -/
theorem temporarySlots_succ (l : Level) (n : Nat) :
    temporarySlots l (n + 1) = l.next :: temporarySlots l.temporary n := by
  simp [temporarySlots, List.range_succ_eq_map, Function.comp_def, Nat.add_assoc, Nat.add_comm 1]

/-- Slots of temporaries are there afterwards. -/
theorem lt_of_mem_temporarySlots {n slot : Nat} (h : slot ∈ temporarySlots l n) :
    slot < (l.temporaries n).next := by
  obtain ⟨k, hk, rfl⟩ := List.mem_map.1 h
  have hlt := List.mem_range.1 hk
  rw [Level.temporaries_next]
  omega

/-- One temporary before others. -/
theorem temporaries_succ' (l : Level) (n : Nat) :
    l.temporary.temporaries n = l.temporaries (n + 1) := by
  rw [Nat.add_comm]
  exact l.temporaries_add 1 n

/-- Steps that agree whatever temporaries there are agree after one temporary more. -/
theorem Steady.temporary {α : Type} [HasCode α] {p q : Compile α} (h : Steady w l p q) :
    Steady w l.temporary p q := by
  intro n
  rw [temporaries_succ']
  exact h (n + 1)

/-- Storing an operand. -/
theorem store_stays {place : Place} {op : Operand} (hplace : w.Covers place) (hop : w.Covers op) :
    Stays w (store place op) (store place op) :=
  .rule fun _ => Place.set_covers hplace hop

/-- Evaluating an operand for its effects. -/
theorem discard_covers {op : Operand} (hop : w.Covers op) : w.Covers (discard op) := by
  unfold discard
  split
  · exact World.covers_nil
  · exact World.covers_cons.2 ⟨World.admits_append.2 ⟨hop, World.admits_nil⟩, World.covers_nil⟩
  · exact World.covers_cons.2 ⟨World.admits_append.2 ⟨hop, World.admits_nil⟩, World.covers_nil⟩

/-- Assigning the value in a slot. -/
theorem assignSlot_stays {target target' : Compile (Option Place)}
    (h : Stays (w.push l) target target') (ty : Ty) {slot : Nat} (hslot : slot < l.next) :
    Stays (w.push l) (assignSlot target ty slot) (assignSlot target' ty slot) := by
  refine .bind h fun place hplace => ?_
  cases place with
  | none => exact .pure World.covers_nil
  | some place =>
      exact .types fun t => .bind
        (store_stays (World.covers_some.1 hplace) (Term.ofExpr_covers (World.load_covers hslot)))
        fun i hi => .pure (World.covers_cons.2 ⟨hi, World.covers_nil⟩)

/-- Assigning the values in slots. -/
theorem assignSlots_stays {targets targets' : List (Compile (Option Place))}
    (h : List.Forall₂ (Stays (w.push l)) targets targets') {slots : List (Ty × Nat)}
    (hslots : ∀ s ∈ slots, s.2 < l.next) :
    Stays (w.push l) (assignSlots targets slots) (assignSlots targets' slots) := by
  induction h generalizing slots with
  | nil => exact .pure World.covers_nil
  | cons htarget _ ih =>
      cases slots with
      | nil => exact .pure World.covers_nil
      | cons slot rest =>
          refine .bind (assignSlot_stays htarget slot.1 (hslots slot List.mem_cons_self))
            fun first hfirst => .bind (ih fun s hs => hslots s (List.mem_cons_of_mem _ hs))
              fun others hothers => .pure (World.covers_append.2 ⟨hfirst, hothers⟩)

/-- New slots are temporaries. -/
theorem allocEach_agrees (types : List Ty) :
    Agrees (w.push l) (allocEach types) (allocEach types) (w.push (l.temporaries types.length))
      fun slots => slots.map Prod.snd = temporarySlots l types.length := by
  induction types generalizing l with
  | nil => exact .pure rfl
  | cons ty rest ih =>
      have hrest := @ih l.temporary
      rw [temporaries_succ'] at hrest
      refine .bind alloc_agrees fun slot hslot => .bind hrest fun others hothers => .pure ?_
      rw [List.map_cons, hothers, hslot, List.length_cons, temporarySlots_succ]

/-- Values that are kept in new slots. -/
theorem stageEach_agrees {values values' : List (Compile Operand)}
    (h : List.Forall₂ (Steady w l) values values') :
    Agrees (w.push l) (stageEach values) (stageEach values')
      (w.push (l.temporaries values.length)) fun staged =>
        staged.map (fun s => s.2.2) = temporarySlots l values.length ∧
          (w.push (l.temporaries values.length)).Covers (staged.map Prod.fst) := by
  induction values generalizing l values' with
  | nil =>
      cases h
      exact .pure ⟨rfl, World.covers_nil⟩
  | cons value rest ih =>
      cases h with
      | cons hvalue hrest =>
          have hsteady := ih (hrest.imp fun _ _ h => h.temporary)
          rw [temporaries_succ'] at hsteady
          refine .bind (hvalue 0) fun op hop => .bind (.rule fun t => Operand.valueOf_covers hop)
            fun r hr => .bind alloc_agrees fun slot hslot => .bind hsteady fun others hothers =>
              .pure ⟨?_, ?_⟩
          · rw [List.map_cons, hothers.1, hslot, List.length_cons, temporarySlots_succ]
            rfl
          · refine World.covers_cons.2 ⟨World.Covers.mono (a := r.1.expr) hr ?_, hothers.2⟩
            exact w.push_le (by simp)

/-- Assigning one value. -/
theorem assignOne_stays {target target' : Compile (Option Place)} {value value' : Compile Operand}
    (htarget : Stays w target target') (hvalue : Stays w value value') :
    Stays w (assignOne target value) (assignOne target' value') := by
  refine .bind htarget fun place hplace => .bind hvalue fun op hop => ?_
  cases place with
  | none =>
      exact .bind (.check (Operand.single_covers hop)) fun x hx =>
        .pure (discard_covers (show w.Covers (Operand.term x) from hx))
  | some place =>
      exact .bind (store_stays (World.covers_some.1 hplace) hop) fun i hi =>
        .pure (World.covers_cons.2 ⟨hi, World.covers_nil⟩)

/-- What an assignment gives: code, which fills its temporaries first. -/
def Assigns (w : World) (l : Level) (count : Nat) (is : List Instr) : Prop :=
  (w.push (l.temporaries count)).Covers is ∧
    Checked.requireTemporaries l count is = pure ()

/-- Code that fills temporaries first. -/
theorem assigns_cons {count : Nat} {i : Instr} {is : List Instr}
    (hi : (w.push (l.temporaries count)).Covers i) (his : (w.push (l.temporaries count)).Covers is)
    (hdepth : i.targetDepth = 0) (htargets : i.targets = (temporarySlots l count).map some) :
    Assigns w l count (i :: is) := by
  refine ⟨World.covers_cons.2 ⟨hi, his⟩, ?_⟩
  cases count with
  | zero => rfl
  | succ count =>
      have hslots : i.targets = (List.range (count + 1)).map fun k => some (l.next + k) := by
        rw [htargets, temporarySlots, List.map_map]
        rfl
      rw [Checked.requireTemporaries, Checked.requireTargets, hdepth, ← hslots]
      · simp [Checked.require]
      · simp

/-- Assigning the results of a call. -/
theorem assignResults_agrees {targets targets' : List (Compile (Option Place))}
    {value value' : Compile Operand} (htargets : List.Forall₂ (Steady w l) targets targets')
    (hvalue : Stays (w.push l) value value') :
    Agrees (w.push l) (assignResults targets value) (assignResults targets' value')
      (w.push (l.temporaries targets.length)) (Assigns w l targets.length) := by
  refine .bind hvalue fun op hop => ?_
  cases op with
  | term x =>
      dsimp only
      rw [htargets.length_eq]
      exact .fail _
  | results call types =>
      dsimp only
      rw [← htargets.length_eq]
      refine .ite (fun _ => .fail_bind _) fun hlength => ?_
      have hlength : types.length = targets.length := of_not_not hlength
      rw [← hlength]
      refine .bind (allocEach_agrees types) fun slots hslots => ?_
      have hlt : ∀ s ∈ slots, s.2 < (l.temporaries types.length).next := fun s hs =>
        lt_of_mem_temporarySlots (hslots ▸ List.mem_map_of_mem hs)
      refine .bind (assignSlots_stays (htargets.imp fun _ _ h => h _) hlt) fun is his => .pure ?_
      refine assigns_cons (World.spread_covers ?_ ?_) his rfl ?_
      · exact World.Covers.mono (a := call) hop (w.push_le (by simp))
      · intro slot hslot
        obtain ⟨s, hs, heq⟩ := List.mem_map.1 hslot
        cases heq
        exact hlt s hs
      · rw [← hslots, List.map_map]
        rfl

/-- Assigning as many values as there are targets. -/
theorem assignEach_agrees {targets targets' : List (Compile (Option Place))}
    {values values' : List (Compile Operand)}
    (htargets : List.Forall₂ (Steady w l) targets targets')
    (hvalues : List.Forall₂ (Steady w l) values values') :
    Agrees (w.push l) (assignEach targets values) (assignEach targets' values')
      (w.push (l.temporaries targets.length)) (Assigns w l targets.length) := by
  unfold assignEach
  rw [← htargets.length_eq, ← hvalues.length_eq]
  refine .ite (fun _ => .fail_bind _) fun hlength => ?_
  have hlength : targets.length = values.length := of_not_not hlength
  rw [hlength]
  refine .bind (stageEach_agrees hvalues) fun staged hstaged => ?_
  obtain ⟨hslots, hcovers⟩ := hstaged
  have hlt : ∀ s ∈ staged.map Prod.snd, s.2 < (l.temporaries values.length).next := by
    intro s hs
    obtain ⟨x, hx, rfl⟩ := List.mem_map.1 hs
    exact lt_of_mem_temporarySlots (hslots ▸ List.mem_map_of_mem (f := fun s => s.2.2) hx)
  refine .bind (assignSlots_stays (htargets.imp fun _ _ h => h _) hlt) fun is his => .pure ?_
  refine assigns_cons (World.setSlots_covers ?_ ?_) his rfl ?_
  · simpa [List.map_map, Function.comp_def] using hcovers
  · intro slot hslot
    obtain ⟨s, hs, heq⟩ := List.mem_map.1 hslot
    obtain ⟨x, hx, rfl⟩ := List.mem_map.1 hs
    cases heq
    exact lt_of_mem_temporarySlots (hslots ▸ List.mem_map_of_mem (f := fun s => s.2.2) hx)
  · rw [← hslots]
    simp [Instr.targets, List.map_map, Function.comp_def]

/-- An assignment. -/
theorem assign_agrees {targets targets' : List (Compile (Option Place))}
    {values values' : List (Compile Operand)}
    (htargets : List.Forall₂ (Steady w l) targets targets')
    (hvalues : List.Forall₂ (Steady w l) values values') :
    Agrees (w.push l) (assign targets values) (assign targets' values')
      (w.push (l.temporaries (temporaryCount targets.length values.length)))
      (Assigns w l (temporaryCount targets.length values.length)) := by
  have hmany : targets.length ≠ 1 ∨ values.length ≠ 1 →
      temporaryCount targets.length values.length = targets.length := fun h =>
    if_neg fun hboth => h.elim (· hboth.1) (· hboth.2)
  have heach := assignEach_agrees htargets hvalues
  cases hvalues with
  | nil =>
      rw [hmany (.inr (by simp))]
      cases htargets with
      | nil => exact heach
      | cons _ hrest => cases hrest <;> exact heach
  | cons hvalue hvalues =>
      cases hvalues with
      | cons _ _ =>
          rw [hmany (.inr (by simp))]
          cases htargets with
          | nil => exact heach
          | cons _ hrest => cases hrest <;> exact heach
      | nil =>
          have hresults := assignResults_agrees htargets (hvalue 0)
          cases htargets with
          | nil => exact hresults
          | cons htarget hrest =>
              cases hrest with
              | nil => exact (assignOne_stays (htarget 0) (hvalue 0)).imp fun is his => ⟨his, rfl⟩
              | cons _ _ =>
                  rw [hmany (.inl (by simp))]
                  exact hresults

/-- The place that an update needs. -/
theorem updatedPlace_stays {target target' : Compile (Option Place)} (h : Stays w target target') :
    Stays w (updatedPlace target) (updatedPlace target') := by
  refine .bind h fun place hplace => ?_
  cases place with
  | none => exact .fail _
  | some place => exact .pure (World.covers_some.1 hplace)

/-- Increment or decrement. -/
theorem step_stays {target target' : Compile (Option Place)} (h : Stays w target target')
    (increment : Bool) : Stays w (step target increment) (step target' increment) :=
  .bind (updatedPlace_stays h) fun _ hplace => .rule fun _ =>
    .bind_of (Term.fixed_covers _ _) fun _ he => Place.setOp_covers hplace _ he

/-- An operator in place. -/
theorem update_stays (op : BinaryOp) {target target' : Compile (Option Place)}
    {value value' : Compile Operand} (htarget : Stays w target target')
    (hvalue : Stays w value value') :
    Stays w (update op target value) (update op target' value') := by
  refine .bind (updatedPlace_stays htarget) fun place hplace => .bind hvalue fun v hv =>
    .rule fun t => ?_
  have hop : ∀ e : Typed, w.Covers e → Yields w.Covers (place.setOp t op e) :=
    fun e he => Place.setOp_covers hplace op he
  split
  · refine .bind_of (Q := w.Covers) ?_ hop
    rw [map_eq_pure_bind]
    exact .bind_of (Operand.valueOf_covers hv) fun r hr => .ok hr
  · exact .bind_of (Operand.valueFor_covers hv _) hop

/-! ### Declarations -/

/-- A declared name gets its slot. -/
theorem bindName_agrees (redeclare : Bool) (name : Name) (ty : Ty) :
    Agrees (w.push l) (bindName redeclare name ty) (bindName redeclare name ty)
      (w.push (l.bind redeclare name).2) fun slot => slot = (l.bind redeclare name).1 := by
  have hnew : Agrees (w.push l) (do return some (← declareLocal name ty))
      (do return some (← declareLocal name ty)) (w.push (l.declare name))
      fun slot => slot = some l.next :=
    .bind (declareLocal_agrees name ty) fun slot hslot => .pure (congrArg some hslot)
  unfold bindName Level.bind
  by_cases hblank : name = blank
  · simp only [if_pos hblank]
    exact .pure rfl
  · simp only [if_neg hblank]
    refine .get fun c hc => ?_
    rw [← hc.frame.innermost name]
    cases c.frame.findInnermost? name with
    | none => cases redeclare <;> exact hnew
    | some v =>
        cases redeclare with
        | false => exact hnew
        | true => exact .bind (S := fun _ => True) (.rule fun t _ _ => trivial) fun _ _ => .pure rfl

/-- Names that are declared for the results of a call get their slots. -/
theorem bindResults_agrees (declared : Option Ty) (redeclare : Bool) {names : List Name}
    {types : List Ty} (hlength : types.length = names.length) :
    Agrees (w.push l) (bindResults declared redeclare names types)
      (bindResults declared redeclare names types) (w.push (l.bindAll redeclare names).2)
      fun slots => slots = (l.bindAll redeclare names).1 := by
  induction names generalizing l types with
  | nil => exact .pure rfl
  | cons name names ih =>
      cases types with
      | nil => cases hlength
      | cons ty types =>
          refine .bind (S := fun _ => True) (.rule fun t _ _ => trivial) fun _ _ =>
            .bind (bindName_agrees redeclare name _) fun slot hslot =>
              .bind (ih (Nat.succ.inj hlength)) fun slots hslots => .pure ?_
          rw [hslot, hslots, Level.bindAll]

/-- Names that are declared for staged values get their slots. -/
theorem bindStaged_agrees (redeclare : Bool) {names : List Name} {staged : List (Ty × Code.Expr)}
    (hlength : staged.length = names.length) :
    Agrees (w.push l) (bindStaged redeclare names staged) (bindStaged redeclare names staged)
      (w.push (l.bindAll redeclare names).2) fun stores =>
        stores.map Prod.fst = (l.bindAll redeclare names).1 ∧
          stores.map Prod.snd = staged.map Prod.snd := by
  induction names generalizing l staged with
  | nil =>
      cases staged with
      | nil => exact .pure ⟨rfl, rfl⟩
      | cons _ _ => cases hlength
  | cons name names ih =>
      cases staged with
      | nil => cases hlength
      | cons s staged =>
          refine .bind (bindName_agrees redeclare name _) fun slot hslot =>
            .bind (ih (Nat.succ.inj hlength)) fun stores hstores => .pure ⟨?_, ?_⟩
          · rw [List.map_cons, hslot, hstores.1, Level.bindAll]
          · rw [List.map_cons, hstores.2, List.map_cons]

/-- There are as many staged values as operands. -/
theorem stageDeclared_length (t : TypeTable) (declared : Option Ty) (ops : List Operand) :
    Yields (fun es => es.length = ops.length) (stageDeclared t declared ops) := by
  induction ops with
  | nil => exact .ok rfl
  | cons op rest ih =>
      have hrest : ∀ ty, Yields (fun es => es.length = (op :: rest).length) (do
          let e ← op.valueFor t ty
          return (ty, e.expr) :: (← stageDeclared t declared rest)) := fun ty =>
        .bind fun e => .bind_of ih fun es hes => .ok (congrArg Nat.succ hes)
      cases declared with
      | none => exact .bind fun x => .bind fun ty => hrest ty
      | some ty => exact hrest ty

/-- What a declaration gives: code that fills the slots of the names. -/
def Declares (w : World) (l : Level) (redeclare : Bool) (names : List Name) (i : Instr) : Prop :=
  (w.push (l.bindAll redeclare names).2).Covers i ∧
    Checked.requireTargets i (l.bindAll redeclare names).1 = pure ()

/-- Code that fills the slots of the names. -/
theorem declares_targets {redeclare : Bool} {names : List Name} {i : Instr}
    (hi : (w.push (l.bindAll redeclare names).2).Covers i) (hdepth : i.targetDepth = 0)
    (htargets : i.targets = (l.bindAll redeclare names).1) : Declares w l redeclare names i := by
  refine ⟨hi, ?_⟩
  rw [Checked.requireTargets, hdepth, htargets]
  simp [Checked.require]

/-- Staged values are stored in the slots of the names they are declared for. -/
theorem setStaged_agrees (redeclare : Bool) {names : List Name} {staged : List (Ty × Code.Expr)}
    (hlength : staged.length = names.length) (hcovers : (w.push l).Covers (staged.map Prod.snd)) :
    Agrees (w.push l) (do return .setSlots (← bindStaged redeclare names staged))
      (do return .setSlots (← bindStaged redeclare names staged))
      (w.push (l.bindAll redeclare names).2) (Declares w l redeclare names) := by
  obtain ⟨hle, hlt⟩ := l.bindAll_lt redeclare names
  refine .bind (bindStaged_agrees redeclare hlength) fun stores hstores =>
    .pure (declares_targets (World.setSlots_covers ?_ ?_) rfl hstores.1)
  · rw [hstores.2]
    exact hcovers.mono (w.push_le hle)
  · rw [hstores.1]
    exact hlt

/-- Declaring variables with initial values. -/
theorem declareValues_agrees (names : List Name) (declared : Option Ty)
    {values values' : List (Compile Operand)} (redeclare : Bool)
    (h : List.Forall₂ (Stays (w.push l)) values values') :
    Agrees (w.push l) (declareValues names declared values redeclare)
      (declareValues names declared values' redeclare)
      (w.push (l.bindAll redeclare names).2) (Declares w l redeclare names) := by
  refine .bind (sequence_stays h) fun ops hops => ?_
  have hsingle : Agrees (w.push l) (do
      if ops.length ≠ names.length then fail (.valueCount names.length ops.length)
      let staged ← rule fun t => stageDeclared t declared ops
      return .setSlots (← bindStaged redeclare names staged)) (do
      if ops.length ≠ names.length then fail (.valueCount names.length ops.length)
      let staged ← rule fun t => stageDeclared t declared ops
      return .setSlots (← bindStaged redeclare names staged))
      (w.push (l.bindAll redeclare names).2) (Declares w l redeclare names) := by
    refine .ite (fun _ => .fail_bind _) fun hlength => ?_
    refine .bind (S := fun staged => staged.length = ops.length ∧
        (w.push l).Covers staged) (.rule fun t staged hstaged =>
      ⟨stageDeclared_length t declared ops staged hstaged,
        stageDeclared_covers declared hops staged hstaged⟩) fun staged hstaged => ?_
    refine setStaged_agrees redeclare (hstaged.1.trans (of_not_not hlength)) fun e he => ?_
    obtain ⟨s, hs, rfl⟩ := List.mem_map.1 he
    exact (hstaged.2 s hs).2
  split
  · next call types name other rest =>
      rw [World.covers_cons] at hops
      refine .ite (fun _ => .fail_bind _) fun hlength => ?_
      obtain ⟨hle, hlt⟩ := l.bindAll_lt redeclare (name :: other :: rest)
      refine .bind (bindResults_agrees declared redeclare (of_not_not hlength)) fun slots hslots =>
        .pure (declares_targets (World.spread_covers ?_ ?_) rfl hslots)
      · exact World.Covers.mono (a := call) hops.1 (w.push_le hle)
      · rw [hslots]
        exact hlt
  · exact hsingle

/-- Declaring variables that start at zero. -/
theorem declareZeros_agrees (names : List Name) (declared : Option Ty) :
    Agrees (w.push l) (declareZeros names declared) (declareZeros names declared)
      (w.push (l.bindAll false names).2) (Declares w l false names) := by
  cases declared with
  | none => exact .fail _
  | some ty =>
      refine .types fun t => setStaged_agrees false (List.length_map _) fun e he => ?_
      obtain ⟨s, hs, rfl⟩ := List.mem_map.1 he
      obtain ⟨_, -, rfl⟩ := List.mem_map.1 hs
      exact World.admits_cons.2 ⟨World.holds_zero _, World.admits_nil⟩

/-! ### Conditions and returns -/

/-- A condition. -/
theorem condition_stays {test test' : Compile Operand} (h : Stays w test test') :
    Stays w (condition test) (condition test') :=
  .bind h fun _ hop => .bind (.rule fun _ => Operand.valueOf_covers hop) fun _ hr =>
    .ite (fun _ => .pure hr) fun _ => .fail _

/-- The condition of a loop. -/
theorem condition?_stays {test test' : Option (Compile Operand)}
    (h : Option.Rel (Stays w) test test') : Stays w (condition? test) (condition? test') := by
  cases h with
  | none => exact .pure World.covers_none
  | some h => exact .map (condition_stays h) fun e he => World.covers_some.2 he

/-- Values that are returned. -/
theorem ret_covers {es : List Code.Expr} (h : w.Covers es) : w.Covers (Instr.ret es) :=
  World.admits_append.2 ⟨World.admits_partsOf.2 h, World.admits_nil⟩

/-- Slots that are loaded. -/
theorem loads_covers {slots : List Nat} (h : ∀ slot ∈ slots, slot < l.next) :
    (w.push l).Covers (loads slots) := by
  intro e he
  obtain ⟨slot, hslot, rfl⟩ := List.mem_map.1 he
  exact World.load_covers (h slot hslot)

/-- The named results of a body have slots in it. -/
theorem namedResults_covers {f : Frame} (hf : f.Fits l) {slots : List Nat}
    (hslots : f.namedResults = some slots) : (w.push l).Covers (loads slots) :=
  loads_covers fun slot hslot => l.returned slots (hf.results.symm.trans hslots ▸ rfl) slot hslot

/-- Returning nothing. -/
theorem returnNothing_stays : Stays (w.push l) returnNothing returnNothing := by
  refine .get fun c hc => ?_
  dsimp only
  split
  · next slots hslots => exact .pure (ret_covers (namedResults_covers hc.frame hslots))
  · exact .ite (fun _ => .pure (ret_covers World.covers_nil)) fun _ => .fail _

/-- Returning the results of a call. -/
theorem returnResults_stays {value value' : Compile Operand} (h : Stays w value value') :
    Stays w (returnResults value) (returnResults value') := by
  refine .get fun c hc => .bind h fun op hop => ?_
  cases op with
  | term x => exact .fail _
  | results call types =>
      refine .ite (fun _ => .fail_bind _) fun _ => ?_
      exact .bind (S := fun _ => True) (.rule fun t _ _ => trivial) fun _ _ =>
        .pure (World.admits_append.2 ⟨hop, World.admits_nil⟩)

/-- Operands as values of types. -/
theorem convertEach_stays {values values' : List (Compile Operand)}
    (h : List.Forall₂ (Stays w) values values') (types : List Ty) :
    Stays w (convertEach values types) (convertEach values' types) := by
  induction h generalizing types with
  | nil => exact .pure World.covers_nil
  | cons hvalue _ ih =>
      cases types with
      | nil => exact .pure World.covers_nil
      | cons ty types =>
          exact .bind (converted_stays hvalue ty) fun e he => .bind (ih types) fun es hes =>
            .pure (World.covers_cons.2 ⟨he, hes⟩)

/-- Returning as many values as there are results. -/
theorem returnEach_stays {values values' : List (Compile Operand)}
    (h : List.Forall₂ (Stays w) values values') :
    Stays w (returnEach values) (returnEach values') := by
  refine .get fun c hc => ?_
  rw [h.length_eq]
  exact .ite (fun _ => .fail_bind _) fun _ => .bind (convertEach_stays h _) fun es hes =>
    .pure (ret_covers hes)

/-- A return statement. -/
theorem returnStmt_stays {values values' : List (Compile Operand)}
    (h : List.Forall₂ (Stays (w.push l)) values values') :
    Stays (w.push l) (returnStmt values) (returnStmt values') := by
  have heach := returnEach_stays h
  cases h with
  | nil => exact returnNothing_stays
  | cons hvalue hrest =>
      cases hrest with
      | nil => exact .get fun c hc => .ite (fun _ => heach) fun _ => returnResults_stays hvalue
      | cons _ _ => exact heach

/-! ### The beginning and the end of a body -/

/-- A parameter or result gets the next slot. -/
theorem bindSlot_agrees (name : Option Name) (ty : Ty) :
    Agrees (w.push l) (bindSlot name ty) (bindSlot name ty) (w.push (l.bindSlot name))
      fun slot => slot = l.next := by
  cases name with
  | none => exact alloc_agrees
  | some name =>
      unfold bindSlot Level.bindSlot
      dsimp only
      by_cases hblank : name = blank
      · simp only [if_pos hblank]
        exact alloc_agrees
      · simp only [if_neg hblank]
        exact declareLocal_agrees name ty

/-- Parameters or results get the next slots. -/
theorem bindSlots_agrees (ps : List (Option Name × Ty)) :
    Agrees (w.push l) (bindSlots ps) (bindSlots ps) (w.push (l.bindSlots (ps.map Prod.fst)).2)
      fun slots => slots = (l.bindSlots (ps.map Prod.fst)).1 := by
  induction ps generalizing l with
  | nil => exact .pure rfl
  | cons p rest ih =>
      refine .bind (bindSlot_agrees p.1 p.2) fun slot hslot => .bind ih fun slots hslots =>
        .pure ?_
      rw [hslot, hslots]
      rfl

/-- Results with names get slots, which start at zero. -/
theorem bindResultSlots_agrees (rs : List (Option Name × Ty)) :
    Agrees (w.push l) (bindResultSlots rs) (bindResultSlots rs)
      (w.push (if (rs.map Prod.fst).any Option.isSome then l.nameResults (rs.map Prod.fst) else l))
      (w.push (if (rs.map Prod.fst).any Option.isSome then l.nameResults (rs.map Prod.fst)
        else l)).Covers := by
  have hany : (rs.map Prod.fst).any Option.isSome = rs.any fun r => r.1.isSome := by
    rw [List.any_map]
    rfl
  unfold bindResultSlots
  rw [hany]
  by_cases hnamed : (rs.any fun r => r.1.isSome) = true
  · simp only [if_pos hnamed]
    refine .bind (bindSlots_agrees rs) fun slots hslots => .types fun t =>
      .bind (v := w.push (l.nameResults (rs.map Prod.fst)))
        (updateFrame_agrees fun fr hfr => ⟨hfr.scope, hfr.slots, congrArg some hslots⟩)
        fun _ _ => .pure (World.covers_cons.2 ⟨World.setSlots_covers ?_ ?_, World.covers_nil⟩)
    · intro e he
      obtain ⟨s, hs, rfl⟩ := List.mem_map.1 he
      obtain ⟨p, -, rfl⟩ := List.mem_map.1 hs
      exact World.admits_cons.2 ⟨World.holds_zero _, World.admits_nil⟩
    · intro slot hslot
      obtain ⟨s, hs, heq⟩ := List.mem_map.1 hslot
      obtain ⟨p, hp, rfl⟩ := List.mem_map.1 hs
      cases heq
      exact (l.bindSlots_lt (rs.map Prod.fst)).2 _ (hslots ▸ (List.of_mem_zip hp).1)
  · simp only [if_neg hnamed]
    exact .pure World.covers_nil

/-- The names that a heading gives are those of the text. -/
structure Names (recv : Option Param) (sig : Sig) (recvType : Option (Option Name × Ty))
    (h : Heading) : Prop where
  recv : recvType.map Prod.fst = recv.map Param.name
  params : h.params.map Prod.fst = sig.params.map Param.name
  results : h.results.map Prod.fst = sig.results.map Param.name

/-- The receiver, the parameters and the results of a body get its first slots. -/
theorem enterBody_agrees {recv : Option Param} {sig : Sig} {recvType : Option (Option Name × Ty)}
    {h : Heading} (hnames : Names recv sig recvType h) :
    Agrees (w.push .empty) (enterBody recvType h) (enterBody recvType h)
      (w.push (.enter recv sig)) (w.push (.enter recv sig)).Covers := by
  have hparams : (recvType.toList ++ h.params).map Prod.fst =
      (recv.toList ++ sig.params).map Param.name := by
    have hrecv : recvType.toList.map Prod.fst = recv.toList.map Param.name := by
      rw [← Option.toList_map, hnames.recv, Option.toList_map]
    rw [List.map_append, List.map_append, hrecv, hnames.params]
  have hresults := bindResultSlots_agrees (w := w)
    (l := (Level.empty.bindSlots ((recv.toList ++ sig.params).map Param.name)).2) h.results
  rw [hnames.results] at hresults
  refine .bind (updateFrame_agrees fun fr hfr => ⟨hfr.scope, hfr.slots, hfr.results⟩) fun _ _ =>
    .bind (bindSlots_agrees _) fun slots _ => ?_
  rw [hparams]
  exact hresults

/-- The end of a body returns slots that it has. -/
theorem ending_covers {f : Frame} (hf : f.Fits l) (t : TypeTable) :
    (w.push l).Covers (endingOf t f).instr := by
  unfold endingOf
  split
  · next slots hslots => exact ret_covers (namedResults_covers hf hslots)
  · refine ret_covers fun e he => ?_
    obtain ⟨v, hv, rfl⟩ := List.mem_map.1 he
    obtain ⟨ty, -, rfl⟩ := List.mem_map.1 hv
    exact World.admits_cons.2 ⟨World.holds_zero _, World.admits_nil⟩

end Compile

end ScriptCore
