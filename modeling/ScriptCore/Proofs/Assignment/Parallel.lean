import Mathlib
import ScriptCore.Proofs.Addressing.Fits
import ScriptCore.Proofs.Assignment.Grounded
import ScriptCore.Proofs.Assignment.Staging

/-!
# Assignments of several values

An assignment of several values keeps the values in new slots and then stores them one after the
other; the operands of each target are evaluated just before its store.

It is accepted if each value could be assigned to its target alone and constants can be kept as
values of their own types.  It does what a simultaneous assignment does, provided that no operand of
a target has an effect or depends on a store before it.

Main statements: `Compile.parallel_ok` (what is compiled) and `Compile.assign_parallel`.
-/

namespace ScriptCore

namespace Compile

variable {α : Type} {c c₁ d d₁ : Compiler} {k k' : Assembly}

/-! ### Targets and values -/

/-- What a target stands for. -/
def Placed (c : Compiler) (target : Expr) (place : Option Place) : Prop :=
  ∃ d, placeOf target c = .ok (place, d)

/-- The operand of a value. -/
def Given (c : Compiler) (value : Expr) (o : Operand) : Prop :=
  ∃ d, operand value c = .ok (o, d)

/-- Code for a value and its type, as it is kept in a slot. -/
def Valued (c : Compiler) (value : Expr) (e : Code.Expr × Ty) : Prop :=
  ∃ o te, Given c value o ∧ o.valueOf c.types = .ok (te, e.2) ∧ te.expr = e.1

/-- A constant value can be kept as a value of its own type, and its type can be assigned to the
target's. -/
def Keepable (c : Compiler) (target value : Expr) : Prop :=
  ∀ place o, Placed c target place → Given c value o → o.Keepable c.types place

/-- What an assignment of several values stands for: the places, and code for the values with their
types, which can be stored there. -/
structure Staged (c : Compiler) (targets values : List Expr) (places : List (Option Place))
    (staged : List (Code.Expr × Ty)) : Prop where
  placed : List.Forall₂ (Placed c) targets places
  valued : List.Forall₂ (Valued c) values staged
  accepted : List.Forall₂ (fun place e => Place.Admits c.types place e.2) places staged

/-- A target stands for one place. -/
theorem Placed.unique {target : Expr} {p q : Option Place} (hp : Placed c target p)
    (hq : Placed c target q) : p = q := by
  obtain ⟨d, hd⟩ := hp
  obtain ⟨d', hd'⟩ := hq
  rw [hd] at hd'
  cases hd'
  rfl

/-- A value has one operand. -/
theorem Given.unique {value : Expr} {o u : Operand} (ho : Given c value o)
    (hu : Given c value u) : o = u := by
  obtain ⟨d, hd⟩ := ho
  obtain ⟨d', hd'⟩ := hu
  rw [hd] at hd'
  cases hd'
  rfl

/-- The code for a value is one. -/
theorem Valued.unique {value : Expr} {e e' : Code.Expr × Ty} (he : Valued c value e)
    (he' : Valued c value e') : e = e' := by
  obtain ⟨o, te, ho, hvalue, hexpr⟩ := he
  obtain ⟨o', te', ho', hvalue', hexpr'⟩ := he'
  obtain rfl := ho.unique ho'
  rw [hvalue] at hvalue'
  obtain ⟨rfl, hty⟩ := Prod.mk.inj (Except.ok.inj hvalue')
  exact Prod.ext (hexpr.symm.trans hexpr') hty

/-- An assignment of several values stands for one list of places and one list of values. -/
theorem Staged.unique {targets values : List Expr} {places places' : List (Option Place)}
    {staged staged' : List (Code.Expr × Ty)} (h : Staged c targets values places staged)
    (h' : Staged c targets values places' staged') : places = places' ∧ staged = staged' := by
  have hplaced : Relator.RightUnique (Placed c) := fun _ _ _ hp hq => hp.unique hq
  have hvalued : Relator.RightUnique (Valued c) := fun _ _ _ he he' => he.unique he'
  exact ⟨hplaced.forall₂ h.placed h'.placed, hvalued.forall₂ h.valued h'.valued⟩

/-! ### Steps in states that are alike -/

/-- A step that is compiled in one of two states is compiled in the other. -/
theorem Stable.given_iff {p : Compile α} (h : Stable false p) (hlike : c.Like false c₁) {a : α} :
    (∃ d, p c = .ok (a, d)) ↔ ∃ d, p c₁ = .ok (a, d) := by
  constructor
  · rintro ⟨d, hd⟩
    obtain ⟨-, d', hd', -⟩ := h c c₁ a d hlike hd
    exact ⟨d', hd'⟩
  · rintro ⟨d, hd⟩
    obtain ⟨-, d', hd', -⟩ := h c₁ c a d hlike.symm hd
    exact ⟨d', hd'⟩

/-- A step leaves a state that is like the others, and the body as it is. -/
theorem Stable.next {p : Compile α} (h : Stable false p) (hlike : c.Like false c₁) {a : α}
    (hp : p c₁ = .ok (a, d₁)) : c.Like false d₁ ∧ d₁.frame = c₁.frame := by
  obtain ⟨hrest, hsettled⟩ := h.types_only hlike.settled' hp
  have hkept := (h c₁ c₁ a d₁ (.refl hlike.settled') hp).1
  exact ⟨hlike.trans (hkept.like hlike.settled' hsettled), by rw [hrest]⟩

/-- A new slot makes no difference. -/
theorem Like.alloc (hlike : c.Like false c₁) :
    c.Like false { c₁ with frame := { c₁.frame with slots := c₁.frame.slots + 1 } } :=
  hlike.trans ⟨rfl, .refl _, hlike.settled', hlike.settled'⟩

/-- What a target stands for in one of two states, it stands for in the other. -/
theorem placed_iff (hlike : c.Like false c₁) {target : Expr} {place : Option Place} :
    Placed c target place ↔ ∃ d, placeOf target c₁ = .ok (place, d) :=
  (placeOf_stable target false).given_iff hlike

/-- The operand of a value is the same in both states. -/
theorem given_iff (hlike : c.Like false c₁) {value : Expr} {o : Operand} :
    Given c value o ↔ ∃ d, operand value c₁ = .ok (o, d) :=
  (operand_stable value false).given_iff hlike

/-- The value of an operand is the same in both states. -/
theorem valueOf_like (hlike : c.Like false c₁) (o : Operand) :
    o.valueOf c₁.types = o.valueOf c.types :=
  hlike.types.symm.same fun _ _ _ _ _ => rfl

/-- Assigning one operand to one place. -/
theorem storeOne_ok {place : Option Place} {o : Operand} :
    (∃ is d, (match place with
      | some place => do return [← store place o]
      | none => do return discard (.term (← check o.single)) : Compile (List Code.Instr)) c₁ =
        .ok (is, d)) ↔ o.Stores c₁.types place := by
  cases place with
  | none =>
      constructor
      · rintro ⟨is, d, h⟩
        obtain ⟨x, c₂, hx, -⟩ := bind_ok.1 h
        exact ⟨x, (check_ok.1 hx).1⟩
      · rintro ⟨x, hx⟩
        exact ⟨_, _, bind_ok.2 ⟨x, c₁, check_ok.2 ⟨hx, rfl⟩, rfl⟩⟩
  | some p =>
      constructor
      · rintro ⟨is, d, h⟩
        obtain ⟨i, c₂, hi, -⟩ := bind_ok.1 h
        exact ⟨i, (rule_ok.1 hi).1⟩
      · rintro ⟨i, hi⟩
        exact ⟨_, _, bind_ok.2 ⟨i, c₁, rule_ok.2 ⟨hi, rfl⟩, rfl⟩⟩

/-- **A single assignment** is accepted if the operand can be assigned to the place. -/
theorem single_accepts (hs : c.types.Settled) {target value : Expr} :
    Accepts (.assign [target] [value]) k c ↔
      ∃ place o, Placed c target place ∧ Given c value o ∧ o.Stores c.types place := by
  have hstores {c₂ : Compiler} (hlike : c.Like false c₂) (place : Option Place) (o : Operand) :
      o.Stores c₂.types place ↔ o.Stores c.types place := by
    unfold Operand.Stores
    rw [hlike.types.set]
  constructor
  · rintro ⟨⟨⟨⟨⟩, k'⟩, d⟩, h⟩
    obtain ⟨is, h, -⟩ := all_ok.1 h
    obtain ⟨place, c₁, hplace, h⟩ := bind_ok.1 h
    obtain ⟨o, c₂, ho, h⟩ := bind_ok.1 h
    have hlike₁ := ((placeOf_stable target false).next (.refl hs) hplace).1
    have hlike₂ := ((operand_stable value false).next hlike₁ ho).1
    refine ⟨place, o, ⟨c₁, hplace⟩, (given_iff hlike₁).2 ⟨c₂, ho⟩, ?_⟩
    exact (hstores hlike₂ place o).1 (storeOne_ok.1 ⟨is, d, h⟩)
  · rintro ⟨place, o, ⟨c₁, hplace⟩, ho, h⟩
    have hlike₁ := ((placeOf_stable target false).next (.refl hs) hplace).1
    obtain ⟨c₂, ho⟩ := (given_iff hlike₁).1 ho
    have hlike₂ := ((operand_stable value false).next hlike₁ ho).1
    obtain ⟨is, d, h⟩ := storeOne_ok.2 ((hstores hlike₂ place o).2 h)
    exact ⟨_, all_ok.2 ⟨is, bind_ok.2 ⟨place, c₁, hplace, bind_ok.2 ⟨o, c₂, ho, h⟩⟩, rfl⟩⟩

/-! ### Code for several values -/

/-- Code for values with their types, and the slots in which they are kept. -/
def kept (first : Nat) (staged : List (Code.Expr × Ty)) : List (Code.Expr × Ty × Nat) :=
  (staged.zipIdx first).map fun s => (s.1.1, s.1.2, s.2)

/-- **Values are kept in the next slots**, each with its own type. -/
theorem stageEach_ok {values : List Expr} {st : List (Code.Expr × Ty × Nat)}
    (hlike : c.Like false c₁) (h : stageEach (operands values) c₁ = .ok (st, d)) :
    ∃ staged, List.Forall₂ (Valued c) values staged ∧ st = kept c₁.frame.slots staged ∧
      c.Like false d := by
  induction values generalizing c₁ st with
  | nil =>
      cases h
      exact ⟨[], .nil, rfl, hlike⟩
  | cons value values ih =>
      obtain ⟨o, c₂, ho, h⟩ := bind_ok.1 h
      obtain ⟨⟨e, ty⟩, c₃, hvalue, h⟩ := bind_ok.1 h
      obtain ⟨he, rfl⟩ := rule_ok.1 hvalue
      obtain ⟨slot, c₄, hslot, hnext⟩ := bind_ok.1 h
      cases hslot
      obtain ⟨rest, c₅, hrest, hlast⟩ := bind_ok.1 hnext
      cases hlast
      obtain ⟨hlike₂, hframe⟩ := (operand_stable value false).next hlike ho
      obtain ⟨staged, hstaged, rfl, hlike₅⟩ := ih (Like.alloc hlike₂) hrest
      rw [valueOf_like hlike₂] at he
      refine ⟨(e.expr, ty) :: staged, .cons ?_ hstaged, ?_, hlike₅⟩
      · exact ⟨o, e, (given_iff hlike).2 ⟨c₂, ho⟩, he, rfl⟩
      · rw [← hframe]
        rfl

/-- Values that have types of their own can be kept. -/
theorem stageEach_of_valued {values : List Expr} {staged : List (Code.Expr × Ty)}
    (hlike : c.Like false c₁) (h : List.Forall₂ (Valued c) values staged) :
    ∃ d, stageEach (operands values) c₁ = .ok (kept c₁.frame.slots staged, d) := by
  induction h generalizing c₁ with
  | nil => exact ⟨c₁, rfl⟩
  | @cons value e values staged hvalue _ ih =>
      obtain ⟨o, te, ho, he, hexpr⟩ := hvalue
      obtain ⟨c₂, ho⟩ := (given_iff hlike).1 ho
      obtain ⟨hlike₂, hframe⟩ := (operand_stable value false).next hlike ho
      rw [← valueOf_like hlike₂] at he
      obtain ⟨d, hd⟩ := ih (Like.alloc hlike₂)
      refine ⟨d, bind_ok.2 ⟨o, c₂, ho, bind_ok.2 ⟨(te, e.2), c₂, rule_ok.2 ⟨he, rfl⟩, ?_⟩⟩⟩
      refine bind_ok.2 ⟨c₂.frame.slots, _, rfl, bind_ok.2 ⟨_, d, hd, ?_⟩⟩
      rw [hexpr, hframe]
      rfl

/-- A store from a slot. -/
theorem assignSlot_ok (hlike : c.Like false c₁) {target : Expr} {ty : Ty} {slot : Nat}
    {is : List Code.Instr} : assignSlot (placeOf target) ty slot c₁ = .ok (is, d) ↔
      ∃ place, placeOf target c₁ = .ok (place, d) ∧ Place.Admits c.types place ty ∧
        is = storesFrom c.types [place] [(ty, slot)] := by
  have hset {c₂ : Compiler} (hlike₂ : c.Like false c₂) (p : Place) :
      p.set c₂.types (.term (.ofExpr c₂.types (.load 0 slot) ty)) =
        p.set c.types (.term (.ofExpr c.types (.load 0 slot) ty)) := by
    have hexpr : Term.ofExpr c₂.types (.load 0 slot) ty = Term.ofExpr c.types (.load 0 slot) ty :=
      hlike₂.types.symm.same fun _ _ _ _ _ => rfl
    rw [hlike₂.types.set, hexpr]
  constructor
  · intro h
    obtain ⟨place, c₂, hplace, h⟩ := bind_ok.1 h
    cases place with
    | none =>
        cases h
        refine ⟨none, hplace, fun p hp => ?_, rfl⟩
        cases hp
    | some p =>
        have hlike₂ := ((placeOf_stable target false).next hlike hplace).1
        obtain ⟨t, c₃, ht, hnext⟩ := bind_ok.1 h
        cases ht
        obtain ⟨i, c₄, hstore, hlast⟩ := bind_ok.1 hnext
        cases hlast
        obtain ⟨hi, rfl⟩ := rule_ok.1 hstore
        rw [hset hlike₂, Place.set_slot] at hi
        obtain ⟨haccepts, rfl⟩ := hi
        refine ⟨some p, hplace, fun q hq => ?_, rfl⟩
        cases hq
        exact haccepts
  · rintro ⟨place, hplace, haccepts, rfl⟩
    refine bind_ok.2 ⟨place, d, hplace, ?_⟩
    cases place with
    | none => rfl
    | some p =>
        have hlike₂ := ((placeOf_stable target false).next hlike hplace).1
        have hi := (hset hlike₂ p).trans (Place.set_slot.2 ⟨haccepts p rfl, rfl⟩)
        exact bind_ok.2 ⟨d.types, d, rfl, bind_ok.2 ⟨_, d, rule_ok.2 ⟨hi, rfl⟩, rfl⟩⟩

/-- One store and the stores after it. -/
theorem storesFrom_cons (t : TypeTable) (place : Option Place) (places : List (Option Place))
    (s : Ty × Nat) (slots : List (Ty × Nat)) :
    storesFrom t (place :: places) (s :: slots) =
      storesFrom t [place] [s] ++ storesFrom t places slots := by
  cases place <;> rfl

/-- **Values are stored from their slots**, from left to right. -/
theorem assignSlots_ok {targets : List Expr} {slots : List (Ty × Nat)} {is : List Code.Instr}
    (hlike : c.Like false c₁) (hlength : targets.length = slots.length)
    (h : assignSlots (placesOf targets) slots c₁ = .ok (is, d)) :
    ∃ places, List.Forall₂ (Placed c) targets places ∧
      List.Forall₂ (fun place s => Place.Admits c.types place s.1) places slots ∧
      is = storesFrom c.types places slots := by
  induction targets generalizing c₁ slots is with
  | nil =>
      obtain rfl := List.length_eq_zero_iff.1 hlength.symm
      cases h
      exact ⟨[], .nil, .nil, rfl⟩
  | cons target targets ih =>
      cases slots with
      | nil => cases hlength
      | cons s slots =>
          obtain ⟨first, c₂, hfirst, h⟩ := bind_ok.1 h
          obtain ⟨rest, c₃, hrest, hlast⟩ := bind_ok.1 h
          cases hlast
          obtain ⟨place, hplace, haccepts, rfl⟩ := (assignSlot_ok hlike).1 hfirst
          have hlike₂ := ((placeOf_stable target false).next hlike hplace).1
          obtain ⟨places, hplaces, haccepted, rfl⟩ := ih hlike₂ (Nat.succ.inj hlength) hrest
          refine ⟨place :: places, .cons ?_ hplaces, .cons haccepts haccepted, ?_⟩
          · exact (placed_iff hlike).2 ⟨c₂, hplace⟩
          · exact (storesFrom_cons c.types place places s slots).symm

/-- Values that their places accept can be stored from slots. -/
theorem assignSlots_of_placed {targets : List Expr} {places : List (Option Place)}
    {slots : List (Ty × Nat)} (hlike : c.Like false c₁)
    (hplaces : List.Forall₂ (Placed c) targets places)
    (haccepted : List.Forall₂ (fun place s => Place.Admits c.types place s.1) places slots) :
    ∃ d, assignSlots (placesOf targets) slots c₁ = .ok (storesFrom c.types places slots, d) := by
  induction hplaces generalizing c₁ slots with
  | nil =>
      cases haccepted
      exact ⟨c₁, rfl⟩
  | @cons target place targets places hplace _ ih =>
      cases haccepted with
      | @cons _ s _ slots haccepts haccepted =>
          obtain ⟨c₂, hplace⟩ := (placed_iff hlike).1 hplace
          have hlike₂ := ((placeOf_stable target false).next hlike hplace).1
          have hfirst : assignSlot (placeOf target) s.1 s.2 c₁ =
              .ok (storesFrom c.types [place] [s], c₂) :=
            (assignSlot_ok hlike).2 ⟨place, hplace, haccepts, rfl⟩
          obtain ⟨d, hrest⟩ := ih hlike₂ haccepted
          rw [storesFrom_cons]
          exact ⟨d, bind_ok.2 ⟨_, c₂, hfirst, bind_ok.2 ⟨_, d, hrest, rfl⟩⟩⟩

/-- Values that are kept are stored from their slots in the order in which they are kept. -/
theorem kept_slots (first : Nat) (staged : List (Code.Expr × Ty)) :
    (kept first staged).map Prod.snd = (staged.map Prod.snd).zipIdx first := by
  rw [kept, List.map_map, List.zipIdx_map]
  rfl

/-- The code that keeps values. -/
theorem kept_code (first : Nat) (staged : List (Code.Expr × Ty)) :
    .setSlots ((kept first staged).map fun s => (some s.2.2, s.1)) = keeping first staged := by
  rw [kept, List.map_map]
  rfl

/-- Code for an assignment of several values. -/
def parallelCode (t : TypeTable) (first : Nat) (places : List (Option Place))
    (staged : List (Code.Expr × Ty)) : List Code.Instr :=
  keeping first staged :: storesFrom t places ((staged.map Prod.snd).zipIdx first)

/-- Values with the slots in which they are kept are accepted where the values are. -/
theorem accepted_slots {places : List (Option Place)} {staged : List (Code.Expr × Ty)}
    (first : Nat) :
    List.Forall₂ (fun place s => Place.Admits c.types place s.1) places
        ((staged.map Prod.snd).zipIdx first) ↔
      List.Forall₂ (fun place e => Place.Admits c.types place e.2) places staged := by
  have hslots : ((staged.map Prod.snd).zipIdx first).map Prod.fst = staged.map Prod.snd :=
    List.zipIdx_map_fst _ _
  have htypes {β : Type} (f : β → Ty) (es : List β) :
      List.Forall₂ (fun place e => Place.Admits c.types place (f e)) places es ↔
        List.Forall₂ (Place.Admits c.types) places (es.map f) :=
    List.forall₂_map_right_iff.symm
  rw [htypes Prod.fst, htypes Prod.snd, hslots]

/-- Lists of two or more elements are assigned one by one. -/
theorem assign_each {targets : List (Compile (Option Place))} {values : List (Compile Operand)}
    (htwo : 2 ≤ values.length) : assign targets values = assignEach targets values := by
  match targets, values, htwo with
  | [], _ :: _ :: _, _ | [_], _ :: _ :: _, _ | _ :: _ :: _, _ :: _ :: _, _ => rfl

/-- **An assignment of several values** keeps the values in the next slots and stores them from
there. -/
theorem parallel_ok (hs : c.types.Settled) {targets values : List Expr}
    (htwo : 2 ≤ values.length)
    (h : statementOf (.assign targets values) k c = .ok (((), k'), d)) :
    ∃ places staged, Staged c targets values places staged ∧
      k' = k.pushAll (parallelCode c.types c.frame.slots places staged) := by
  obtain ⟨is, hassign, rfl⟩ := all_ok.1 h
  rw [assign_each (by rwa [operands_length]), assignEach, placesOf_length, operands_length]
    at hassign
  by_cases hlength : targets.length = values.length
  case neg =>
    rw [if_pos hlength] at hassign
    cases hassign
  case pos =>
    rw [if_neg (not_not.2 hlength)] at hassign
    obtain ⟨st, c₁, hkept, h⟩ := bind_ok.1 hassign
    obtain ⟨stores, c₂, hstores, hlast⟩ := bind_ok.1 h
    cases hlast
    obtain ⟨staged, hstaged, rfl, hlike⟩ := stageEach_ok (.refl hs) hkept
    rw [kept_slots] at hstores
    have hcount : targets.length = ((staged.map Prod.snd).zipIdx c.frame.slots).length := by
      rw [List.length_zipIdx, List.length_map, ← hstaged.length_eq, hlength]
    obtain ⟨places, hplaces, haccepted, rfl⟩ := assignSlots_ok hlike hcount hstores
    refine ⟨places, staged, ⟨hplaces, hstaged, (accepted_slots _).1 haccepted⟩, ?_⟩
    rw [kept_code, parallelCode]

/-- Such an assignment is accepted where the places accept the values. -/
theorem parallel_of_staged (hs : c.types.Settled) {targets values : List Expr}
    {places : List (Option Place)} {staged : List (Code.Expr × Ty)} (htwo : 2 ≤ values.length)
    (h : Staged c targets values places staged) : Accepts (.assign targets values) k c := by
  obtain ⟨c₁, hkept⟩ := stageEach_of_valued (.refl hs) h.valued
  obtain ⟨_, _, _, hlike⟩ := stageEach_ok (.refl hs) hkept
  obtain ⟨d, hstores⟩ := assignSlots_of_placed hlike h.placed
    ((accepted_slots c.frame.slots).2 h.accepted)
  have hlength : targets.length = values.length := by
    rw [h.placed.length_eq, h.accepted.length_eq, h.valued.length_eq]
  rw [← kept_slots] at hstores
  have hassign : ∃ is, assign (placesOf targets) (operands values) c = .ok (is, d) := by
    rw [assign_each (by rwa [operands_length]), assignEach, placesOf_length, operands_length,
      if_neg (not_not.2 hlength)]
    exact ⟨_, bind_ok.2 ⟨_, c₁, hkept, bind_ok.2 ⟨_, d, hstores, rfl⟩⟩⟩
  obtain ⟨is, hassign⟩ := hassign
  exact ⟨_, all_ok.2 ⟨is, hassign, rfl⟩⟩

/-- Places and code for the values are found pair by pair. -/
theorem staged_iff {targets values : List Expr} :
    (∃ places staged, Staged c targets values places staged) ↔
      List.Forall₂ (fun target value => ∃ place o, Placed c target place ∧ Given c value o ∧
        o.Stages c.types place) targets values := by
  constructor
  · rintro ⟨places, staged, hplaced, hvalued, haccepted⟩
    induction hplaced generalizing values staged with
    | nil =>
        cases haccepted
        cases hvalued
        exact .nil
    | cons hplace _ ih =>
        cases haccepted with
        | cons haccepts haccepted =>
            cases hvalued with
            | cons hvalue hvalued =>
                obtain ⟨o, te, ho, he, -⟩ := hvalue
                exact .cons ⟨_, o, hplace, ho, te, _, he, haccepts⟩ (ih _ hvalued haccepted)
  · intro h
    induction h with
    | nil => exact ⟨[], [], .nil, .nil, .nil⟩
    | cons hpair _ ih =>
        obtain ⟨place, o, hplace, ho, te, ty, he, haccepts⟩ := hpair
        obtain ⟨places, staged, hplaced, hvalued, haccepted⟩ := ih
        refine ⟨place :: places, (te.expr, ty) :: staged, .cons hplace hplaced, ?_,
          .cons haccepts haccepted⟩
        exact .cons ⟨o, te, ho, he, rfl⟩ hvalued

/-- A value can be staged for a target if it can be assigned to it alone and, if it is a constant,
be kept. -/
theorem pair_iff (hs : c.types.Settled) (hhosts : HostsAreFunctions c) {target value : Expr} :
    (∃ place o, Placed c target place ∧ Given c value o ∧ o.Stages c.types place) ↔
      Accepts (.assign [target] [value]) k c ∧ Keepable c target value := by
  have hclassified {o : Operand} (ho : Given c value o) : o.Classified c.types := by
    obtain ⟨d, hd⟩ := ho
    exact operand_classified c.types value c o d hs (.refl _) hhosts hd
  rw [single_accepts hs]
  constructor
  · rintro ⟨place, o, hplace, ho, hstages⟩
    obtain ⟨hstores, hkeep⟩ := (Operand.stages_iff (hclassified ho)).1 hstages
    refine ⟨⟨place, o, hplace, ho, hstores⟩, fun place' o' hplace' ho' => ?_⟩
    obtain rfl := hplace.unique hplace'
    obtain rfl := ho.unique ho'
    exact hkeep
  · rintro ⟨⟨place, o, hplace, ho, hstores⟩, hkeep⟩
    refine ⟨place, o, hplace, ho, (Operand.stages_iff (hclassified ho)).2 ⟨hstores, ?_⟩⟩
    exact hkeep place o hplace ho

/-! ### New slots -/

/-- A variable of the current body has one of its slots. -/
theorem Fits.slot_lt {w : World} (h : c.Fits w) {name : Name} {slot : Nat} {ty : Ty}
    (hm : c.resolve name = some (.var 0 slot ty)) : slot < c.frame.slots := by
  obtain ⟨hwithin, -⟩ := h.resolve hm
  obtain ⟨n, hn, hlt⟩ := (World.admits_cons.1 hwithin).1.within
  obtain ⟨l, bodies, hframe, -, hbodies⟩ := List.forall₂_cons_left_iff.1 h.frames
  rw [World.shape, hbodies] at hn
  cases hn
  rw [hframe.slots]
  exact hlt

/-- Stores in elements change the heap. -/
theorem elementPlace_region {t : TypeTable} {e : Code.Typed} {ty : Ty} {key : Operand} {p : Place}
    (h : elementPlace t e ty key = .ok p) : p.container.region = .heap := by
  unfold elementPlace at h
  split at h
  · obtain ⟨k, hk, h⟩ := rules_ok h
    cases h
    rfl
  · split at h
    · obtain ⟨i, hi, h⟩ := rules_ok h
      cases h
      rfl
    · cases h
  · cases h

/-- A store in a field changes what a store in the struct does. -/
theorem fieldPlace_region {t : TypeTable} {base p : Place} {name : Name}
    (h : fieldPlace t base name = .ok p) : p.container.region = base.container.region := by
  unfold fieldPlace at h
  split at h <;> cases h
  rfl

/-- **No target stands for a slot that is new.** -/
theorem placed_slot {w : World} (h : c.Fits w) : ∀ (target : Expr) {p : Place} {slot : Nat},
    Placed c target (some p) → p.container.region = .slot 0 slot → slot < c.frame.slots
  | .node span (.ident name), p, slot, hp, hregion => by
      obtain ⟨d, hp⟩ := hp
      simp only [placeOf, at'_ok, namedPlace] at hp
      split at hp
      · cases hp
      · obtain ⟨m, c₁, hm, hp⟩ := bind_ok.1 hp
        cases m with
        | var depth s ty =>
            cases hp
            cases hregion
            exact Fits.slot_lt h (resolve_ok.1 hm).1
        | _ => cases hp
  | .node span (.paren e), p, slot, hp, hregion => by
      obtain ⟨d, hp⟩ := hp
      simp only [placeOf, at'_ok] at hp
      exact placed_slot h e ⟨d, hp⟩ hregion
  | .node span (.index container key), p, slot, hp, hregion => by
      obtain ⟨d, hp⟩ := hp
      simp only [placeOf, at'_ok, indexPlace, bind_ok, rule_ok, pure_ok] at hp
      obtain ⟨_, _, _, _, _, _, _, _, _, p', _, ⟨hplace, rfl⟩, hp', rfl⟩ := hp
      obtain rfl := Option.some.inj hp'
      rw [elementPlace_region hplace] at hregion
      cases hregion
  | .node span (.selector base field), p, slot, hp, hregion => by
      obtain ⟨d, hp⟩ := hp
      simp only [placeOf, at'_ok, selectorPlace] at hp
      obtain ⟨b, c₁, hb, hp⟩ := bind_ok.1 hp
      cases b with
      | none => cases hp
      | some b =>
          simp only [bind_ok, rule_ok, pure_ok] at hp
          obtain ⟨p', _, ⟨hfield, rfl⟩, hp', rfl⟩ := hp
          obtain rfl := Option.some.inj hp'
          rw [fieldPlace_region hfield] at hregion
          exact placed_slot h base ⟨_, hb⟩ hregion
  | .node span .nil, _, _, hp, _ | .node span (.bool _), _, _, hp, _
  | .node span (.int _), _, _, hp, _ | .node span (.float _), _, _, hp, _
  | .node span (.imag _), _, _, hp, _ | .node span (.str _), _, _, hp, _
  | .node span (.unary _ _), _, _, hp, _ | .node span (.binary _ _ _), _, _, hp, _
  | .node span (.call _ _), _, _, hp, _ | .node span (.composite _ _), _, _, hp, _
  | .node span (.funcLit _ _), _, _, hp, _ | .node span (.type _), _, _, hp, _ => by
      obtain ⟨d, hp⟩ := hp
      simp only [placeOf] at hp
      cases hp

/-- None of several targets does. -/
theorem placed_slots {w : World} (h : c.Fits w) {targets : List Expr} {places : List (Option Place)}
    (hplaced : List.Forall₂ (Placed c) targets places) {p : Place} (hp : some p ∈ places)
    {slot : Nat} (hregion : p.container.region = .slot 0 slot) : slot < c.frame.slots := by
  induction hplaced with
  | nil => cases hp
  | cons hplace _ ih =>
      cases hp with
      | head => exact placed_slot h _ hplace hregion
      | tail _ hp => exact ih hp

/-! ### Simultaneous assignment -/

/-- **An assignment of several values** is accepted if and only if each value can be assigned to its
target alone and constants can be kept as values of their own types.  It ends as the simultaneous
assignment does, if the targets are independent of each other and their locations are found. -/
theorem assign_parallel {w : World} (hc : c.Grounded) (hfits : c.Fits w)
    {targets values : List Expr} (hlength : targets.length = values.length)
    (htwo : 2 ≤ values.length) (k : Assembly) :
    (Accepts (.assign targets values) k c ↔ ∀ a ∈ targets.zip values,
      Accepts (.assign [a.1] [a.2]) k c ∧ Keepable c a.1 a.2) ∧
    ∀ k' d, statementOf (.assign targets values) k c = .ok (((), k'), d) →
      ∃ places staged is, Staged c targets values places staged ∧ k' = k.pushAll is ∧
        (Place.independent [] places = true → ∀ x r m,
          (∀ vs m₀, keepEach x r c.frame.slots (staged.map Prod.fst) m = .ok vs m₀ →
            Ready x r places m₀) →
          (actAll x r is m).EndsAs
            (assignTogether c.types x r c.frame.slots staged places m)) := by
  constructor
  · calc Accepts (.assign targets values) k c
        ↔ ∃ places staged, Staged c targets values places staged := by
          constructor
          · rintro ⟨⟨⟨⟨⟩, k'⟩, d⟩, h⟩
            obtain ⟨places, staged, hstaged, -⟩ := parallel_ok hc.settled htwo h
            exact ⟨places, staged, hstaged⟩
          · rintro ⟨places, staged, hstaged⟩
            exact parallel_of_staged hc.settled htwo hstaged
      _ ↔ List.Forall₂ (fun target value =>
            Accepts (.assign [target] [value]) k c ∧ Keepable c target value) targets values := by
          simp only [staged_iff, pair_iff (k := k) hc.settled hc.hostsAreFunctions]
      _ ↔ _ := by
          rw [List.forall₂_iff_zip]
          exact ⟨fun h a ha => h.2 ha, fun h => ⟨hlength, fun ha => h _ ha⟩⟩
  · intro k' d h
    obtain ⟨places, staged, hstaged, rfl⟩ := parallel_ok hc.settled htwo h
    refine ⟨places, staged, _, hstaged, rfl, fun hindependent x r m hready => ?_⟩
    refine assign_ends hindependent (fun p hp slot hslot hregion => ?_) hready
    exact Nat.not_lt_of_le hslot (placed_slots hfits hstaged.placed hp hregion)

/-! ### A slice, an index and a number -/

namespace Parallel

/-- A body with a slice of numbers `s`, a number `z` and a byte `b`. -/
def body : Compiler :=
  { Compiler.start .empty ⟨[], [], 0⟩ false with
    frame := ⟨[[("s", ⟨0, .slice (.basic .int)⟩), ("z", ⟨1, .basic .int⟩),
      ("b", ⟨2, .basic .uint8⟩)]], 3, [], none⟩ }

/-- What the text says about the body. -/
def level : Level where
  blocks := [[("s", 0), ("z", 1), ("b", 2)]]
  declared := [(some "s", 0), (some "z", 1), (some "b", 2)]
  results := none
  numbered := rfl
  named := by simp
  returned := by simp

/-- There is nothing but the body. -/
def world : World :=
  ⟨[level], 0, fun _ => False, fun _ => False⟩

/-- The expression `z`. -/
def number : Expr :=
  .node .none (.ident "z")

/-- The expression `b`. -/
def byte : Expr :=
  .node .none (.ident "b")

/-- The expression `s[i]`. -/
def element (i : Expr) : Expr :=
  .node .none (.index (.node .none (.ident "s")) i)

/-- A constant. -/
def constant (n : Int) : Expr :=
  .node .none (.int n)

/-- The place of `s[i]`. -/
def elementAt (i : Code.Expr) : Place :=
  ⟨.slice (.load 0 0), some i, .basic .int⟩

/-- Nothing can be called. -/
def context : Context :=
  ⟨.empty, fun _ _ => Run.fail .nilFuncCall⟩

/-- A state with the elements of `s`, the number `z` and values that are kept. -/
def state (elements : List Int64) (z : Int64) (kept : List Int64) : Machine :=
  { Machine.start #[] (Value.slice ⟨0, 0, 2, 2⟩ :: .int z :: .uint 0 :: kept.map .int).toArray with
    heap := ⟨#[(elements.map Value.int).toArray], #[]⟩ }

/-- The body fits its text. -/
theorem body_fits : body.Fits world where
  frames := .cons ⟨rfl, rfl, rfl⟩ .nil
  globals := rfl
  names := nofun
  methods := nofun
  hosts := ⟨nofun, nofun⟩

/-- There are no types and no host functions. -/
theorem body_grounded : body.Grounded :=
  ⟨nofun, nofun, nofun, nofun⟩

/-- Numbers can be stored in a place of their type. -/
theorem admits_int {p : Place} (hp : p.type = .basic .int) :
    Place.Admits body.types (some p) (.basic .int) := by
  rintro _ ⟨⟩
  exact ⟨by rw [hp]; cbv, by rw [hp]; rfl⟩

/-- The places of `s[0]` and `z`. -/
def swapped : List (Option Place) :=
  [some (elementAt (.const (.int 0))), some (.var 0 1 (.basic .int))]

/-- Code for `z` and `s[0]`. -/
def swapping : List (Code.Expr × Ty) :=
  [(.expect .int (.load 0 1), .basic .int),
    (.expect .int (.sliceGet (.load 0 0) (.const (.int 0))), .basic .int)]

/-- The swap `s[0], z = z, s[0]` stands for these. -/
theorem swap_staged :
    Staged body [element (constant 0), number] [number, element (constant 0)] swapped swapping := by
  have hnumber : Given body number (.term (.code ⟨.int, .expect .int (.load 0 1)⟩ (.basic .int))) :=
    ⟨body, by cbv⟩
  have helement : Given body (element (constant 0)) (.term (.code
      ⟨.int, .expect .int (.sliceGet (.load 0 0) (.const (.int 0)))⟩ (.basic .int))) :=
    ⟨body, by cbv⟩
  exact ⟨.cons ⟨body, by cbv⟩ (.cons ⟨body, by cbv⟩ .nil),
    .cons ⟨_, _, hnumber, rfl, rfl⟩ (.cons ⟨_, _, helement, rfl, rfl⟩ .nil),
    .cons (admits_int rfl) (.cons (admits_int rfl) .nil)⟩

/-- Once the values are kept, the locations are found. -/
theorem swap_ready (vs : List Value) (m₀ : Machine)
    (h : keepEach context 0 3 (swapping.map Prod.fst) (state [7, 8] 0 []) = .ok vs m₀) :
    Ready context 0 swapped m₀ := by
  have hkept : keepEach context 0 3 (swapping.map Prod.fst) (state [7, 8] 0 []) =
      .ok [.int 0, .int 7] (state [7, 8] 0 [0, 7]) := rfl
  rw [hkept] at h
  cases h
  refine ⟨by decide, ?_, _, _, rfl⟩
  intro depth depth' a ha ha'
  cases depth with
  | succ depth => cases ha
  | zero =>
      cases depth' with
      | succ depth' => cases ha'
      | zero => rfl

/-- The swap `s[0], z = z, s[0]` is accepted, and it is simultaneous. -/
theorem swap_simultaneous :
    body.Grounded ∧ body.Fits world ∧
      Accepts (.assign [element (constant 0), number] [number, element (constant 0)]) .empty body ∧
      Accepts (.assign [element (constant 0)] [number]) .empty body ∧
      Accepts (.assign [number] [element (constant 0)]) .empty body ∧
      Place.independent [] swapped = true ∧
      ∃ is d, statementOf (.assign [element (constant 0), number] [number, element (constant 0)])
          .empty body = .ok (((), Assembly.empty.pushAll is), d) ∧
        (actAll context 0 is (state [7, 8] 0 [])).outcome = .normal ∧
        (actAll context 0 is (state [7, 8] 0 [])).machine = state [0, 8] 7 [0, 7] := by
  have hlength : [element (constant 0), number].length = [number, element (constant 0)].length :=
    rfl
  have htwo : 2 ≤ [number, element (constant 0)].length := Nat.le_refl 2
  obtain ⟨haccepted, hends⟩ := assign_parallel body_grounded body_fits hlength htwo .empty
  have haccepts := parallel_of_staged (k := .empty) body_grounded.settled htwo swap_staged
  have hsingle := haccepted.1 haccepts
  obtain ⟨⟨⟨⟨⟩, k'⟩, d⟩, h⟩ := haccepts
  obtain ⟨places, staged, is, hstaged, rfl, hends⟩ := hends k' d h
  obtain ⟨rfl, rfl⟩ := swap_staged.unique hstaged
  have hindependent : Place.independent [] swapped = true := by decide
  have hrun : assignTogether body.types context 0 3 swapping swapped (state [7, 8] 0 []) =
      .ok () (state [0, 8] 7 [0, 7]) := rfl
  have hend : (actAll context 0 is (state [7, 8] 0 [])).EndsAs
      (assignTogether body.types context 0 3 swapping swapped (state [7, 8] 0 [])) :=
    hends hindependent context 0 (state [7, 8] 0 []) swap_ready
  rw [hrun] at hend
  exact ⟨body_grounded, body_fits, ⟨_, h⟩, (hsingle _ (.head _)).1,
    (hsingle _ (.tail _ (.head _))).1, hindependent, is, d, h, hend⟩

/-- The places of `z` and `s[z]`. -/
def moved : List (Option Place) :=
  [some (.var 0 1 (.basic .int)), some (elementAt (.expect .int (.load 0 1)))]

/-- Code for the numbers 1 and 9. -/
def moving : List (Code.Expr × Ty) :=
  [(.const (.int 1), .basic .int), (.const (.int 9), .basic .int)]

/-- `b = 1` and `z = 2` are accepted, `b, z = 1, 2` is not.  The code of `z, s[z] = 1, 9` stores in
`s[1]` where a simultaneous assignment stores in `s[0]`. -/
theorem constants_and_indices_differ :
    (Accepts (.assign [byte] [constant 1]) .empty body ∧
      Accepts (.assign [number] [constant 2]) .empty body ∧
      ¬Accepts (.assign [byte, number] [constant 1, constant 2]) .empty body) ∧
    ∃ d, statementOf (.assign [number, element number] [constant 1, constant 9]) .empty body =
        .ok (((), Assembly.empty.pushAll (parallelCode body.types 3 moved moving)), d) ∧
      Staged body [number, element number] [constant 1, constant 9] moved moving ∧
      (actAll context 0 (parallelCode body.types 3 moved moving) (state [7, 8] 0 [])).machine =
        state [7, 9] 1 [1, 9] ∧
      assignTogether body.types context 0 3 moving moved (state [7, 8] 0 []) =
        .ok () (state [9, 8] 1 [1, 9]) := by
  have hbyte : statementOf (.assign [byte] [constant 1]) .empty body =
      .ok (((), Assembly.empty.push (.store (.var 0 2) none (.const (.uint 1)))), body) := by
    cbv
  have hnumber : statementOf (.assign [number] [constant 2]) .empty body =
      .ok (((), Assembly.empty.push (.store (.var 0 1) none (.const (.int 2)))), body) := by
    cbv
  have hrefused : statementOf (.assign [byte, number] [constant 1, constant 2]) .empty body =
      .error (.of (.notAssignable "int" "uint8")) := by
    cbv
  have hmoved : statementOf (.assign [number, element number] [constant 1, constant 9]) .empty
      body = .ok (((), Assembly.empty.pushAll (parallelCode body.types 3 moved moving)),
        { body with frame := { body.frame with slots := 5 } }) := by
    cbv
  refine ⟨⟨⟨_, hbyte⟩, ⟨_, hnumber⟩, ?_⟩, _, hmoved, ?_, rfl, rfl⟩
  · rintro ⟨r, h⟩
    rw [hrefused] at h
    cases h
  · have hconstant (n : Int) : Given body (constant n) (.untyped (.int n)) := ⟨body, rfl⟩
    exact ⟨.cons ⟨body, by cbv⟩ (.cons ⟨body, by cbv⟩ .nil),
      .cons ⟨_, _, hconstant 1, by cbv, rfl⟩ (.cons ⟨_, _, hconstant 9, by cbv, rfl⟩ .nil),
      .cons (admits_int rfl) (.cons (admits_int rfl) .nil)⟩

end Parallel

end Compile

end ScriptCore
