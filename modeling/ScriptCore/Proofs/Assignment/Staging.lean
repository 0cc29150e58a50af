import ScriptCore.Proofs.Assignment.Categories
import ScriptCore.Proofs.Assignment.Together

/-!
# Values that are kept before they are stored

Code for a value can be assigned to a place if its type can.  If the value is kept in a slot first,
it is assigned from there by the same rule, so nothing changes.  Constants without a type are
different: assigned to a place they take its type, kept in a slot they take their default type, and
nil has none.  Where a constant is a value of its own type that can be assigned to the type of the
place, it may be kept as well.

Main statements: `Place.set_code`, `Place.setConst_ok` and `Operand.stages_iff`.
-/

namespace ScriptCore

/-! ### What can be stored in a place -/

namespace Place

variable {t : TypeTable} {p : Place}

/-- Scalars can be stored. -/
theorem isUnsupported_scalar (h : Compile.isScalar (t.category p.type) = true) :
    isUnsupported (t.kind p.type) = false := by
  rw [TypeTable.category] at h
  cases hk : t.kind p.type <;> first | rfl | (rw [hk] at h; cases h)

/-- **Code for a value can be stored where its type can be assigned**, in a place of a type whose
values can be stored at all. -/
theorem set_code {e : Code.Typed} {ty : Ty} {i : Code.Instr}
    (he : e.category = Code.Typed.storage (t.category ty)) :
    p.set t (.term (.code e ty)) = .ok i ↔ t.assignable ty p.type = true ∧
      isUnsupported (t.kind p.type) = false ∧ i = p.store (p.accepted t e.expr) := by
  cases hassign : t.assignable ty p.type with
  | false =>
      have hset : p.set t (.term (.code e ty)) = .error (.notAssignable ty.text p.type.text) :=
        congrArg (· >>= p.setExpr t) (Term.valueFor_of_not_assignable hassign e)
      simp [hset]
  | true =>
      have hset : p.set t (.term (.code e ty)) =
          p.setExpr t (if t.isInterface p.type then ⟨.unknown, e.expr⟩ else e) := by
        simp [set, Operand.valueFor, Operand.single, Term.valueFor, Term.requireAssignable, hassign,
          bind, Except.bind, pure, Except.pure]
      rw [hset]
      by_cases hscalar : Compile.isScalar (t.category p.type) = true
      · obtain rfl := TypeTable.assignable_scalar hscalar hassign
        rw [TypeTable.isInterface_scalar hscalar, if_neg Bool.false_ne_true,
          isUnsupported_scalar hscalar]
        unfold setExpr accepted
        cases hc : t.category p.type with
        | func | unknown =>
            rw [hc] at hscalar
            cases hscalar
        | _ =>
            rw [hc] at he
            simp [he, Code.Typed.storage, @eq_comm _ i]
      · have hexpr : (if t.isInterface p.type then (⟨.unknown, e.expr⟩ : Code.Typed) else e).expr =
            e.expr := by
          split <;> rfl
        unfold setExpr accepted
        rw [hexpr]
        cases hc : t.category p.type with
        | func | unknown =>
            cases hu : isUnsupported (t.kind p.type) <;> simp [hu, @eq_comm _ i]
        | _ =>
            rw [hc] at hscalar
            exact absurd rfl hscalar

/-- A constant other than nil is a value of no type that is neither a scalar nor an interface. -/
theorem represent_interface {c : Constant} {ty : Ty} (hc : c.isNil = false)
    (hscalar : Compile.isScalar (t.category ty) = false) :
    (∃ d, c.represent t ty = .ok d) ↔ t.isInterface ty = true := by
  have hrepresent : c.represent t ty =
      if t.isInterface ty then .ok c else .error (.notAssignable c.text ty.text) := by
    unfold Constant.represent
    rw [TypeTable.category] at hscalar
    dsimp only
    cases hk : (t.kind ty).category with
    | func | unknown => cases c <;> first | rfl | cases hc
    | _ =>
        rw [hk] at hscalar
        cases hscalar
  rw [hrepresent]
  cases t.isInterface ty <;> simp

/-- A constant that is a value of a type has a representation in the type. -/
theorem toValue_ok {c : Constant} {ty : Ty} :
    (∃ v, c.toValue t ty = .ok v) ↔ ∃ d, c.represent t ty = .ok d := by
  unfold Constant.toValue
  cases c.represent t ty with
  | error f => simp [bind, Except.bind]
  | ok d =>
      simp only [bind, Except.bind, Except.ok.injEq, exists_eq', iff_true]
      split <;> exact ⟨_, rfl⟩

/-- Types of which one is an interface are both, if values of one can be assigned to the other. -/
theorem isInterface_of_assignable {ty : Ty} (hassign : t.assignable ty p.type = true)
    (h : t.isInterface ty = true) : t.isInterface p.type = true := by
  by_contra hp
  rw [Bool.not_eq_true] at hp
  by_cases heq : ty = p.type
  · rw [heq, hp] at h
    cases h
  · rw [TypeTable.assignable, beq_false_of_ne heq, hp] at hassign
    simp only [Bool.false_or, Bool.false_eq_true, if_false, Bool.and_eq_true, beq_iff_eq] at hassign
    rw [TypeTable.isInterface, TypeTable.interfaceMethods?, hassign.2] at h
    rw [TypeTable.isInterface, TypeTable.interfaceMethods?, h] at hp
    cases hp

/-- **A constant that is a value of a type can be stored where the type can be assigned.** -/
theorem setConst_ok {c : Constant} {ty : Ty} {v : Value} (hv : c.toValue t ty = .ok v)
    (hassign : t.assignable ty p.type = true) :
    (∃ i, p.setConst t c = .ok i) ↔ isUnsupported (t.kind p.type) = false := by
  obtain ⟨d, hd⟩ := toValue_ok.1 ⟨v, hv⟩
  by_cases hscalar : Compile.isScalar (t.category p.type) = true
  · obtain rfl := TypeTable.assignable_scalar hscalar hassign
    simp only [isUnsupported_scalar hscalar, iff_true]
    unfold setConst
    cases hc : t.category p.type with
    | func | unknown =>
        rw [hc] at hscalar
        cases hscalar
    | bool =>
        have hbool : ∃ b, d = .bool b := by
          rw [TypeTable.category] at hc
          unfold Constant.represent at hd
          dsimp only at hd
          rw [hc] at hd
          cases c <;> cases hd
          exact ⟨_, rfl⟩
        obtain ⟨b, rfl⟩ := hbool
        rw [hd]
        exact ⟨_, rfl⟩
    | _ =>
        rw [hv]
        exact ⟨_, rfl⟩
  · have hset : p.setConst t c = (if isUnsupported (t.kind p.type) then
          .error (.unsupportedCategory "set_place_const" (t.category p.type) p.type)
        else if c.isNil then .ok (p.store (.const (t.zero p.type)))
        else do return p.store (.const (← c.toValue t p.type))) := by
      unfold setConst
      cases hc : t.category p.type with
      | func | unknown => rfl
      | _ =>
          rw [hc] at hscalar
          exact absurd rfl hscalar
    rw [hset]
    cases isUnsupported (t.kind p.type) with
    | true => simp
    | false =>
        simp only [Bool.false_eq_true, if_false, iff_true]
        cases hnil : c.isNil with
        | true => exact ⟨_, rfl⟩
        | false =>
            rw [Bool.not_eq_true] at hscalar
            have hiface : t.isInterface p.type = true := by
              by_contra hp
              rw [Bool.not_eq_true] at hp
              have hcategory := TypeTable.category_of_assignable hassign hp
              rw [← hcategory] at hscalar
              have hty := (represent_interface hnil hscalar).1 ⟨d, hd⟩
              rw [isInterface_of_assignable hassign hty] at hp
              cases hp
            obtain ⟨w, hw⟩ := toValue_ok.2 ((represent_interface hnil hscalar).2 hiface)
            rw [hw]
            exact ⟨_, rfl⟩

/-- Values of a type can be stored in the place. -/
structure Accepts (t : TypeTable) (p : Place) (ty : Ty) : Prop where
  assignable : t.assignable ty p.type = true
  supported : isUnsupported (t.kind p.type) = false

/-- Values of a type can be stored in the place, if there is one; the blank name has none. -/
def Admits (t : TypeTable) (place : Option Place) (ty : Ty) : Prop :=
  ∀ p ∈ place, p.Accepts t ty

/-- **Storing what a slot keeps** is accepted for values that can be stored in the place. -/
theorem set_slot {ty : Ty} {slot : Nat} {i : Code.Instr} :
    p.set t (.term (.ofExpr t (.load 0 slot) ty)) = .ok i ↔
      p.Accepts t ty ∧ i = p.fromSlot t ty slot := by
  have hcategory := Term.ofExpr_classified t (.load 0 slot) ty
  rw [Term.ofExpr, set_code hcategory]
  constructor
  · rintro ⟨hassign, hsupported, hi⟩
    exact ⟨⟨hassign, hsupported⟩, hi⟩
  · rintro ⟨⟨hassign, hsupported⟩, hi⟩
    exact ⟨hassign, hsupported, hi⟩

end Place

/-! ### Single and staged values -/

namespace Operand

variable {t : TypeTable} {place : Option Place} {o : Operand}

/-- The operand can be assigned to the place, or be evaluated for the blank name. -/
def Stores (t : TypeTable) (place : Option Place) (o : Operand) : Prop :=
  match place with
  | some p => ∃ i, p.set t o = .ok i
  | none => ∃ x, o.single = .ok x

/-- The operand has a value of a type of its own, and values of this type can be stored in the
place. -/
def Stages (t : TypeTable) (place : Option Place) (o : Operand) : Prop :=
  ∃ e ty, o.valueOf t = .ok (e, ty) ∧ Place.Admits t place ty

/-- A constant can be kept as a value of its own type, its default type if it has none, and the type
can be assigned to the type of the place. -/
def Keepable (t : TypeTable) (place : Option Place) : Operand → Prop
  | .term (.const c type) => ∃ e ty, (Term.const c type).valueOf t = .ok (e, ty) ∧
      ∀ p ∈ place, t.assignable ty p.type = true
  | .term (.code _ _) | .results _ _ => True

/-- A constant that can be kept can be stored where values of its type can. -/
theorem stores_const {c : Constant} {type : Option Ty} {e : Code.Typed} {ty : Ty} {p : Place}
    (hvalue : (Term.const c type).valueOf t = .ok (e, ty))
    (hassign : t.assignable ty p.type = true) :
    (∃ i, p.set t (.term (.const c type)) = .ok i) ↔
      Place.isUnsupported (t.kind p.type) = false := by
  obtain ⟨ty', htype, hvalue⟩ := Compile.rules_ok hvalue
  obtain ⟨e', hfixed, hvalue⟩ := Compile.rules_ok hvalue
  obtain ⟨v, hv, -⟩ := Compile.rules_ok hfixed
  cases hvalue
  rw [← Place.setConst_ok hv hassign]
  cases type with
  | none => rfl
  | some declared =>
      cases htype
      simp [Place.set, Term.requireAssignable, hassign, bind, Except.bind]

/-- **An operand can be staged if and only if it can be assigned** and, if it is a constant, be
kept. -/
theorem stages_iff (ho : o.Classified t) :
    o.Stages t place ↔ o.Stores t place ∧ o.Keepable t place := by
  cases o with
  | results call types =>
      constructor
      · rintro ⟨e, ty, hvalue, -⟩
        cases hvalue
      · rintro ⟨hstores, -⟩
        cases place with
        | none =>
            obtain ⟨x, hx⟩ := hstores
            cases hx
        | some p =>
            obtain ⟨i, hi⟩ := hstores
            cases hi
  | term x =>
      cases x with
      | code e ty =>
          simp only [Keepable, and_true]
          cases place with
          | none =>
              refine ⟨fun _ => ⟨_, rfl⟩, fun _ => ⟨e, ty, rfl, fun p hp => ?_⟩⟩
              cases hp
          | some p =>
              simp only [Stores, Place.set_code ho]
              constructor
              · rintro ⟨e', ty', hvalue, haccepts⟩
                cases hvalue
                obtain ⟨hassign, hsupported⟩ := haccepts p rfl
                exact ⟨_, hassign, hsupported, rfl⟩
              · rintro ⟨i, hassign, hsupported, -⟩
                refine ⟨e, ty, rfl, fun p' hp => ?_⟩
                cases hp
                exact ⟨hassign, hsupported⟩
      | const c type =>
          constructor
          · rintro ⟨e, ty, hvalue, haccepts⟩
            refine ⟨?_, e, ty, hvalue, fun p hp => (haccepts p hp).assignable⟩
            cases place with
            | none => exact ⟨_, rfl⟩
            | some p =>
                obtain ⟨hassign, hsupported⟩ := haccepts p rfl
                exact (stores_const hvalue hassign).2 hsupported
          · rintro ⟨hstores, e, ty, hvalue, hassign⟩
            refine ⟨e, ty, hvalue, fun p hp => ⟨hassign p hp, ?_⟩⟩
            cases hp
            exact (stores_const hvalue (hassign p rfl)).1 hstores

end Operand

end ScriptCore
