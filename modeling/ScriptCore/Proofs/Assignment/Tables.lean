import ScriptCore.Compile.Syntax
import ScriptCore.Proofs.Types.Comparable

/-!
# Tables that give the same answers

The rules of the compilation read a table of types in two ways: through what named types stand for,
and through the question whether values can be compared.  Two tables are alike if they agree on
both.  Building a type in the universe of the package leaves a table alike, because an array or
struct type that was not built yet counts as comparable exactly if it is marked so when it is
built.  This needs one thing of the table: the array and struct types that named types stand for
were built before (`TypeTable.Settled`).

Main statements: `TypeTable.comparableIn_intern_fresh` and `TypeOp.Step.alike`.
-/

namespace ScriptCore

namespace TypeTable

/-- The array and struct types that named types stand for are held. -/
def Settled (t : TypeTable) : Prop :=
  ∀ id u, t.definition? id = some u → u.type.isAggregate = true → t.Held u

/-- The tables agree on what named types stand for and on what can be compared. -/
structure Alike (t t' : TypeTable) : Prop where
  named : t'.named = t.named
  comparable : ∀ ty, t'.comparableIn packageHome ty = t.comparableIn packageHome ty

namespace Alike

variable {t t' t'' : TypeTable}

/-- A table is like itself. -/
theorem refl (t : TypeTable) : t.Alike t :=
  ⟨rfl, fun _ => rfl⟩

/-- The other way round. -/
theorem symm (h : t.Alike t') : t'.Alike t :=
  ⟨h.named.symm, fun ty => (h.comparable ty).symm⟩

/-- One after the other. -/
theorem trans (h : t.Alike t') (h' : t'.Alike t'') : t.Alike t'' :=
  ⟨h'.named.trans h.named, fun ty => (h'.comparable ty).trans (h.comparable ty)⟩

/-- What reads nothing but what named types stand for is the same for both tables. -/
@[elab_as_elim]
theorem same {motive : TypeTable → TypeTable → Prop} (h : t.Alike t')
    (hsame : ∀ i i' n l l', motive ⟨i, n, l⟩ ⟨i', n, l'⟩) : motive t t' := by
  obtain ⟨i, n, l⟩ := t
  obtain ⟨i', n', l'⟩ := t'
  obtain rfl : n' = n := h.named
  exact hsame i i' n' l l'

end Alike

/-! ### Building types -/

/-- An entry for another type. -/
theorem instance?_intern_ne {t : TypeTable} {i : Instance} {r : TypeRef} (h : r ≠ i.ref) :
    (t.intern i).instance? r = t.instance? r := by
  rw [intern]
  split
  · rfl
  · have hne : (i.ref == r) = false := by simpa using Ne.symm h
    rw [instance?, List.find?_append, ← instance?, List.find?_cons, hne]
    simp

mutual

/-- A type that is marked as it counted before does not change what counts as comparable. -/
theorem comparableIn_intern_fresh {t : TypeTable} {i : Instance} (hsettled : t.Settled)
    (hfresh : ¬t.Held i.ref) (hmark : i.ref.type.isAggregate = true →
      i.comparable = t.comparableIn i.ref.home i.ref.type) (home : Nat) (ty : Ty) :
    (t.intern i).comparableIn home ty = t.comparableIn home ty := by
  have hbuilt : ty.isAggregate = true → (⟨home, ty⟩ : TypeRef) = i.ref →
      ∃ j, (t.intern i).instance? ⟨home, ty⟩ = some j ∧
        j.comparable = t.comparableIn home ty := by
    intro hagg href
    refine ⟨i, href ▸ instance?_intern_self hfresh, ?_⟩
    rw [hmark (by rw [← href]; exact hagg), ← href]
  cases ty with
  | basic | pointer | interface | slice | map | func => simp only [comparableIn]
  | named id n p =>
      rw [comparableIn, comparableIn, definition?, intern_named, ← definition?]
      cases hu : t.definition? id with
      | none => rfl
      | some u =>
          rw [Option.all_some, Option.all_some]
          by_cases hagg : u.type.isAggregate = true
          · exact (Grows.intern t i).isLiteralComparable (hsettled id u hu hagg)
          · obtain ⟨uhome, uty⟩ := u
            cases uty <;> first | rfl | exact absurd rfl hagg
  | array n e =>
      by_cases href : (⟨home, .array n e⟩ : TypeRef) = i.ref
      · obtain ⟨j, hj, hcomparable⟩ := hbuilt rfl href
        rw [comparableIn, hj]
        exact hcomparable
      · rw [comparableIn, comparableIn, instance?_intern_ne href,
          comparableIn_intern_fresh hsettled hfresh hmark home e]
  | struct fs =>
      by_cases href : (⟨home, .struct fs⟩ : TypeRef) = i.ref
      · obtain ⟨j, hj, hcomparable⟩ := hbuilt rfl href
        rw [comparableIn, hj]
        exact hcomparable
      · rw [comparableIn, comparableIn, instance?_intern_ne href,
          fieldsComparableIn_intern_fresh hsettled hfresh hmark home fs]

/-- The same for fields. -/
theorem fieldsComparableIn_intern_fresh {t : TypeTable} {i : Instance} (hsettled : t.Settled)
    (hfresh : ¬t.Held i.ref) (hmark : i.ref.type.isAggregate = true →
      i.comparable = t.comparableIn i.ref.home i.ref.type) (home : Nat) (fs : List Field) :
    (t.intern i).fieldsComparableIn home fs = t.fieldsComparableIn home fs := by
  cases fs with
  | nil => simp only [fieldsComparableIn]
  | cons f fs =>
      obtain ⟨n, ty, e⟩ := f
      rw [fieldsComparableIn, fieldsComparableIn,
        comparableIn_intern_fresh hsettled hfresh hmark home ty,
        fieldsComparableIn_intern_fresh hsettled hfresh hmark home fs]

end

/-- An array or struct type that is not held counts as its parts do. -/
theorem comparableIn_of_not_held {t : TypeTable} {home : Nat} {ty : Ty}
    (hagg : ty.isAggregate = true) (h : ¬t.Held ⟨home, ty⟩) :
    t.comparableIn home ty = ty.inner.all (t.comparableIn home) := by
  have hnone : t.instance? ⟨home, ty⟩ = none := by
    rwa [Held, rtype?, Option.isSome_map, Option.not_isSome_iff_eq_none] at h
  have hfields (fs : List Field) :
      t.fieldsComparableIn home fs = (fs.map FieldOf.type).all (t.comparableIn home) := by
    induction fs with
    | nil => rw [fieldsComparableIn, List.map_nil, List.all_nil]
    | cons f fs ih => rw [fieldsComparableIn, ih, List.map_cons, List.all_cons]
  cases ty with
  | array n e => rw [comparableIn, hnone, Ty.inner, List.all_cons, List.all_nil, Bool.and_true]
  | struct fs => rw [comparableIn, hnone, Ty.inner, ← hfields]
  | _ => cases hagg

/-- A table that grows holds more. -/
theorem Settled.grows {t t' : TypeTable} (h : t.Settled) (hgrows : t.Grows t')
    (hnamed : t'.named = t.named) : t'.Settled := by
  intro id u hu hagg
  rw [definition?, hnamed] at hu
  exact hgrows.held (h id u hu hagg)

end TypeTable

namespace TypeOp

open Compile (typeRef)

/-- The operations by which a package builds its types from types of its own. -/
inductive Inside : TypeOp → Prop where
  | slice (elem : Ty) : Inside (.slice packageHome (typeRef elem))
  | array (length : Nat) (elem : Ty) : Inside (.array packageHome length (typeRef elem))
  | map (key value : Ty) : Inside (.map packageHome (typeRef key) (typeRef value))
  | pointer (elem : Ty) : Inside (.pointer packageHome (typeRef elem))
  | struct (fields : List Field) :
    Inside (.struct packageHome (fields.map fun f => ⟨f.name, typeRef f.type, f.embedded⟩))
  | interface (methods : List Method) :
    Inside (.interface packageHome (methods.map fun m => ⟨m.name, typeRef m.type⟩))
  | func (recv : Option Ty) (params results : List Ty) (variadic : Bool) :
    Inside (.func packageHome (recv.map typeRef) (params.map typeRef) (results.map typeRef)
      variadic)

/-- They build a type of the package. -/
theorem Inside.home {op : TypeOp} (h : op.Inside) {t : TypeTable} {i : Instance}
    (hi : op.product? t = some i) : i.ref.home = packageHome := by
  cases h <;> (cases hi; rfl)

/-- Array and struct types are made from types of the package. -/
theorem Inside.parts {op : TypeOp} (h : op.Inside) {t : TypeTable} {i : Instance}
    (hi : op.product? t = some i) (hagg : i.ref.type.isAggregate = true) :
    i.comparable = i.ref.type.inner.all (t.comparableIn packageHome) := by
  obtain ⟨rs, hrs, hinner, hmark⟩ := mark_of_product? hi hagg
  have hhome : ∀ r ∈ rs, r.home = packageHome := by
    intro r hr
    have harg := hrs r hr
    cases h with
    | array => exact List.mem_singleton.1 harg ▸ rfl
    | struct fields =>
        simp only [arguments, List.map_map, List.mem_map] at harg
        obtain ⟨f, -, rfl⟩ := harg
        rfl
    | _ =>
        cases hi
        cases hagg
  rw [hmark, ← hinner, List.all_map, Bool.eq_iff_iff, List.all_eq_true, List.all_eq_true]
  refine forall₂_congr fun r hr => ?_
  rw [Function.comp_apply, TypeTable.isComparable, hhome r hr]

/-- Building a type of the package leaves a table alike. -/
theorem Step.alike {t t' : TypeTable} {op : TypeOp} (h : Step t op t') (hop : op.Inside)
    (hsettled : t.Settled) : t.Alike t' ∧ t'.Settled := by
  cases h with
  | refused => exact ⟨.refl t, hsettled⟩
  | built hproduct =>
      rename_i i _
      have hgrows := TypeTable.Grows.intern t i
      refine ⟨⟨t.intern_named i, fun ty => ?_⟩, hsettled.grows hgrows (t.intern_named i)⟩
      by_cases hheld : t.Held i.ref
      · have hsame : t.intern i = t := by
          rw [TypeTable.Held, TypeTable.rtype?, Option.isSome_map] at hheld
          rw [TypeTable.intern, if_pos hheld]
        rw [hsame]
      · refine TypeTable.comparableIn_intern_fresh hsettled hheld (fun hagg => ?_) _ ty
        rw [TypeTable.comparableIn_of_not_held hagg hheld, hop.parts hproduct hagg,
          hop.home hproduct]
  | declared | defined | extended => cases hop

end TypeOp

/-- What building a type of the package leaves behind: a table like the one before, which may hold
more. -/
structure TypeTable.Extends (t t' : TypeTable) : Prop where
  alike : t.Alike t'
  grows : t.Grows t'
  settled : t'.Settled

/-- A step that builds types of the package gives the same from tables that are alike, and extends
the table. -/
structure Build.Stable (step : Build TypeRef) : Prop where
  same : ∀ t t', t.Alike t' → (step.run.run t).1 = (step.run.run t').1
  extended : ∀ t : TypeTable, t.Settled → t.Extends (step.run.run t).2

namespace Universe

open Compile (typeRef)

/-- A step that is one of the operations of the package extends the table. -/
theorem extends_of_inside {step : Build TypeRef} {op : TypeOp} (hop : op.Inside)
    (hstep : op.perform = some <$> step) (t : TypeTable) (ht : t.Settled) :
    t.Extends (step.run.run t).2 := by
  have hleaves := TypeOp.perform_leaves t op
  rw [hstep] at hleaves
  simp only [Build.Leaves, ExceptT.run_map, StateT.run_map] at hleaves
  obtain ⟨halike, hsettled⟩ := TypeOp.Step.alike hleaves hop ht
  exact ⟨halike, .step hleaves, hsettled⟩

/-- Slices. -/
theorem slice_stable (elem : Ty) : (slice packageHome (typeRef elem)).Stable :=
  ⟨fun _ _ _ => rfl, extends_of_inside (.slice elem) rfl⟩

/-- Arrays. -/
theorem array_stable (length : Nat) (elem : Ty) :
    (array packageHome length (typeRef elem)).Stable :=
  ⟨fun _ _ _ => rfl, extends_of_inside (.array length elem) rfl⟩

/-- Pointers. -/
theorem pointer_stable (elem : Ty) : (pointer packageHome (typeRef elem)).Stable :=
  ⟨fun _ _ _ => rfl, extends_of_inside (.pointer elem) rfl⟩

/-- Maps. -/
theorem map_stable (key value : Ty) :
    (map packageHome (typeRef key) (typeRef value)).Stable := by
  refine ⟨fun t t' h => ?_, extends_of_inside (.map key value) rfl⟩
  change ((if t.isComparable (typeRef key) then _ else _ : Build TypeRef).run.run t).1 =
    ((if t'.isComparable (typeRef key) then _ else _ : Build TypeRef).run.run t').1
  have hkey : t'.isComparable (typeRef key) = t.isComparable (typeRef key) := h.comparable key
  rw [hkey]
  split <;> rfl

/-- Structs. -/
theorem struct_stable (fields : List Field) :
    (struct packageHome (fields.map fun f => ⟨f.name, typeRef f.type, f.embedded⟩)).Stable := by
  refine ⟨fun t t' h => ?_, extends_of_inside (.struct fields) rfl⟩
  unfold struct
  split <;> rfl

/-- Interfaces. -/
theorem interface_stable (methods : List Method) :
    (interface packageHome (methods.map fun m => ⟨m.name, typeRef m.type⟩)).Stable := by
  refine ⟨fun t t' h => ?_, extends_of_inside (.interface methods) rfl⟩
  unfold interface
  have hkind : t'.kind = t.kind := h.symm.same fun _ _ _ _ _ => rfl
  generalize methods.map (fun m => (⟨m.name, typeRef m.type⟩ : MethodOf TypeRef)) = ms
  rw [Build.get_bind, Build.get_bind, hkind]
  split
  · rfl
  · dsimp only
    split <;> rfl

/-- Functions. -/
theorem func_stable (recv : Option Ty) (params results : List Ty) (variadic : Bool) :
    (func packageHome (recv.map typeRef) (params.map typeRef) (results.map typeRef)
      variadic).Stable := by
  refine ⟨fun t t' h => ?_, extends_of_inside (.func recv params results variadic) rfl⟩
  unfold func
  have hkind : t'.kind = t.kind := h.symm.same fun _ _ _ _ _ => rfl
  change ((if variadic && !(_ : Option Ty).any fun ty => t.kind ty == .slice then _ else _ :
      Build TypeRef).run.run t).1 =
    ((if variadic && !(_ : Option Ty).any fun ty => t'.kind ty == .slice then _ else _ :
      Build TypeRef).run.run t').1
  rw [hkind]
  split <;> rfl

end Universe

/-! ### Rules -/

namespace TypeTable.Alike

open Compile

variable {t t' : TypeTable}

/-- Zero values of named types. -/
theorem zeroNamed (h : t.Alike t') (fuel id : Nat) :
    t.zeroNamed fuel id = t'.zeroNamed fuel id := by
  induction fuel generalizing id with
  | zero => rfl
  | succ fuel ih =>
      have hsame : t.zeroNamed fuel = t'.zeroNamed fuel := funext ih
      rw [TypeTable.zeroNamed, TypeTable.zeroNamed, hsame, definition?, definition?, h.named]

/-- Zero values. -/
theorem zero (h : t.Alike t') : t.zero = t'.zero := by
  have hnamed : t.zeroNamed t.named.length = t'.zeroNamed t'.named.length := by
    rw [h.named]
    exact funext (h.zeroNamed _)
  funext ty
  rw [TypeTable.zero, TypeTable.zero, hnamed]

/-- What reads zero values and what named types stand for is the same for both tables. -/
@[elab_as_elim]
theorem same_of_zero {motive : TypeTable → TypeTable → Prop} (h : t.Alike t')
    (hsame : ∀ i i' n l l', TypeTable.zero ⟨i, n, l⟩ = TypeTable.zero ⟨i', n, l'⟩ →
      motive ⟨i, n, l⟩ ⟨i', n, l'⟩) : motive t t' := by
  have hzero := h.zero
  revert hzero
  exact h.same hsame

/-- Elements. -/
theorem elementOf (h : t.Alike t') : elementOf t = elementOf t' := by
  refine h.same_of_zero fun _ _ _ _ _ hzero => ?_
  unfold Compile.elementOf
  rw [hzero]
  rfl

/-- Fields as places. -/
theorem fieldPlace (h : t.Alike t') : fieldPlace t = fieldPlace t' := by
  refine h.same_of_zero fun _ _ _ _ _ hzero => ?_
  unfold Compile.fieldPlace Place.field
  rw [hzero]
  rfl

/-- Assignments of constants. -/
theorem setConst (h : t.Alike t') : Place.setConst t = Place.setConst t' := by
  refine h.same_of_zero fun _ _ _ _ _ hzero => ?_
  unfold Place.setConst
  rw [hzero]
  rfl

/-- Assignments of values. -/
theorem setExpr (h : t.Alike t') : Place.setExpr t = Place.setExpr t' := by
  refine h.same_of_zero fun _ _ _ _ _ hzero => ?_
  unfold Place.setExpr
  rw [hzero]
  rfl

/-- Assignments of operands. -/
theorem set (h : t.Alike t') : Place.set t = Place.set t' := by
  unfold Place.set
  rw [h.setConst, h.setExpr]
  exact h.same fun _ _ _ _ _ => rfl

/-- Operators that are applied in place. -/
theorem setOp (h : t.Alike t') : Place.setOp t = Place.setOp t' := by
  refine h.same_of_zero fun _ _ _ _ _ hzero => ?_
  unfold Place.setOp
  rw [hzero]
  rfl

/-- New slices and maps. -/
theorem made (h : t.Alike t') : made t = made t' := by
  refine h.same_of_zero fun _ _ _ _ _ hzero => ?_
  unfold Compile.made
  rw [hzero]
  rfl

/-- What the end of a body returns. -/
theorem implicitReturn (h : t.Alike t') : implicitReturn t = implicitReturn t' := by
  refine h.same_of_zero fun _ _ _ _ _ hzero => ?_
  unfold Compile.implicitReturn
  rw [hzero]

/-- Rules for arguments. -/
theorem eachArgument {α β : Type} (h : t.Alike t') (name : String) (s : Signature) (count : Nat)
    (f : α → Ty → Except Fault β) (i : Nat) (as : List α) :
    eachArgument t name s count f i as = eachArgument t' name s count f i as := by
  induction as generalizing i with
  | nil => rfl
  | cons a as ih =>
      have htype : s.argumentType? t i = s.argumentType? t' i := h.same fun _ _ _ _ _ => rfl
      rw [Compile.eachArgument, Compile.eachArgument, htype]
      simp only [ih]

/-- Arguments. -/
theorem argumentsOf (h : t.Alike t') : argumentsOf t = argumentsOf t' := by
  have hassign : Term.requireAssignable t = Term.requireAssignable t' :=
    h.same fun _ _ _ _ _ => rfl
  have hvalue (op : Operand) : op.valueFor t = op.valueFor t' := h.same fun _ _ _ _ _ => rfl
  funext name s ops
  unfold Compile.argumentsOf
  simp only [h.eachArgument, hassign, hvalue]

/-- Values of declared variables. -/
theorem stageDeclared (h : t.Alike t') (declared : Option Ty) (ops : List Operand) :
    stageDeclared t declared ops = stageDeclared t' declared ops := by
  have hvalue (op : Operand) : op.valueFor t = op.valueFor t' := h.same fun _ _ _ _ _ => rfl
  induction ops with
  | nil => rfl
  | cons op ops ih =>
      unfold Compile.stageDeclared
      rw [ih]
      simp only [hvalue]

/-- Binary operators. -/
theorem binary (h : t.Alike t') : Term.binary t = Term.binary t' := by
  have hcomparable := h.comparable
  revert hcomparable
  refine h.same fun _ _ _ _ _ hcomparable => ?_
  unfold Term.binary Term.converted isComparable
  simp only [hcomparable]
  rfl

end TypeTable.Alike

end ScriptCore
