import ScriptCore.Compile.Package
import ScriptCore.Machine.Eval
import ScriptCore.Proofs.Constants.Execution
import ScriptCore.Proofs.Number.Single

/-!
# Constants as values of interfaces

A constant that is used as a value of an interface is stored in its own representation, and the
type that it has is forgotten.  A variable that holds the constant was stored as its type says.  The
two are the same value unless the type is unsigned, or the constant has no type and is not a value
of its default type: there an integer that does not fit is cut off.

Main statements: `Constant.represent_represent` (a constant of a type is not changed when it is
represented in the type again) and `boxed_agrees`.
-/

namespace ScriptCore

/-- A number that was rounded to the precision of a kind is not rounded again. -/
theorem narrowFloat_narrowFloat (k : Kind) (x : Float) :
    narrowFloat k (narrowFloat k x) = narrowFloat k x := by
  cases k with
  | float32 | complex64 => exact Binary64.toSingle_toSingle x
  | _ => rfl

/-- The kind of an interface. -/
theorem kind_interface {t : TypeTable} {ty : Ty} (h : t.isInterface ty = true) :
    t.kind ty = .interface := by
  unfold TypeTable.isInterface TypeTable.interfaceMethods? at h
  rw [TypeTable.kind]
  split at h
  · rename_i hunderlying
    rw [hunderlying]
    rfl
  · cases h

namespace Constant

variable {t : TypeTable} {c d : Constant} {ty : Ty}

/-- What is represented in a type can be represented in it again, and is the same. -/
theorem represent_represent (h : c.represent t ty = .ok d) : d.represent t ty = .ok d := by
  unfold represent at h ⊢
  dsimp only at h ⊢
  generalize hcategory : (t.kind ty).category = category at h ⊢
  cases category with
  | bool =>
    dsimp only at h ⊢
    split at h <;> cases h
    rfl
  | int | uint =>
    obtain ⟨i, rfl, hlow, hhigh⟩ := represent_int_range h
    simp only [representInt, asInt?]
    rw [if_neg (not_or.2 ⟨Int.not_lt.2 hlow, Int.not_lt.2 hhigh⟩)]
  | float =>
    dsimp only at h ⊢
    split at h
    · split at h
      · cases h
      · rename_i hfinite
        cases h
        simp only [asFloat?, narrowFloat_narrowFloat]
        rw [if_neg hfinite]
    · split at h <;> cases h
  | complex =>
    dsimp only at h ⊢
    split at h
    · split at h
      · cases h
      · rename_i hfinite
        cases h
        simp only [asComplex?, narrowFloat_narrowFloat]
        rw [if_neg hfinite]
    · cases h
  | string =>
    dsimp only at h ⊢
    split at h <;> cases h
    rfl
  | func | unknown =>
    dsimp only at h ⊢
    split at h
    · split at h
      · rename_i hnil
        cases h
        exact if_pos hnil
      · cases h
    · rename_i hne
      split at h
      · rename_i hinterface
        cases h
        cases c with
        | nil => exact absurd rfl hne
        | _ => exact if_pos hinterface
      · cases h

/-- The value of a constant that a type leaves as it is, unless the type is unsigned. -/
theorem toValue_signed (hsigned : t.category ty ≠ .uint) (h : c.represent t ty = .ok d) :
    c.toValue t ty = .ok d.value := by
  rw [toValue, h]
  simp only [Bind.bind, Except.bind]
  split
  · rename_i hcategory
    exact absurd hcategory hsigned
  · rfl

/-- Every constant is a value of an interface. -/
theorem represent_interface (h : t.isInterface ty = true) (c : Constant) :
    c.represent t ty = .ok c := by
  have hkind := kind_interface h
  unfold represent
  dsimp only
  rw [hkind]
  cases c with
  | nil => rfl
  | _ => exact if_pos h

/-- As a value of an interface a constant is its own value. -/
theorem toValue_interface (h : t.isInterface ty = true) (c : Constant) :
    c.toValue t ty = .ok c.value := by
  refine toValue_signed ?_ (represent_interface h c)
  rw [TypeTable.category, kind_interface h]
  decide

/-- A value of the default type of a constant is one of 64 bits, or finite. -/
def IsValue : Constant → Prop
  | int i => Kind.int.range.1 ≤ i ∧ i ≤ Kind.int.range.2
  | float x => x.isInf = false
  | complex re im => re.isInf = false ∧ im.isInf = false
  | nil | bool _ | str _ => True

/-- Such a constant is represented in its default type as it is. -/
theorem represent_default (h : c.IsValue) (hty : c.defaultType? = some ty) :
    c.represent t ty = .ok c := by
  cases c with
  | nil => cases hty
  | bool b => cases hty; rfl
  | str s => cases hty; rfl
  | int i =>
    cases hty
    exact if_neg (not_or.2 ⟨Int.not_lt.2 h.1, Int.not_lt.2 h.2⟩)
  | float x =>
    cases hty
    have hfinite : ¬x.isInf = true := by rw [h]; decide
    exact if_neg hfinite
  | complex re im =>
    cases hty
    have hfinite : ¬(re.isInf || im.isInf) = true := by rw [h.1, h.2]; decide
    exact if_neg hfinite

/-- The value of a constant is stored in the way of every type that is not unsigned and leaves the
constant as it is. -/
theorem expect_value (hsigned : t.category ty ≠ .uint) (h : c.represent t ty = .ok c) :
    c.value.expect (t.category ty) = .ok c.value := by
  unfold represent at h
  change t.category ty ≠ .uint at hsigned
  rw [TypeTable.category] at hsigned ⊢
  dsimp only at h
  generalize hcategory : (t.kind ty).category = category at h hsigned ⊢
  cases category with
  | bool | string =>
    dsimp only at h
    split at h <;> cases h
    rfl
  | int =>
    obtain ⟨i, rfl, -, -⟩ := represent_int_range h
    rfl
  | uint => exact absurd rfl hsigned
  | float =>
    dsimp only at h
    split at h
    · split at h
      · cases h
      · rw [← Except.ok.inj h]
        rfl
    · split at h <;> cases h
  | complex =>
    dsimp only at h
    split at h
    · split at h
      · cases h
      · rw [← Except.ok.inj h]
        rfl
    · cases h
  | func | unknown => rfl

end Constant

/-! ### Interfaces -/

namespace TypeTable

/-- Kinds whose values can be nil. -/
def IsNilable (k : Kind) : Prop :=
  k ∈ [Kind.slice, .map, .pointer, .interface, .func]

/-- Zero of a type that is not named and can be nil is nil. -/
theorem zeroWith_nilable (named : Nat → Value) {ty : Ty} (h : IsNilable ty.shape) :
    zeroWith named ty = .nil := by
  cases ty with
  | basic k =>
    change IsNilable k at h
    simp only [IsNilable, List.mem_cons, List.not_mem_nil, or_false] at h
    rcases h with rfl | rfl | rfl | rfl | rfl <;> rfl
  | struct fs | named id n p => simp [IsNilable, Ty.shape] at h
  | _ => rfl

/-- Zero of what can be nil is nil. -/
theorem zero_nilable {t : TypeTable} {ty : Ty} (h : IsNilable (t.kind ty)) : t.zero ty = .nil := by
  rw [kind] at h
  rw [zero]
  by_cases hnamed : ty.isNamed = true
  · cases ty with
    | named id n p =>
      rw [underlying] at h
      cases hlength : t.named.length with
      | zero => rfl
      | succ fuel =>
        rw [zeroWith, zeroNamed]
        cases hdefinition : t.definition? id with
        | none => rfl
        | some r =>
          rw [hdefinition] at h
          exact zeroWith_nilable _ h
    | _ => cases hnamed
  · rw [underlying_of_not_named (Bool.eq_false_iff.2 hnamed)] at h
    exact zeroWith_nilable _ h

end TypeTable

/-! ### Uses of constants and of code -/

/-- Ways to use an operand as a value of an interface. -/
inductive Boxing where
  /-- It is assigned to a variable, a result, an element or a field. -/
  | assigned (place : Place)
  /-- It is an argument or an element of a literal. -/
  | passed
  | converted
  /-- It is compared with a value of the interface, which is the right operand. -/
  | compared (op : BinaryOp) (right : Code.Typed)
  /-- A value of the interface, which is the left operand, is compared with it. -/
  | comparedTo (op : BinaryOp) (left : Code.Typed)

namespace Boxing

/-- What is assigned to has the type. -/
def At (ty : Ty) : Boxing → Prop
  | assigned place => place.type = ty
  | _ => True

/-- A use of a term as a value of a type compiles, and gives the value of the code. -/
inductive Gives (t : TypeTable) (ty : Ty) (x : Term) : Boxing → Code.Expr → Prop where
  | assigned {place : Place} {e : Code.Expr} :
      place.set t (.term x) = .ok (place.store e) → Gives t ty x (.assigned place) e
  | passed {e : Code.Typed} : x.valueFor t ty = .ok e → Gives t ty x .passed e.expr
  | converted {y : Term} {e : Code.Typed} : Compile.convertedTerm t x ty = .ok y →
      y.valueFor t ty = .ok e → Gives t ty x .converted e.expr
  | compared {op : BinaryOp} {right e : Code.Typed} {common : Ty} :
      Term.commonType t op x (.code right ty) = .ok common → x.valueFor t common = .ok e →
        Gives t ty x (.compared op right) e.expr
  | comparedTo {op : BinaryOp} {left e : Code.Typed} {common : Ty} :
      Term.commonType t op (.code left ty) x = .ok common → x.valueFor t common = .ok e →
        Gives t ty x (.comparedTo op left) e.expr

variable {t : TypeTable} {T I : Ty}

/-- The category of an interface. -/
theorem category_interface (h : t.isInterface I = true) : t.category I = .unknown := by
  rw [TypeTable.category, kind_interface h]
  rfl

/-- What can be assigned is not refused. -/
theorem requireAssignable_ok (h : t.assignable T I = true) :
    Term.requireAssignable t T I = .ok () :=
  if_pos h

/-- A constant that is passed as a value of an interface. -/
theorem valueFor_const (hI : t.isInterface I = true) {c : Constant} {type? : Option Ty}
    (hassignable : ∀ ty ∈ type?, t.assignable ty I = true) :
    (Term.const c type?).valueFor t I = .ok ⟨.unknown, .const c.value⟩ := by
  have hfixed : Term.fixed t c I = .ok ⟨.unknown, .const c.value⟩ := by
    rw [Term.fixed, c.toValue_interface hI, category_interface hI]
    rfl
  cases type? with
  | none => exact hfixed
  | some ty =>
    rw [Term.valueFor, requireAssignable_ok (hassignable ty rfl)]
    exact hfixed

/-- Code that is passed as a value of an interface. -/
theorem valueFor_code (hI : t.isInterface I = true) (hassignable : t.assignable T I = true)
    (e : Code.Typed) : (Term.code e T).valueFor t I = .ok ⟨.unknown, e.expr⟩ := by
  rw [Term.valueFor, requireAssignable_ok hassignable, hI]
  rfl

/-- A constant that is stored in a place of an interface. -/
theorem setConst_interface {place : Place} (hI : t.isInterface place.type = true) (c : Constant) :
    place.setConst t c = .ok (place.store (.const c.value)) := by
  rw [Place.setConst, category_interface hI, kind_interface hI]
  cases c with
  | nil =>
    rw [TypeTable.zero_nilable (by rw [kind_interface hI]; simp [TypeTable.IsNilable])]
    rfl
  | _ =>
    rw [Constant.toValue_interface hI]
    rfl

/-- A term that is compared with a value of an interface is converted to an interface to which it
can be assigned. -/
theorem commonType_interface (hI : t.isInterface I = true) {x : Term}
    (hassignable : ∀ ty ∈ x.type?, t.assignable ty I = true) (op : BinaryOp) (e : Code.Typed) :
    (∃ J, Term.commonType t op x (.code e I) = .ok J ∧ t.isInterface J = true ∧
      ∀ ty ∈ x.type?, t.assignable ty J = true) ∧
    ∃ J, Term.commonType t op (.code e I) x = .ok J ∧ t.isInterface J = true ∧
      ∀ ty ∈ x.type?, t.assignable ty J = true := by
  have htype : (Term.code e I).type? = some I := rfl
  unfold Term.commonType
  rw [htype]
  cases hx : x.type? with
  | none => exact ⟨⟨I, rfl, hI, by rintro _ ⟨⟩⟩, I, rfl, hI, by rintro _ ⟨⟩⟩
  | some ty =>
    have hty : t.assignable ty I = true := hassignable ty hx
    have hto (J : Ty) (h : t.assignable ty J = true) :
        ∀ ty' ∈ some ty, t.assignable ty' J = true := by
      rintro _ ⟨⟩
      exact h
    constructor
    · dsimp only
      split
      · rename_i heq
        exact ⟨ty, rfl, heq ▸ hI, hto ty (t.assignable_refl ty)⟩
      · rw [hI, hty]
        exact ⟨I, rfl, hI, hto I hty⟩
    · dsimp only
      split
      · exact ⟨I, rfl, hI, hto I hty⟩
      · split
        · rename_i h
          rw [Bool.and_eq_true] at h
          exact ⟨ty, rfl, h.1, hto ty (t.assignable_refl ty)⟩
        · rw [hI, hty]
          exact ⟨I, rfl, hI, hto I hty⟩

/-- A constant used as a value of an interface is its own value. -/
theorem gives_const (hI : t.isInterface I = true) {c : Constant} {type? : Option Ty}
    (hassignable : ∀ ty ∈ type?, t.assignable ty I = true) {use : Boxing} (huse : use.At I) :
    use.Gives t I (.const c type?) (.const c.value) := by
  cases use with
  | assigned place =>
    obtain rfl := huse
    have hset := setConst_interface hI c
    cases type? with
    | none => exact .assigned hset
    | some ty =>
      refine .assigned ?_
      rw [Place.set, requireAssignable_ok (hassignable ty rfl)]
      exact hset
  | passed => exact .passed (valueFor_const hI hassignable)
  | converted =>
    refine .converted (y := .code ⟨.unknown, .const c.value⟩ I) ?_
      (valueFor_code hI (t.assignable_refl I) _)
    rw [Compile.convertedTerm, category_interface hI, valueFor_const hI hassignable]
    exact if_neg (by rw [Compile.isScalar, Bool.and_false]; decide)
  | compared op right =>
    obtain ⟨⟨J, hJ, hinterface, hto⟩, -⟩ :=
      @commonType_interface t I hI (.const c type?) hassignable op right
    exact .compared hJ (valueFor_const hinterface hto)
  | comparedTo op left =>
    obtain ⟨-, J, hJ, hinterface, hto⟩ :=
      @commonType_interface t I hI (.const c type?) hassignable op left
    exact .comparedTo hJ (valueFor_const hinterface hto)

/-- Every value is a value of an interface. -/
theorem fits_interface (hI : t.isInterface I = true) (v : Value) : t.fits v I = true := by
  unfold TypeTable.fits
  rw [kind_interface hI]

/-- A value that is stored in a place of an interface is not changed. -/
theorem ensure_interface (hI : t.isInterface I = true) (v : Value) :
    ensure t I (t.zero I) v = .ok v := by
  rw [ensure, TypeTable.zero_nilable (by rw [kind_interface hI]; simp [TypeTable.IsNilable]),
    if_pos (fits_interface hI v)]
  cases v <;> rfl

/-- A value that is converted to an interface is not changed. -/
theorem convert_interface (hI : t.isInterface I = true) (h : Heap) (v : Value) :
    h.convert t v I = .ok (v, h) := by
  have hkind := kind_interface hI
  have hfits := fits_interface hI v
  unfold Heap.convert
  simp only [hkind, hfits, if_true]
  cases v with
  | str s => exact if_neg fun hslice => by cases hslice.1
  | _ => rfl

/-- Code used as a value of an interface keeps its value. -/
theorem gives_code (hI : t.isInterface I = true) (hassignable : t.assignable T I = true)
    (code : Code.Typed) {use : Boxing} (huse : use.At I) :
    ∃ e, use.Gives t I (.code code T) e ∧ ∀ (x : Context) (r : Nat) (m : Machine) (v : Value),
      x.types = t → eval x r code.expr m = .ok v m → eval x r e m = .ok v m := by
  have hown : ∀ ty ∈ (Term.code code T).type?, t.assignable ty I = true := by
    rintro _ ⟨⟩
    exact hassignable
  cases use with
  | assigned place =>
    obtain rfl := huse
    refine ⟨.ensure place.type (t.zero place.type) code.expr, .assigned ?_, ?_⟩
    · rw [Place.set]
      · change (Term.valueFor t (.code code T) place.type >>= _) = _
        rw [valueFor_code hI hassignable]
        change place.setExpr t _ = _
        rw [Place.setExpr, category_interface hI, kind_interface hI]
        rfl
      · intro c h
        cases h
      · intro c ty h
        cases h
    · intro x r m v hx h
      have hvalue : eval x r code.expr m = Run.check (.ok v) m := h
      rw [eval, Run.bind_checked hvalue, hx]
      change Run.check (ensure t place.type _ v) m = _
      rw [ensure_interface hI]
      rfl
  | passed => exact ⟨_, .passed (valueFor_code hI hassignable code), fun _ _ _ _ _ h => h⟩
  | compared op right =>
    obtain ⟨⟨J, hJ, hinterface, hto⟩, -⟩ := commonType_interface hI hown op right
    exact ⟨_, .compared hJ (valueFor_code hinterface (hto T rfl) code), fun _ _ _ _ _ h => h⟩
  | comparedTo op left =>
    obtain ⟨-, J, hJ, hinterface, hto⟩ := commonType_interface hI hown op left
    exact ⟨_, .comparedTo hJ (valueFor_code hinterface (hto T rfl) code), fun _ _ _ _ _ h => h⟩
  | converted =>
    refine ⟨.convert I code.expr, .converted (e := ⟨.unknown, .convert I code.expr⟩) rfl ?_, ?_⟩
    · rw [Term.ofExpr, category_interface hI]
      exact valueFor_code hI (t.assignable_refl I) _
    · intro x r m v hx h
      have hvalue : eval x r code.expr m = Run.check (.ok v) m := h
      rw [eval, Run.bind_checked hvalue, hx]
      change (Run.check (m.heap.convert t v I) >>= _) m = _
      rw [convert_interface hI]
      rfl

end Boxing

/-! ### Constants and variables -/

namespace Term

variable {t : TypeTable} {x y z : Term}

/-- A constant that has a type itself was represented in it. -/
def Represented (t : TypeTable) : Term → Prop
  | const c (some ty) => ∃ c₀ : Constant, c₀.represent t ty = .ok c
  | const _ none | code _ _ => True

/-- A constant that is checked against a type is represented in it. -/
theorem ofConst_represented {c : Constant} {type? : Option Ty} (h : ofConst t c type? = .ok x) :
    x.Represented t := by
  cases type? with
  | none =>
    cases h
    trivial
  | some ty =>
    obtain ⟨d, hd, h⟩ := Compile.rules_ok h
    cases h
    exact ⟨c, hd⟩

/-- A unary operator gives a constant that is represented in its type. -/
theorem unary_represented {op : UnaryOp} (h : x.unary t op = .ok y) : y.Represented t := by
  cases x with
  | const c type? =>
    have hchecked (folded : Except Fault Constant)
        (h : (folded >>= fun d => ofConst t d type?) = .ok y) : y.Represented t := by
      obtain ⟨d, -, h⟩ := Compile.rules_ok h
      exact ofConst_represented h
    unfold unary at h
    dsimp only at h
    split at h
    · split at h <;> exact hchecked _ h
    · exact hchecked _ h
  | code e ty =>
    unfold unary at h
    dsimp only at h
    split at h <;> cases h <;> trivial

/-- A binary operator on constants gives a constant that is represented in its type. -/
theorem fold_represented {op : BinaryOp} {a b : Constant} {ta tb : Option Ty}
    (h : fold t op a ta b tb = .ok z) : z.Represented t := by
  cases hshift : op.isShift with
  | true =>
    rw [fold, if_pos hshift] at h
    obtain ⟨d, -, h⟩ := Compile.rules_ok h
    exact ofConst_represented h
  | false =>
    obtain ⟨d, -, h⟩ := StraightLine.fold_ok hshift h
    split at h
    · cases h
      trivial
    · exact ofConst_represented h

/-- A constant that is converted to a type is represented in it. -/
theorem convertedConst_represented {c : Constant} {ty : Ty}
    (h : Compile.convertedConst t c ty = .ok x) : x.Represented t := by
  rw [Compile.convertedConst.eq_def] at h
  split at h
  · rename_i i hcategory
    cases h
    refine ⟨.str (codePointText i), ?_⟩
    rw [TypeTable.category] at hcategory
    unfold Constant.represent
    dsimp only
    rw [hcategory]
  · obtain ⟨d, hd, h⟩ := Compile.rules_ok h
    cases h
    exact ⟨_, hd⟩

end Term

/-- A constant that is declared with a type is represented in it, one that is declared without a
type has the type of its value. -/
theorem constEntity_represented {t : TypeTable} {declared : Option Ty} {c d : Constant}
    {type? type?' : Option Ty} (hc : (Term.const c type?).Represented t)
    (h : Compile.constEntity t declared c type? = .ok (.const d type?')) :
    (Term.const d type?').Represented t := by
  cases declared with
  | none =>
    cases h
    exact hc
  | some ty =>
    have hchecked (h : (c.represent t ty >>= fun d => pure (Entity.const d (some ty))) =
        .ok (.const d type?')) : (Term.const d type?').Represented t := by
      obtain ⟨_, hd, h⟩ := Compile.rules_ok h
      cases h
      exact ⟨c, hd⟩
    cases type? with
    | none => exact hchecked h
    | some own =>
      obtain ⟨_, -, h⟩ := Compile.rules_ok h
      exact hchecked h

namespace Constant

/-- The constant is an operand with the type `T`, which it has itself or takes by default. -/
structure HasType (c : Constant) (t : TypeTable) (type? : Option Ty) (T : Ty) : Prop where
  type : (Term.const c type?).type = .ok T
  represented : (Term.const c type?).Represented t

variable {t : TypeTable} {c d : Constant} {type? : Option Ty} {T : Ty}

/-- A type of its own is the type of a constant. -/
theorem HasType.own (h : c.HasType t type? T) : ∀ ty ∈ type?, ty = T := by
  rintro ty hty
  rw [Option.mem_def] at hty
  subst hty
  exact Except.ok.inj h.type

/-- A constant is represented as it is in its type, if it has none in its default type. -/
theorem HasType.represent (h : c.HasType t type? T) (hvalue : type? = none → c.IsValue) :
    c.represent t T = .ok c := by
  cases type? with
  | some ty =>
    obtain rfl := h.own ty rfl
    obtain ⟨c₀, hc₀⟩ := h.represented
    exact represent_represent hc₀
  | none =>
    refine represent_default (hvalue rfl) ?_
    have htype := h.type
    rw [Term.type] at htype
    split at htype
    · rename_i hdefault
      rw [hdefault, Except.ok.inj htype]
    · cases htype

/-- A type that has nil as a value can be nil. -/
theorem isNilable_of_represent (h : nil.represent t T = .ok d) :
    TypeTable.IsNilable (t.kind T) := by
  unfold represent at h
  dsimp only at h
  generalize t.kind T = k at h ⊢
  cases k <;> first | (simp [TypeTable.IsNilable]; done) | cases h

/-- A constant that a type leaves as it is is stored as its own value, unless the type is
unsigned. -/
theorem setConst_signed {p : Place} {i : Code.Instr} (hsigned : t.category p.type ≠ .uint)
    (hrepresent : c.represent t p.type = .ok c) (h : p.setConst t c = .ok i) :
    i = p.store (.const c.value) := by
  have hvalue := toValue_signed hsigned hrepresent
  rw [Place.setConst, hvalue, hrepresent] at h
  split at h
  · -- a boolean is stored by its truth value
    cases c with
    | bool b =>
      cases h
      rfl
    | _ => cases h
  all_goals first
    | exact (Except.ok.inj h).symm
    | skip
  split at h
  · cases h
  · split at h
    · rename_i hnil
      cases c with
      | nil =>
        rw [TypeTable.zero_nilable (isNilable_of_represent hrepresent)] at h
        exact (Except.ok.inj h).symm
      | _ => cases hnil
    · exact (Except.ok.inj h).symm

/-- A variable of a type that is not unsigned, initialized with a constant of the type, holds the
own value of the constant. -/
theorem HasType.initial (h : c.HasType t type? T) (hsigned : t.category T ≠ .uint)
    (hrepresent : c.represent t T = .ok c) {depth slot : Nat} {v : Value}
    (hset : (Place.var depth slot T).set t (.term (.const c type?)) =
      .ok ((Place.var depth slot T).store (.const v))) : v = c.value := by
  have hconst : (Place.var depth slot T).setConst t c =
      .ok ((Place.var depth slot T).store (.const v)) := by
    cases type? with
    | none => exact hset
    | some ty =>
      obtain rfl := h.own ty rfl
      obtain ⟨_, -, hset⟩ := Compile.rules_ok hset
      exact hset
  cases setConst_signed hsigned hrepresent hconst
  rfl

end Constant

/-- Code of a category has a value that is stored in the way of the category. -/
theorem eval_ofCategory {category : Category} {e : Code.Expr} {x : Context} {r : Nat} {m : Machine}
    {v : Value} (hexpect : v.expect category = .ok v) (h : eval x r e m = .ok v m) :
    eval x r (Code.Typed.ofCategory category e).expr m = .ok v m := by
  have hvalue : eval x r e m = Run.check (.ok v) m := h
  have hchecked : eval x r (.expect category e) m = .ok v m := by
    rw [eval, Run.bind_checked hvalue]
    change Run.check (v.expect category) m = _
    rw [hexpect]
    rfl
  cases category with
  | func | unknown => exact h
  | _ => exact hchecked

/-- **Constants as values of interfaces.**  A constant is representable in its type, and wherever
a value of an interface is needed the constant compiles and so does a variable that is initialized
with it, and both have the same value, if the type is not unsigned and a constant without type is a
value of its default type. -/
theorem boxed_agrees {t : TypeTable} {c : Constant} {type? : Option Ty} {T I : Ty}
    (hc : c.HasType t type? T) (hvalue : type? = none → c.IsValue)
    (hsigned : t.category T ≠ .uint) (hI : t.isInterface I = true)
    (hassignable : t.assignable T I = true) {use : Boxing} (huse : use.At I) :
    (∃ d, c.represent t T = .ok d) ∧
      ∀ (depth slot : Nat) (v : Value), (Place.var depth slot T).set t (.term (.const c type?)) =
        .ok ((Place.var depth slot T).store (.const v)) →
      ∃ e e', use.Gives t I (.const c type?) e ∧
        use.Gives t I (.ofExpr t (.load depth slot) T) e' ∧
        ∀ (x : Context) (r record : Nat) (m : Machine), x.types = t →
          m.ancestor? r depth = some record → (m.record record).get slot = v →
          eval x r e m = .ok v m ∧ eval x r e' m = .ok v m := by
  have hrepresent := hc.represent hvalue
  refine ⟨⟨c, hrepresent⟩, fun depth slot v hset => ?_⟩
  obtain rfl := hc.initial hsigned hrepresent hset
  have hown : ∀ ty ∈ type?, t.assignable ty I = true := fun ty hty => hc.own ty hty ▸ hassignable
  obtain ⟨e', hgives, hsame⟩ := Boxing.gives_code hI hassignable
    (.ofCategory (t.category T) (.load depth slot)) huse
  refine ⟨_, e', Boxing.gives_const hI hown huse, hgives, fun x r record m hx hrecord hslot => ?_⟩
  refine ⟨rfl, hsame x r m _ hx ?_⟩
  have hload : eval x r (.load depth slot) m = .ok c.value m := by
    rw [eval_load hrecord, hslot]
  exact eval_ofCategory (Constant.expect_value hsigned hrepresent) hload

/-- A variable that is initialized with an integer of its own type. -/
theorem set_var_int {t : TypeTable} {i : Int} {T : Ty} {depth slot : Nat} {v : Value}
    (hcategory : t.category T = .int ∨ t.category T = .uint)
    (hvalue : (Constant.int i).toValue t T = .ok v) :
    (Place.var depth slot T).set t (.term (.const (.int i) (some T))) =
      .ok ((Place.var depth slot T).store (.const v)) := by
  have hassignable : Term.requireAssignable t T (Place.var depth slot T).type = .ok () :=
    Boxing.requireAssignable_ok (t.assignable_refl T)
  rw [Place.set, hassignable]
  change (Place.var depth slot T).setConst t (.int i) = _
  rw [Place.setConst]
  rcases hcategory with h | h <;>
    rw [show (Place.var depth slot T).type = T from rfl, h, hvalue] <;>
    rfl

/-- The constant -5 of the type `int8`. -/
def shortMinusFive : Term :=
  .const (.int (-5)) (some (.basic .int8))

/-- The constant -5 of the type `int8`, converted to an interface. -/
theorem shortMinusFive_boxed_agrees :
    (Place.var 0 3 (.basic .int8)).set .empty (.term shortMinusFive) =
      .ok ((Place.var 0 3 (.basic .int8)).store (.const (.int (-5)))) ∧
    ∃ e e', Boxing.converted.Gives .empty (.interface []) shortMinusFive e ∧
      Boxing.converted.Gives .empty (.interface [])
        (.ofExpr .empty (.load 0 3) (.basic .int8)) e' ∧
      ∀ (x : Context) (r record : Nat) (m : Machine), x.types = .empty →
        m.ancestor? r 0 = some record → (m.record record).get 3 = .int (-5) →
        eval x r e m = .ok (.int (-5)) m ∧ eval x r e' m = .ok (.int (-5)) m := by
  have hset : (Place.var 0 3 (.basic .int8)).set .empty (.term shortMinusFive) =
      .ok ((Place.var 0 3 (.basic .int8)).store (.const (.int (-5)))) :=
    set_var_int (.inl rfl) rfl
  have huse : Boxing.converted.At (.interface []) := trivial
  have hc : (Constant.int (-5)).HasType .empty (some (.basic .int8)) (.basic .int8) :=
    ⟨rfl, .int (-5), rfl⟩
  exact ⟨hset, (boxed_agrees hc (fun h => by cases h) (by decide) rfl (by decide +kernel)
    huse).2 0 3 _ hset⟩

/-- The constant 5 of the type `uint8`. -/
def byteFive : Term :=
  .const (.int 5) (some (.basic .uint8))

/-- The greatest integer of 64 bits without sign, as a constant without type. -/
def allOnes : Constant :=
  .int 18446744073709551615

/-- The constant 5 of the type `uint8` as a value of an interface is the signed 5, but a variable
holds the unsigned 5, which is not equal to it.  An integer of 64 ones without type is -1 as a value
of an interface, though it is not representable in `int`. -/
theorem byteFive_boxed_differs :
    (byteFive.Represented .empty ∧
      (Place.var 0 0 (.basic .uint8)).set .empty (.term byteFive) =
        .ok ((Place.var 0 0 (.basic .uint8)).store (.const (.uint 5))) ∧
      Boxing.passed.Gives .empty (.interface []) byteFive (.const (.int 5)) ∧
      (Value.int 5).same (.uint 5) = false) ∧
    allOnes.HasType .empty none (.basic .int) ∧
      (¬∃ d, allOnes.represent .empty (.basic .int) = .ok d) ∧
      Boxing.passed.Gives .empty (.interface []) (.untyped allOnes) (.const (.int (-1))) := by
  have hassignable : ∀ ty ∈ some (Ty.basic .uint8),
      TypeTable.empty.assignable ty (.interface []) = true := by
    rintro _ ⟨⟩
    decide +kernel
  have hbyte : Boxing.passed.Gives .empty (.interface []) byteFive (.const (.int 5)) :=
    .passed (Boxing.valueFor_const rfl hassignable)
  have hones : Boxing.passed.Gives .empty (.interface []) (.untyped allOnes) (.const (.int (-1))) :=
    .passed (Boxing.valueFor_const rfl (by rintro _ ⟨⟩))
  refine ⟨⟨⟨.int 5, rfl⟩, set_var_int (.inr rfl) rfl, hbyte, rfl⟩, ⟨rfl, trivial⟩, ?_, hones⟩
  rintro ⟨d, hd⟩
  cases hd

end ScriptCore
