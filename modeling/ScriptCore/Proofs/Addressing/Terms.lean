import ScriptCore.Compile.Syntax
import ScriptCore.Proofs.Addressing.Agrees

/-!
# Code that rules make of code

The rules that make code of other code put it together from what they are given and from constants,
which hold no functions.  So what they give is covered by a world if what they are given is.

Main statements: `Term.binary_covers`, `Place.set_stores` and `Compile.argumentsOf_covers`.
-/

namespace ScriptCore

variable {w : World} {t : TypeTable}

/-! ### Values without functions -/

namespace TypeTable

variable {allowed : Nat → Prop}

/-- The zero of a kind holds no function. -/
theorem kindZero_only (k : Kind) : k.zero.Only allowed := by
  unfold Kind.zero
  cases k.category <;> trivial

mutual

/-- The zero of a type holds no function if those of named types hold none. -/
theorem zeroWith_only {named : Nat → Value} (h : ∀ id, (named id).Only allowed) :
    ∀ ty : Ty, (zeroWith named ty).Only allowed
  | .basic k => kindZero_only k
  | .struct fields => zeroFields_only h fields
  | .named id _ _ => h id
  | .slice _ | .array _ _ | .map _ _ | .pointer _ | .func _ _ _ _ | .interface _ => trivial

/-- The zeros of fields hold no function if those of named types hold none. -/
theorem zeroFields_only {named : Nat → Value} (h : ∀ id, (named id).Only allowed) :
    ∀ fields : List (FieldOf Ty), Value.OnlyAll allowed (zeroFields named fields)
  | [] => trivial
  | ⟨_, ty, _⟩ :: fields => ⟨zeroWith_only h ty, zeroFields_only h fields⟩

end

/-- The zero of a type holds no function. -/
theorem zero_only (t : TypeTable) (ty : Ty) : (t.zero ty).Only allowed := by
  have hnamed : ∀ fuel id, (t.zeroNamed fuel id).Only allowed := by
    intro fuel
    induction fuel with
    | zero => exact fun _ => trivial
    | succ fuel ih =>
        intro id
        rw [zeroNamed]
        cases t.definition? id with
        | none => trivial
        | some r => exact zeroWith_only ih r.type
  exact zeroWith_only (hnamed _) ty

end TypeTable

/-- The value of a constant holds no function. -/
theorem Constant.toValue_only {allowed : Nat → Prop} (c : Constant) (ty : Ty) :
    Yields (fun v => Value.Only allowed v) (c.toValue t ty) := by
  have hvalue : ∀ c : Constant, c.value.Only allowed := by
    intro c
    cases c <;> trivial
  refine .bind fun r => ?_
  split
  · exact .ok trivial
  · exact .ok (hvalue _)

/-- The zero of a type is admitted everywhere. -/
theorem World.holds_zero (ty : Ty) : w.Holds (.value (t.zero ty)) :=
  World.holds_value.2 (t.zero_only ty)

/-! ### Terms and operands -/

namespace Term

/-- Code that is checked when it is read. -/
theorem ofExpr_covers {e : Code.Expr} {ty : Ty} (h : w.Covers e) : w.Covers (ofExpr t e ty) := by
  have hparts : (Code.Typed.ofCategory (t.category ty) e).expr.parts = e.parts := by
    unfold Code.Typed.ofCategory
    split <;> rfl
  rw [World.covers_term, ofExpr, parts, hparts]
  exact h

/-- A fixed value. -/
theorem fixed_covers (c : Constant) (ty : Ty) : Yields w.Covers (fixed t c ty) := by
  have hvalue : Yields (fun v => Value.Only w.allowed v) (c.toValue t ty) := c.toValue_only ty
  refine .bind_of hvalue fun v hv => .ok ?_
  have hexpr : (Code.Typed.constant (t.category ty) v).expr = .const v := by
    unfold Code.Typed.constant
    split <;> rfl
  rw [World.covers_typed, hexpr]
  simpa [Code.Expr.parts] using hv

/-- Code for a term. -/
theorem valueOf_covers {x : Term} (h : w.Covers x) :
    Yields (fun r => w.Covers r.1) (x.valueOf t) := by
  unfold valueOf
  split
  · exact .bind fun ty => .bind_of (fixed_covers _ _) fun e he => .ok he
  · exact .ok h

/-- Code for a term as a value of a type. -/
theorem valueFor_covers {x : Term} (h : w.Covers x) (target : Ty) :
    Yields w.Covers (x.valueFor t target) := by
  unfold valueFor
  split
  · exact fixed_covers _ _
  · exact .bind fun _ => fixed_covers _ _
  · refine .bind fun _ => .ok ?_
    split
    · exact h
    · exact h

/-- A constant holds no code. -/
theorem const_covers (c : Constant) (ty : Option Ty) : w.Covers (const c ty) :=
  World.admits_nil

/-- A constant that is checked against a type. -/
theorem ofConst_covers (c : Constant) (ty : Option Ty) : Yields w.Covers (ofConst t c ty) := by
  cases ty with
  | none => exact .ok (const_covers _ _)
  | some ty => exact .bind fun _ => .ok (const_covers _ _)

/-- A unary operator. -/
theorem unary_covers (op : UnaryOp) {x : Term} (h : w.Covers x) :
    Yields w.Covers (x.unary t op) := by
  unfold unary
  split
  · dsimp only
    split
    · split
      · exact .bind fun _ => ofConst_covers _ _
      · exact .bind fun _ => ofConst_covers _ _
    · exact .bind fun _ => ofConst_covers _ _
  · dsimp only
    split <;> first | exact .ok h | exact .error _

/-- An operator on constants. -/
theorem fold_covers (op : BinaryOp) (a b : Constant) (ta tb : Option Ty) :
    Yields w.Covers (fold t op a ta b tb) := by
  have hrest : Yields w.Covers (do
      let c ← Constant.binary op a b
      if op.isComparison then return untyped c else ofConst t c (ta.or tb)) := by
    refine .bind fun c => ?_
    split
    · exact .ok (const_covers _ _)
    · exact ofConst_covers _ _
  unfold fold
  split
  · exact .bind fun _ => ofConst_covers _ _
  · dsimp only
    split
    · split
      · exact .bind fun _ => hrest
      · exact hrest
    · exact hrest

/-- Count of a shift. -/
theorem shiftCount_covers (op : BinaryOp) {x : Term} (h : w.Covers x) :
    Yields w.Covers (shiftCount t op x) := by
  unfold shiftCount
  split
  · split
    · split
      · exact .ok (by simp [World.covers_expr, Code.Expr.parts, Value.Only])
      · exact .error _
    · exact .error _
  · refine .bind_of (valueOf_covers h) fun r hr => ?_
    dsimp only
    split
    · exact .ok hr
    · exact .error _

/-- A shift. -/
theorem shift_covers (op : BinaryOp) {x y : Term} (hx : w.Covers x) (hy : w.Covers y) :
    Yields w.Covers (shift t op x y) := by
  refine .bind_of (shiftCount_covers op hy) fun count hcount =>
    .bind_of (valueOf_covers hx) fun r hr => ?_
  dsimp only
  split
  · exact .ok (World.admits_append.2 ⟨hr, hcount⟩)
  · exact .error _

/-- An operator that is no shift. -/
theorem converted_covers (op : BinaryOp) {x y : Term} (hx : w.Covers x) (hy : w.Covers y) :
    Yields w.Covers (converted t op x y) := by
  refine .bind fun ty => .bind_of (valueFor_covers hx ty) fun a ha =>
    .bind_of (valueFor_covers hy ty) fun b hb => ?_
  have hboth : w.Admits (a.expr.parts ++ b.expr.parts) := World.admits_append.2 ⟨ha, hb⟩
  split
  · split
    · unfold comparison
      split
      · exact .ok hboth
      · exact .error _
    · exact .error _
  · split
    · unfold logical
      split
      · split
        · exact .ok hboth
        · exact .ok hboth
      · exact .error _
    · unfold arithmetic
      split
      · exact .ok hboth
      · exact .error _

/-- A binary operator. -/
theorem binary_covers (op : BinaryOp) {x y : Term} (hx : w.Covers x) (hy : w.Covers y) :
    Yields w.Covers (x.binary t op y) := by
  unfold binary
  split
  · exact fold_covers op _ _ _ _
  · split
    · exact shift_covers op hx hy
    · exact converted_covers op hx hy

end Term

namespace Operand

variable {op : Operand}

/-- The results of a call. -/
theorem ofCall_covers {call : Code.Call} (h : w.Covers call) (types : List Ty) :
    w.Covers (ofCall t call types) := by
  unfold ofCall
  split
  · exact Term.ofExpr_covers h
  · exact h

/-- The one value of an operand. -/
theorem single_covers (h : w.Covers op) : Yields w.Covers op.single := by
  cases op with
  | term x => exact .ok h
  | results call types => exact .error _

/-- Code for the one value of an operand. -/
theorem valueOf_covers (h : w.Covers op) : Yields (fun r => w.Covers r.1) (op.valueOf t) :=
  .bind_of (single_covers h) fun _ hx => Term.valueOf_covers hx

/-- Code for the one value of an operand as a value of a type. -/
theorem valueFor_covers (h : w.Covers op) (target : Ty) : Yields w.Covers (op.valueFor t target) :=
  .bind_of (single_covers h) fun _ hx => Term.valueFor_covers hx target

end Operand

/-! ### Places -/

namespace Place

variable {p : Place}

/-- Storing in a place. -/
theorem store_covers {e : Code.Expr} (hp : w.Covers p) (he : w.Covers e) :
    w.Covers (p.store e) := by
  rw [World.covers_place, parts, World.admits_append] at hp
  rw [World.covers_instr]
  simp only [store, Code.Instr.parts, Code.Instr.sources, Code.Instr.targets, List.filterMap_nil,
    List.map_nil, List.append_nil, World.admits_append]
  exact ⟨hp.1, hp.2, he⟩

/-- A variable. -/
theorem var_covers {depth slot : Nat} {ty : Ty} (h : w.Admits [.slot depth slot]) :
    w.Covers (var depth slot ty) := by
  simpa [World.covers_place, parts, var, Code.Container.parts, Code.partsOf?] using h

/-- A field of a place. -/
theorem field_covers (hp : w.Covers p) (index : Nat) (ty : Ty) :
    w.Covers (p.field t index ty) := by
  rw [World.covers_place, parts, World.admits_append] at hp
  simp [World.covers_place, parts, field, Code.Container.parts, Code.partsOf?, hp, t.zero_only]

/-- An instruction that stores some value in a place, covered code for it. -/
def Stores (w : World) (p : Place) (i : Code.Instr) : Prop :=
  ∃ e : Code.Expr, w.Covers e ∧ i = p.store e

/-- A value stored as a constant. -/
theorem storeConst_stores {v : Value} (hv : v.Only w.allowed) : Stores w p (p.store (.const v)) :=
  ⟨.const v, by simpa [World.covers_expr, Code.Expr.parts] using hv, rfl⟩

/-- Assigning a constant stores it. -/
theorem setConst_stores (c : Constant) : Yields (Stores w p) (p.setConst t c) := by
  unfold setConst
  split
  · refine .bind fun d => ?_
    split
    · exact .ok (storeConst_stores trivial)
    · exact .error _
  all_goals
    first
      | exact .bind_of (c.toValue_only _) fun v hv => .ok (storeConst_stores hv)
      | skip
  split
  · exact .error _
  · split
    · exact .ok (storeConst_stores (t.zero_only _))
    · exact .bind_of (c.toValue_only _) fun v hv => .ok (storeConst_stores hv)

/-- Assigning the value of an expression stores it. -/
theorem setExpr_stores {e : Code.Typed} (he : w.Covers e) :
    Yields (Stores w p) (p.setExpr t e) := by
  have hstore : Stores w p (p.store e.expr) := ⟨e.expr, he, rfl⟩
  have hnarrow : ∀ k, Stores w p (p.store (.narrow k e.expr)) := fun k =>
    ⟨.narrow k e.expr, he, rfl⟩
  have hensure : Stores w p (p.store (.ensure p.type (t.zero p.type) e.expr)) :=
    ⟨.ensure p.type (t.zero p.type) e.expr, World.admits_cons.2 ⟨World.holds_zero _, he⟩, rfl⟩
  unfold setExpr
  dsimp only
  split <;> first | exact .ok hstore | exact .ok (hnarrow _) | exact .error _ | skip
  all_goals
    split
    · exact .error _
    · exact .ok hensure

/-- Assigning an operand stores it. -/
theorem set_stores {op : Operand} (hop : w.Covers op) : Yields (Stores w p) (p.set t op) := by
  unfold set
  split
  · exact setConst_stores _
  · exact .bind fun _ => setConst_stores _
  · exact .bind_of (Operand.valueFor_covers hop _) fun e he => setExpr_stores he

/-- Assigning an operand. -/
theorem set_covers (hp : w.Covers p) {op : Operand} (hop : w.Covers op) :
    Yields w.Covers (p.set t op) :=
  (set_stores hop).imp fun _ ⟨_, he, hi⟩ => hi ▸ store_covers hp he

/-- Applying an operator in place. -/
theorem setOp_covers (hp : w.Covers p) (op : BinaryOp) {e : Code.Typed} (he : w.Covers e) :
    Yields w.Covers (p.setOp t op e) := by
  rw [World.covers_place, parts, World.admits_append] at hp
  have hinstr : w.Covers
      (.update p.container p.key op (t.kind p.type) e.expr (t.zero p.type) : Code.Instr) := by
    rw [World.covers_instr]
    simp only [Code.Instr.parts, Code.Instr.sources, Code.Instr.targets, List.filterMap_nil,
      List.map_nil, List.append_nil, World.admits_cons, World.admits_append]
    exact ⟨World.holds_zero _, hp.1, hp.2, he⟩
  unfold setOp
  dsimp only
  split
  · exact .error _
  · split
    · split
      · exact .ok hinstr
      · exact .error _
    · split
      · exact .ok hinstr
      · exact .error _

end Place

namespace Compile

variable {op : Operand}

/-- An index. -/
theorem indexExpr_covers {x : Term} (h : w.Covers x) : Yields w.Covers (indexExpr t x) := by
  unfold indexExpr
  split
  · split
    · split
      · exact .ok (by simp [World.covers_expr, Code.Expr.parts, Value.Only])
      · exact .error _
    · exact .error _
  · refine .bind_of (Term.valueOf_covers h) fun r hr => ?_
    dsimp only
    split
    · exact .ok hr
    · exact .ok hr
    · exact .error _

/-- An index given by an operand. -/
theorem indexOperand_covers (h : w.Covers op) : Yields w.Covers (indexOperand t op) :=
  .bind_of (Operand.single_covers h) fun _ hx => indexExpr_covers hx

/-- An element. -/
theorem elementOf_covers {e : Code.Typed} (he : w.Covers e) (ty : Ty) (h : w.Covers op) :
    Yields w.Covers (elementOf t e ty op) := by
  rw [World.covers_typed] at he
  unfold elementOf
  split
  · refine .bind_of (Operand.valueFor_covers h _) fun k hk => .ok (Term.ofExpr_covers ?_)
    exact World.admits_cons.2 ⟨World.holds_zero _, World.admits_append.2 ⟨he, hk⟩⟩
  · exact .bind_of (indexOperand_covers h) fun i hi =>
      .ok (Term.ofExpr_covers (World.admits_append.2 ⟨he, hi⟩))
  · exact .bind_of (indexOperand_covers h) fun i hi => .ok (World.admits_append.2 ⟨he, hi⟩)
  · exact .error _

/-- A field. -/
theorem fieldOf_covers {e : Code.Expr} (he : w.Covers e) (ty : Ty) (name : Name) :
    Yields w.Covers (fieldOf t e ty name) := by
  unfold fieldOf
  split
  · exact .error _
  · split
    · exact .ok (Term.ofExpr_covers he)
    · exact .error _

/-- An element as a place. -/
theorem elementPlace_covers {e : Code.Typed} (he : w.Covers e) (ty : Ty) (h : w.Covers op) :
    Yields w.Covers (elementPlace t e ty op) := by
  unfold elementPlace
  split
  · exact .bind_of (Operand.valueFor_covers h _) fun k hk =>
      .ok (World.admits_append.2 ⟨he, hk⟩)
  · split
    · exact .bind_of (indexOperand_covers h) fun i hi => .ok (World.admits_append.2 ⟨he, hi⟩)
    · exact .error _
  · exact .error _

/-- A field as a place. -/
theorem fieldPlace_covers {p : Place} (hp : w.Covers p) (name : Name) :
    Yields w.Covers (fieldPlace t p name) := by
  unfold fieldPlace
  split
  · exact .ok (Place.field_covers hp _ _)
  · exact .error _

/-- What a rule gives for every argument. -/
theorem eachArgument_covers {α β : Type} [HasCode α] [HasCode β] {name : String} {s : Signature}
    {count : Nat} {f : α → Ty → Except Fault β}
    (hf : ∀ a ty, w.Covers a → Yields w.Covers (f a ty)) {as : List α} (h : w.Covers as) (i : Nat) :
    Yields w.Covers (eachArgument t name s count f i as) := by
  induction as generalizing i with
  | nil => exact .ok World.covers_nil
  | cons a rest ih =>
      rw [World.covers_cons] at h
      rw [eachArgument]
      split
      · exact .error _
      · exact .bind_of (hf a _ h.1) fun b hb => .bind_of (ih h.2 _) fun bs hbs =>
          .ok (World.covers_cons.2 ⟨hb, hbs⟩)

/-- Arguments of a call. -/
theorem argumentsOf_covers (name : String) (s : Signature) {ops : List Operand}
    (h : w.Covers ops) : Yields w.Covers (argumentsOf t name s ops) := by
  unfold argumentsOf
  dsimp only
  split
  · next call types =>
      rw [World.covers_cons] at h
      split
      · exact .bind fun _ => .ok h.1
      · exact .error _
  · split
    · refine .bind_of (eachArgument_covers (fun op ty hop => Operand.valueFor_covers hop ty) h 0)
        fun es hes => ?_
      have hexprs : w.Covers (es.map Code.Typed.expr) := by
        intro e he
        obtain ⟨x, hx, rfl⟩ := List.mem_map.1 he
        exact hes x hx
      split
      · exact .ok (World.admits_partsOf.2 hexprs)
      · refine .ok (World.admits_append.2 ⟨World.admits_partsOf.2 ?_, World.admits_partsOf.2 ?_⟩)
        · exact fun e he => hexprs e (List.mem_of_mem_take he)
        · exact fun e he => hexprs e (List.mem_of_mem_drop he)
    · exact .error _

/-- A converted term. -/
theorem convertedTerm_covers {x : Term} (h : w.Covers x) (ty : Ty) :
    Yields w.Covers (convertedTerm t x ty) := by
  unfold convertedTerm
  split
  · split
    · unfold convertedConst
      split
      · exact .ok (Term.const_covers _ _)
      · exact .bind fun _ => .ok (Term.const_covers _ _)
    · exact .bind_of (Term.valueFor_covers h ty) fun e he => .ok he
  · exact .ok (Term.ofExpr_covers h)

/-- A length. -/
theorem lengthOf_covers (b : Builtin) (h : w.Covers op) : Yields w.Covers (lengthOf t b op) := by
  unfold lengthOf
  split
  · exact .ok (Term.const_covers _ _)
  · refine .bind_of (Operand.valueOf_covers h) fun r hr => ?_
    dsimp only
    split
    all_goals first | exact .ok hr | exact .error _

/-- A new slice or map. -/
theorem made_covers (ty : Ty) {sizes : List Code.Expr} (h : w.Covers sizes) :
    Yields w.Covers (made t ty sizes) := by
  have hzero : w.Holds (.value ((t.elem? ty).elim Value.nil t.zero)) := by
    cases t.elem? ty with
    | none => exact World.holds_value.2 trivial
    | some elem => exact World.holds_zero elem
  unfold made
  split
  · dsimp only
    split
    · simp only [World.covers_cons, World.covers_nil, and_true] at h
      exact .ok (World.admits_cons.2 ⟨hzero, World.admits_append.2 ⟨h, World.admits_nil⟩⟩)
    · simp only [World.covers_cons, World.covers_nil, and_true] at h
      exact .ok (World.admits_cons.2 ⟨hzero, World.admits_append.2 h⟩)
    · exact .error _
  · split
    · exact .ok World.admits_nil
    · exact .error _
  · exact .error _

/-- Values of a declaration. -/
theorem stageDeclared_covers (declared : Option Ty) {ops : List Operand} (h : w.Covers ops) :
    Yields w.Covers (stageDeclared t declared ops) := by
  induction ops with
  | nil => exact .ok World.covers_nil
  | cons op rest ih =>
      rw [World.covers_cons] at h
      have hrest : ∀ ty, Yields w.Covers (do
          let e ← op.valueFor t ty
          return (ty, e.expr) :: (← stageDeclared t declared rest)) := fun ty =>
        .bind_of (Operand.valueFor_covers h.1 ty) fun e he => .bind_of (ih h.2) fun es hes =>
          .ok (World.covers_cons.2 ⟨World.covers_pair.2 ⟨World.covers_type ty, he⟩, hes⟩)
      cases declared with
      | none => exact .bind fun x => .bind fun ty => hrest ty
      | some ty => exact hrest ty

end Compile

end ScriptCore
