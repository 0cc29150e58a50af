import ScriptCore.Proofs.Assignment.Syntax
import ScriptCore.Proofs.Straight.Routine

/-!
# Reading a place

An expression that can be assigned to can also be read.  Compiled as an operand it loads the place
that it stands for, unless a method has the name of a field that is selected on the way: as an
operand it is then the method, as a place it is the field.

Evaluating that operand finds what loading the location finds, if the operands of the place leave
the machine as it is.

Main statements: `Compile.operand_of_place` and `Code.Container.eval_read`.
-/

namespace ScriptCore

/-! ### The operand of a place -/

namespace Code

/-- The expression that reads a location; an entry that a map does not have reads as `zero`. -/
def Container.read : Container → Option Expr → Value → Expr
  | .var depth slot, _, _ => .load depth slot
  | .map e, some key, zero => .mapGet e key zero
  | .map _, none, zero => .const zero
  | .slice e, some key, _ => .sliceGet e key
  | .slice e, none, _ => .sliceGet e (.const (.int (-1)))
  | .field base key index zero, _, _ => .field index (base.read key zero)

end Code

/-- The expression that reads a place. -/
def Place.read (t : TypeTable) (p : Place) : Code.Expr :=
  p.container.read p.key (t.zero p.type)

namespace Compile

/-- No method hides a field that is selected on the way to a place. -/
def FieldsVisible (c : Compiler) : Expr → Prop
  | .node _ (.paren e) => FieldsVisible c e
  | .node _ (.selector base field) =>
    FieldsVisible c base ∧
      ∀ b d, placeOf base c = .ok (some b, d) → c.method? b.type field = none
  | _ => True

variable {c d : Compiler} {t : TypeTable}

/-- A step that keeps the body changes nothing but the types. -/
theorem Stable.types_only {α : Type} {p : Compile α} (h : Stable false p)
    (hs : c.types.Settled) {a : α} (hp : p c = .ok (a, d)) :
    d = { c with types := d.types } ∧ d.types.Settled := by
  obtain ⟨hkept, d', hp', hlike⟩ := h c c a d (.refl hs) hp
  exact ⟨hkept.rest, hlike.settled⟩

/-- A type with fields is no interface, and its values are not checked when they are read. -/
theorem fields_of_pointed {ty : Ty} {name : Name} {found : Nat × Field}
    (h : t.fieldByName? (Compiler.pointed ty) name = some found) :
    t.isInterface ty = false ∧ t.category ty = .unknown := by
  have hstruct : ∃ fs, t.underlying (Compiler.pointed ty) = .struct fs := by
    unfold TypeTable.fieldByName? TypeTable.fields at h
    split at h
    · exact ⟨_, ‹_›⟩
    · cases h
  obtain ⟨fs, hfs⟩ := hstruct
  cases ty with
  | pointer ty =>
      exact ⟨rfl, rfl⟩
  | _ =>
      rw [Compiler.pointed] at hfs
      · refine ⟨?_, ?_⟩
        · rw [TypeTable.isInterface, TypeTable.interfaceMethods?, hfs]
          rfl
        · rw [TypeTable.category, TypeTable.kind, hfs]
          rfl
      · intro _ h
        cases h

/-- Values that are not checked when they are read. -/
theorem ofExpr_unknown {ty : Ty} (h : t.category ty = .unknown) (e : Code.Expr) :
    Term.ofExpr t e ty = .code ⟨.unknown, e⟩ ty := by
  rw [Term.ofExpr, h]
  rfl

/-- A field of the value of a place is read from the value of the place. -/
theorem fieldOf_place {b p : Place} {name : Name} (h : fieldPlace t b name = .ok p) :
    t.category b.type = .unknown ∧
      fieldOf t (b.read t) b.type name = .ok (.ofExpr t (p.read t) p.type) := by
  unfold fieldPlace at h
  cases hfound : t.fieldByName? (Compiler.pointed b.type) name with
  | none =>
      rw [hfound] at h
      cases h
  | some found =>
      rw [hfound] at h
      cases h
      obtain ⟨hiface, hcategory⟩ := fields_of_pointed hfound
      refine ⟨hcategory, ?_⟩
      rw [fieldOf, hiface, Bool.false_and, if_neg Bool.false_ne_true, hfound]
      rfl

/-- An element is read where it is as a place. -/
theorem elementOf_place {e : Code.Typed} {ty : Ty} {key : Operand} {p : Place}
    (h : elementPlace t e ty key = .ok p) :
    elementOf t e ty key = .ok (.ofExpr t (p.read t) p.type) := by
  unfold elementPlace at h
  split at h
  · rename_i keyType elem hkey helem
    have hkind : t.kind ty = .map := by
      unfold TypeTable.key? at hkey
      split at hkey
      · rename_i hmap
        rw [TypeTable.kind, hmap]
        rfl
      · cases hkey
    obtain ⟨k, hk, h⟩ := rules_ok h
    cases h
    simp only [elementOf, hkind, hkey, helem, hk]
    rfl
  · rename_i elem hkey helem
    by_cases hkind : t.kind ty = .slice
    · rw [if_pos hkind] at h
      obtain ⟨i, hi, h⟩ := rules_ok h
      cases h
      simp only [elementOf, hkind, helem, hi]
      rfl
    · rw [if_neg hkind] at h
      cases h
  · cases h

/-- A name that has a meaning. -/
theorem resolve_ok {name : Name} {m : Meaning} :
    resolve name c = .ok (m, d) ↔ c.resolve name = some m ∧ c = d := by
  cases h : c.resolve name with
  | none => simp [resolve_none h]
  | some m' => simp [resolve_some h]

/-- The name that stands for a place stands for no package. -/
theorem packageMember?_of_place {base : Expr} {b : Place} (h : placeOf base c = .ok (some b, d))
    (field : Name) : packageMember? base.identifier? field c = .ok (none, c) := by
  have hnone (hbase : base.identifier? = none) :
      packageMember? base.identifier? field c = .ok (none, c) := by
    rw [hbase]
    rfl
  obtain ⟨span, kind⟩ := base
  cases kind with
  | ident name =>
      simp only [placeOf, at'_ok, namedPlace] at h
      split at h
      · cases h
      · obtain ⟨m, c₁, hm, h⟩ := bind_ok.1 h
        refine bind_ok.2 ⟨c, c, rfl, ?_⟩
        rw [Expr.identifier?, Option.bind_some, (resolve_ok.1 hm).1]
        cases m with
        | package p => cases h
        | _ => rfl
  | _ => exact hnone rfl

/-- What an expression gives as an operand where it stands for a place. -/
def Reads (c : Compiler) (x : Expr) : Prop :=
  ∀ p d, placeOf x c = .ok (some p, d) →
    operand x c = .ok (.term (.ofExpr d.types (p.read d.types) p.type), d)

/-- A name. -/
theorem reads_ident (span : Span) (name : Name) : Reads c (.node span (.ident name)) := by
  intro p d hp
  rw [operand_node, at'_ok, operandOf, identifier]
  simp only [placeOf, at'_ok, namedPlace] at hp
  split at hp
  · cases hp
  · obtain ⟨m, c₁, hm, hp⟩ := bind_ok.1 hp
    refine bind_ok.2 ⟨m, c₁, hm, ?_⟩
    cases m with
    | var depth slot ty =>
        cases hp
        rfl
    | _ => cases hp

/-- An index expression. -/
theorem reads_index (span : Span) (container key : Expr) :
    Reads c (.node span (.index container key)) := by
  intro p d hp
  rw [operand_node, at'_ok, operandOf, index]
  simp only [placeOf, at'_ok, indexPlace, bind_ok, rule_ok, pure_ok] at hp
  obtain ⟨cont, c₁, hcont, ⟨e, ty⟩, _, ⟨hvalue, rfl⟩, k, c₂, hk, p', _, ⟨hplace, rfl⟩, hp', rfl⟩ :=
    hp
  obtain rfl := Option.some.inj hp'
  simp only [bind_ok, rule_ok, pure_ok]
  exact ⟨cont, c₁, hcont, (e, ty), c₁, ⟨hvalue, rfl⟩, k, c₂, hk, _, c₂,
    ⟨elementOf_place hplace, rfl⟩, rfl, rfl⟩

/-- A selector, if no method hides the field. -/
theorem reads_selector (span : Span) {base : Expr} (field : Name) (hs : c.types.Settled)
    (hbase : Reads c base)
    (hmethod : ∀ b d, placeOf base c = .ok (some b, d) → c.method? b.type field = none) :
    Reads c (.node span (.selector base field)) := by
  intro p d hp
  rw [operand_node, at'_ok, operandOf, selector]
  simp only [placeOf, at'_ok, selectorPlace] at hp
  obtain ⟨b?, c₁, hb, hp⟩ := bind_ok.1 hp
  cases b? with
  | none => cases hp
  | some b =>
      simp only [bind_ok, rule_ok, pure_ok] at hp
      obtain ⟨p', _, ⟨hfield, rfl⟩, hp', rfl⟩ := hp
      obtain rfl := Option.some.inj hp'
      obtain ⟨hcategory, hread⟩ := fieldOf_place hfield
      have hoperand := hbase b c₁ hb
      rw [ofExpr_unknown hcategory] at hoperand
      have hnone : c₁.method? b.type field = none := by
        rw [((placeOf_stable base false).types_only hs hb).1]
        exact hmethod b c₁ hb
      refine bind_ok.2 ⟨none, c, packageMember?_of_place hb field, ?_⟩
      refine bind_ok.2 ⟨_, c₁, hoperand, ?_⟩
      refine bind_ok.2 ⟨(⟨.unknown, b.read c₁.types⟩, b.type), c₁, rfl, ?_⟩
      unfold select
      dsimp only
      rw [get_bind, hnone]
      exact bind_ok.2 ⟨_, c₁, rule_ok.2 ⟨hread, rfl⟩, rfl⟩

/-- **As an operand, an expression loads the place that it stands for.** -/
theorem operand_of_place (hs : c.types.Settled) : ∀ x : Expr, FieldsVisible c x → Reads c x
  | .node span (.ident name), _ => reads_ident span name
  | .node span (.paren e), hv => by
      simp only [FieldsVisible] at hv
      intro p d hp
      rw [operand_node, at'_ok, operandOf]
      simp only [placeOf, at'_ok] at hp
      exact operand_of_place hs e hv p d hp
  | .node span (.index container key), _ => reads_index span container key
  | .node span (.selector base field), hv => by
      simp only [FieldsVisible] at hv
      exact reads_selector span field hs (operand_of_place hs base hv.1) hv.2
  | .node span .nil, _ | .node span (.bool _), _ | .node span (.int _), _
  | .node span (.float _), _ | .node span (.imag _), _ | .node span (.str _), _
  | .node span (.unary _ _), _ | .node span (.binary _ _ _), _ | .node span (.call _ _), _
  | .node span (.composite _ _), _ | .node span (.funcLit _ _), _ | .node span (.type _), _ => by
      intro p d hp
      simp only [placeOf] at hp
      cases hp

end Compile

/-! ### Loading a location -/

namespace Code

/-- Evaluating the expression leaves the machine as it is. -/
def Expr.Still (x : Context) (r : Nat) (m : Machine) (e : Expr) : Prop :=
  Run.after (eval x r e) m = m

/-- Evaluating the operands of the container leaves the machine as it is. -/
def Container.Still (x : Context) (r : Nat) (m : Machine) : Container → Prop
  | .var _ _ => True
  | .map e | .slice e => e.Still x r m
  | .field base key _ _ => base.Still x r m ∧ ∀ k ∈ key, k.Still x r m

end Code

/-- A run ends where its first step fails. -/
theorem Run.bind_failed {α β : Type} {a : Run α} {e : Failure} {m m' : Machine}
    (h : a m = .error e m') (f : α → Run β) : (a >>= f) m = .error e m' := by
  simp only [bind, EStateM.bind, h]

/-- A run that leaves the machine as it is gives a value or fails, and nothing else. -/
theorem Run.still_cases {α : Type} {run : Run α} {m : Machine} (h : Run.after run m = m) :
    (∃ a, run m = .ok a m) ∨ ∃ e, run m = .error e m := by
  unfold Run.after at h
  cases hrun : run m with
  | ok a m' =>
      rw [hrun] at h
      obtain rfl : m' = m := h
      exact .inl ⟨a, rfl⟩
  | error e m' =>
      rw [hrun] at h
      obtain rfl : m' = m := h
      exact .inr ⟨e, rfl⟩

/-- One run after another that left the machine as it is. -/
theorem Run.still_bind {α β : Type} {run : Run α} {next : α → Run β} {m : Machine}
    (h : Run.after run m = m) (hnext : ∀ a, Run.after (next a) m = m) :
    Run.after (run >>= next) m = m := by
  rcases Run.still_cases h with ⟨a, ha⟩ | ⟨e, he⟩
  · have hbind : (run >>= next) m = next a m := by simp only [bind, EStateM.bind, ha]
    rw [Run.after, hbind]
    exact hnext a
  · have hbind : (run >>= next) m = .error e m := by simp only [bind, EStateM.bind, he]
    rw [Run.after, hbind]

/-- A checked computation leaves the machine as it is. -/
theorem Run.still_check {α : Type} (e : Except EvalError α) (m : Machine) :
    Run.after (Run.check e) m = m := by
  cases e <;> rfl

variable {x : Context} {r : Nat} {m : Machine}

/-- What a run gives that left the machine as it is. -/
theorem Run.ok_still {α : Type} {run : Run α} {a : α} {m' : Machine}
    (h : Run.after run m = m) (hok : run m = .ok a m') : m = m' := by
  rw [Run.after, hok] at h
  exact h.symm

/-- Loading leaves the machine as it is. -/
theorem Target.load_still (target : Target) (key : Option Value) (zero : Value) (m : Machine) :
    Run.after (target.load key zero) m = m := by
  induction target generalizing key zero with
  | slot r s => rfl
  | map ref =>
      cases key with
      | none => rfl
      | some k =>
          exact Run.still_bind rfl fun m' => Run.still_bind (Run.still_check _ _) fun _ => rfl
  | nilMap => rfl
  | slice s => exact Run.still_bind rfl fun m' => Run.still_check _ _
  | field base k index z ih =>
      exact Run.still_bind (ih k z) fun v => Run.still_bind (Run.still_check _ _) fun _ => rfl

/-- The value of an optional operand. -/
theorem evalOption_still {key : Option Code.Expr} (h : ∀ k ∈ key, k.Still x r m) :
    Run.after (evalOption x r key) m = m := by
  cases key with
  | none => rfl
  | some k => exact Run.still_bind (h k rfl) fun _ => rfl

/-- A record is looked up. -/
theorem Run.ancestor_still (r depth : Nat) (m : Machine) :
    Run.after (Run.ancestor r depth) m = m := by
  rw [Run.after, Run.ancestor, Run.get_bind]
  cases m.ancestor? r depth <;> rfl

/-- Finding a location whose operands leave the machine as it is. -/
theorem locate_still : ∀ (container : Code.Container), container.Still x r m →
    Run.after (locate x r container) m = m
  | .var depth _, _ => Run.still_bind (Run.ancestor_still r depth m) fun _ => rfl
  | .map _, h => Run.still_bind h fun v => by cases v <;> rfl
  | .slice _, h => Run.still_bind h fun v => by cases v <;> rfl
  | .field base _ _ _, h =>
      Run.still_bind (locate_still base h.1) fun _ =>
        Run.still_bind (evalOption_still h.2) fun _ => rfl

/-- An entry of the map that a value refers to. -/
theorem load_map {v k zero : Value} {target : Target}
    (h : (match v with
      | .map ref => return .map ref
      | .nil => return .nilMap
      | v => Run.fail (.conversion v.typeName "map") : Run Target) m = .ok target m) :
    Run.check (mapElement m.heap v k zero) m = target.load (some k) zero m := by
  cases v with
  | map ref =>
      cases h
      change Run.check (do return (← m.heap.lookup ref k).getD zero) m =
        (do return (← Run.check (m.heap.lookup ref k)).getD zero : Run Value) m
      cases m.heap.lookup ref k <;> rfl
  | nil =>
      cases h
      rfl
  | _ => cases h

/-- An element of the slice that a value refers to. -/
theorem load_slice {v zero : Value} {key : Option Value} {target : Target}
    (h : (match v with
      | .slice s => return .slice s
      | .nil => return .slice ⟨0, 0, 0, 0⟩
      | v => Run.fail (.conversion v.typeName "slice") : Run Target) m = .ok target m) :
    Run.check (sliceElement m.heap v (keyIndex key)) m = target.load key zero m := by
  cases v with
  | slice s =>
      cases h
      cases key <;> rfl
  | nil =>
      cases h
      have hnone : ¬(0 ≤ keyIndex key ∧ keyIndex key < ((0 : Nat) : Int)) := by omega
      have hget : m.heap.getElem ⟨0, 0, 0, 0⟩ (keyIndex key) =
          .error (.indexOutOfRange (keyIndex key) 0) := by
        simp only [Heap.getElem, Heap.offset, if_neg hnone, bind, Except.bind]
      change Run.check _ m = (Run.check (m.heap.getElem ⟨0, 0, 0, 0⟩ (keyIndex key))) m
      rw [hget]
      rfl
  | _ => cases h

/-- **The expression that reads a location finds what loading it finds.** -/
theorem Code.Container.eval_read : ∀ {container : Code.Container} {key : Option Code.Expr}
    {target : Target} {k : Option Value} (zero : Value), container.Still x r m →
    (∀ k ∈ key, k.Still x r m) → locate x r container m = .ok target m →
    evalOption x r key m = .ok k m →
    eval x r (container.read key zero) m = target.load k zero m
  | .var depth slot, key, target, k, zero, _, _, htarget, hk => by
      obtain ⟨a, m', ha, htarget⟩ := run_bind_ok htarget
      obtain rfl := Run.ok_still (Run.ancestor_still r depth m) ha
      cases htarget
      rw [Code.Container.read, eval, Run.bind_result ha, Target.load_slot]
  | .map e, none, target, k, zero, h, _, htarget, hk => by
      obtain ⟨v, m', hv, htarget⟩ := run_bind_ok htarget
      obtain rfl := Run.ok_still h hv
      cases hk
      cases v with
      | map ref =>
          cases htarget
          rfl
      | nil =>
          cases htarget
          rfl
      | _ => cases htarget
  | .map e, some ke, target, k, zero, h, hkey, htarget, hk => by
      obtain ⟨v, m', hv, htarget⟩ := run_bind_ok htarget
      obtain rfl := Run.ok_still h hv
      obtain ⟨kv, m', hkv, hk⟩ := run_bind_ok hk
      obtain rfl := Run.ok_still (hkey ke rfl) hkv
      cases hk
      rw [Code.Container.read, eval, Run.bind_result hv, Run.bind_result hkv, Run.get_bind]
      exact load_map htarget
  | .slice e, none, target, k, zero, h, _, htarget, hk => by
      obtain ⟨v, m', hv, htarget⟩ := run_bind_ok htarget
      obtain rfl := Run.ok_still h hv
      cases hk
      rw [Code.Container.read, eval, Run.bind_result hv]
      change Run.check (sliceElement m.heap v (keyIndex none)) m = _
      exact load_slice htarget
  | .slice e, some ke, target, k, zero, h, hkey, htarget, hk => by
      obtain ⟨v, m', hv, htarget⟩ := run_bind_ok htarget
      obtain rfl := Run.ok_still h hv
      obtain ⟨kv, m', hkv, hk⟩ := run_bind_ok hk
      obtain rfl := Run.ok_still (hkey ke rfl) hkv
      cases hk
      rw [Code.Container.read, eval, Run.bind_result hv, Run.bind_result hkv, Run.get_bind]
      change Run.check (sliceElement m.heap v (keyIndex (some kv))) m = _
      exact load_slice htarget
  | .field base bkey index z, key, target, k, zero, h, _, htarget, _ => by
      obtain ⟨b, m', hb, htarget⟩ := run_bind_ok htarget
      obtain rfl := Run.ok_still (locate_still base h.1) hb
      obtain ⟨kv, m', hkv, htarget⟩ := run_bind_ok htarget
      obtain rfl := Run.ok_still (evalOption_still h.2) hkv
      cases htarget
      have hread := Code.Container.eval_read z h.1 h.2 hb hkv
      rw [Code.Container.read, eval, Target.load]
      simp only [bind, EStateM.bind, hread]

end ScriptCore
