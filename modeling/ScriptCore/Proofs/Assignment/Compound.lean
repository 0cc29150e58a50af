import Mathlib
import ScriptCore.Proofs.Assignment.Grounded
import ScriptCore.Proofs.Assignment.Update

/-!
# Compound assignments

`x op= e` means `x = x op e`, with the operands of `x` evaluated once.  Both forms are accepted for
the same operands, and where evaluating the operands of `x` and `e` leaves the machine as it is,
both do the same, with one exception: the operand `e` is evaluated before the value of `x` is loaded
in the first form and after it in the second, so where both fail each form fails with its own error.

Main statements: `Compile.opAssign_expands` and `Place.Expands.execute_eq`.
-/

namespace ScriptCore

/-! ### Values that an operator gives -/

/-- Results of floating point arithmetic have been rounded to the precision of its kind. -/
theorem floatBinary_ok {op : BinaryOp} {k : Kind} {a b c : Float}
    (h : floatBinary op k a b = .ok c) : ∃ x, c = narrowFloat k x := by
  cases op with
  | add | sub | mul | div =>
      cases h
      exact ⟨_, rfl⟩
  | _ => cases h

/-- Results of complex arithmetic have been rounded to the precision of its kind. -/
theorem complexBinary_ok {op : BinaryOp} {k : Kind} {ar ai br bi : Float} {z : Float × Float}
    (h : complexBinary op k ar ai br bi = .ok z) :
    ∃ x y, z = (narrowFloat k x, narrowFloat k y) := by
  cases op with
  | add | sub | mul | div =>
      cases h
      exact ⟨_, _, rfl⟩
  | _ => cases h

/-- **What an operator gives has been cut to its kind.** -/
theorem narrowValue_binaryValues {op : BinaryOp} {k : Kind} {a b w : Value}
    (h : binaryValues op k a b = .ok w) : narrowValue k w = w := by
  unfold binaryValues at h
  split at h
  · obtain ⟨_, -, h⟩ := Compile.rules_ok h
    cases h
    rfl
  split at h
  · obtain ⟨n, -, h⟩ := Compile.rules_ok h
    split at h
    · cases h
      rw [narrowValue, shiftInt, narrowInt_narrowInt]
    · cases h
      rw [narrowValue, shiftUint, narrowUint_narrowUint]
    · cases h
  split at h
  · obtain ⟨c, hc, h⟩ := Compile.rules_ok h
    cases h
    obtain ⟨z, rfl⟩ := intBinary_ok hc
    rw [narrowValue, narrowInt_narrowInt]
  · obtain ⟨c, hc, h⟩ := Compile.rules_ok h
    cases h
    obtain ⟨z, rfl⟩ := uintBinary_ok hc
    rw [narrowValue, narrowUint_narrowUint]
  · obtain ⟨c, hc, h⟩ := Compile.rules_ok h
    cases h
    obtain ⟨z, rfl⟩ := floatBinary_ok hc
    rw [narrowValue, narrowFloat_narrowFloat]
  · obtain ⟨c, hc, h⟩ := Compile.rules_ok h
    cases h
    obtain ⟨y, z, rfl⟩ := complexBinary_ok hc
    rw [narrowValue, narrowFloat_narrowFloat, narrowFloat_narrowFloat]
  · split at h
    · cases h
      rfl
    · cases h
  · split at h
    · cases h
      rfl
    · cases h
      rfl
    · cases h
  · cases h

/-! ### One run -/

namespace Place

variable {t : TypeTable} {p : Place} {op : BinaryOp} {x : Context} {r : Nat} {m : Machine}

/-- Operands that are the same for both forms fail alike. -/
theorem SameOperand.eval_failed {v u : Code.Expr} (h : SameOperand op v u) {e : Failure}
    {m' : Machine} (hv : eval x r v m = .error e m') : eval x r u m = .error e m' := by
  rcases h with rfl | ⟨-, a, b, rfl, rfl, -⟩
  · exact hv
  · cases hv

/-- Operands that are the same for both forms give the same results with values of a category that
has the operator. -/
theorem SameOperand.eval_ok {v u : Code.Expr} (h : SameOperand op v u) {a : Value}
    {m' : Machine} (hv : eval x r v m = .ok a m') : ∃ b, eval x r u m = .ok b m' ∧
      ∀ (k : Kind) (c : Category) (current : Value), hasOperator c op = true →
        current.expect c = .ok current →
          binaryValues op k current a = binaryValues op k current b := by
  rcases h with rfl | ⟨hshift, a', b, rfl, rfl, hcount⟩
  · exact ⟨a, hv, fun _ _ _ _ _ => rfl⟩
  · cases hv
    refine ⟨b, rfl, fun k c current hop hexpect => ?_⟩
    have hcompare : op.isComparison = false := by
      cases op with
      | shl | shr => rfl
      | _ => cases hshift
    unfold binaryValues
    rw [hcompare, hshift, hcount]
    rcases (category_of_shift hshift).1 hop with rfl | rfl <;>
      cases current <;> first | rfl | cases hexpect

/-- The value that is stored where an operator gives one. -/
theorem eval_narrowed (c : Category) {k : Kind} {a b w : Value} {e : Code.Expr}
    (hw : binaryValues op k a b = .ok w) (he : eval x r e m = .ok w m) :
    eval x r (narrowed c k e) m = .ok w m := by
  unfold narrowed
  split
  · exact he
  · rw [eval, Run.bind_result he, narrowValue_binaryValues hw]
    rfl

/-- A failure is not changed. -/
theorem eval_narrowed_failed (c : Category) (k : Kind) {e : Code.Expr} {f : Failure}
    (he : eval x r e m = .error f m) : eval x r (narrowed c k e) m = .error f m := by
  unfold narrowed
  split
  · exact he
  · rw [eval, Run.bind_failed he]

/-- The value in the place, if there is one, is stored in the way of its type. -/
def Stored (t : TypeTable) (p : Place) (x : Context) (r : Nat) (m : Machine) : Prop :=
  ∀ v m', readAt x r p.container p.key (t.zero p.type) m = .ok v m' →
    v.expect (t.category p.type) = .ok v

/-- Two instructions do the same.  If neither the operand can be evaluated nor the place be loaded,
the first fails with the error of the one and the second with the error of the other. -/
def SameEffect (t : TypeTable) (p : Place) (v : Code.Expr) (i j : Code.Instr) (x : Context)
    (r : Nat) (m : Machine) : Prop :=
  execute x r i m = execute x r j m ∨
    ∃ e f, eval x r v m = .error e m ∧
      readAt x r p.container p.key (t.zero p.type) m = .error f m ∧
      execute x r i m = .error e m ∧ execute x r j m = .error f m

/-- **An operator in place does what the assignment does that it stands for**, where no operand has
an effect on the machine. -/
theorem Expands.execute_eq {i j : Code.Instr} (h : Expands t p op i j) :
    ∃ v, i = .update p.container p.key op (t.kind p.type) v (t.zero p.type) ∧
      ∀ x r m, p.container.Still x r m → (∀ k ∈ p.key, k.Still x r m) → v.Still x r m →
        p.Stored t x r m → p.SameEffect t v i j x r m := by
  obtain ⟨hop, hsame⟩ := h
  rename_i v u
  refine ⟨v, rfl, fun x r m hcontainer hkey hv hstored => ?_⟩
  have hi : execute x r (.update p.container p.key op (t.kind p.type) v (t.zero p.type)) =
      locate x r p.container >>= fun target => evalOption x r p.key >>= fun k =>
        eval x r v >>= fun a => target.load k (t.zero p.type) >>= fun current =>
          Run.check (binaryValues op (t.kind p.type) current a) >>= fun w =>
            target.store k w >>= fun _ => pure .advance := rfl
  have hj (value : Code.Expr) : execute x r (p.store value) =
      locate x r p.container >>= fun target => evalOption x r p.key >>= fun k =>
        eval x r value >>= fun w => target.store k w >>= fun _ => pure .advance := rfl
  have hread : readAt x r p.container p.key (t.zero p.type) =
      locate x r p.container >>= fun target => evalOption x r p.key >>= fun k =>
        target.load k (t.zero p.type) := rfl
  unfold SameEffect
  rw [hi, hj]
  rcases Run.still_cases (locate_still p.container hcontainer) with ⟨target, htarget⟩ | ⟨e, he⟩
  case inr =>
    left
    rw [Run.bind_failed he, Run.bind_failed he]
  rcases Run.still_cases (evalOption_still hkey) with ⟨k, hk⟩ | ⟨e, he⟩
  case inr =>
    left
    rw [Run.bind_result htarget, Run.bind_result htarget, Run.bind_failed he, Run.bind_failed he]
  have hloads : eval x r (p.read t) m = target.load k (t.zero p.type) m :=
    Code.Container.eval_read _ hcontainer hkey htarget hk
  have hread' : readAt x r p.container p.key (t.zero p.type) m =
      target.load k (t.zero p.type) m := by
    rw [hread, Run.bind_result htarget, Run.bind_result hk]
  simp only [Run.bind_result htarget, Run.bind_result hk]
  rcases Run.still_cases (target.load_still k (t.zero p.type) m) with ⟨current, hload⟩ | ⟨f, hload⟩
  · have hexpect := hstored current m (hread'.trans hload)
    have hcurrent : eval x r (.expect (t.category p.type) (p.read t)) m = .ok current m := by
      rw [eval, Run.bind_result (hloads.trans hload), hexpect]
      rfl
    rcases Run.still_cases hv with ⟨a, ha⟩ | ⟨e, he⟩
    · left
      obtain ⟨b, hb, hsame⟩ := hsame.eval_ok ha
      have hbinary : eval x r (.binary op (t.kind p.type)
          (.expect (t.category p.type) (p.read t)) u) m =
          Run.check (binaryValues op (t.kind p.type) current a) m := by
        rw [eval, Run.bind_result hcurrent, Run.bind_result hb, hsame _ _ _ hop hexpect]
      rw [Run.bind_result ha, Run.bind_result hload]
      cases hw : binaryValues op (t.kind p.type) current a with
      | error e =>
          rw [hw] at hbinary
          rw [Run.bind_failed (eval_narrowed_failed _ _ hbinary)]
          rfl
      | ok w =>
          rw [hw] at hbinary
          rw [Run.bind_result (eval_narrowed _ hw hbinary)]
          rfl
    · left
      have hbinary : eval x r (.binary op (t.kind p.type)
          (.expect (t.category p.type) (p.read t)) u) m = .error e m := by
        rw [eval, Run.bind_result hcurrent, Run.bind_failed (hsame.eval_failed he)]
      rw [Run.bind_failed he, Run.bind_failed (eval_narrowed_failed _ _ hbinary)]
  · have hcurrent : eval x r (.expect (t.category p.type) (p.read t)) m = .error f m := by
      rw [eval, Run.bind_failed (hloads.trans hload)]
    have hbinary : eval x r (.binary op (t.kind p.type)
        (.expect (t.category p.type) (p.read t)) u) m = .error f m := by
      rw [eval, Run.bind_failed hcurrent]
    rcases Run.still_cases hv with ⟨a, ha⟩ | ⟨e, he⟩
    · left
      rw [Run.bind_result ha, Run.bind_failed hload,
        Run.bind_failed (eval_narrowed_failed _ _ hbinary)]
    · right
      refine ⟨e, f, he, hread'.trans hload, ?_, ?_⟩
      · rw [Run.bind_failed he]
      · rw [Run.bind_failed (eval_narrowed_failed _ _ hbinary)]

/-- A place is read in the same way with tables that are alike. -/
theorem read_alike {t t' : TypeTable} (ht : t.Alike t') : p.read t = p.read t' := by
  rw [read, read, ht.zero]

/-- Two instructions that go with tables that are alike. -/
theorem Expands.alike {t t' : TypeTable} (ht : t.Alike t') {i j : Code.Instr}
    (h : Expands t p op i j) : Expands t' p op i j := by
  obtain ⟨hop, hsame⟩ := h
  have hkind : t.kind p.type = t'.kind p.type := ht.same fun _ _ _ _ _ => rfl
  have hcategory : t.category p.type = t'.category p.type := ht.same fun _ _ _ _ _ => rfl
  rw [read_alike ht, ht.zero, hkind, hcategory]
  rw [hcategory] at hop
  exact .intro hop hsame

/-- The assignment that a compound assignment stands for. -/
theorem expanded_alike {t t' : TypeTable} (ht : t.Alike t') (v : Operand) :
    p.expanded t op v = p.expanded t' op v := by
  have hexpr : Term.ofExpr t (p.read t) p.type = Term.ofExpr t' (p.read t') p.type := by
    rw [read_alike ht]
    exact ht.same fun _ _ _ _ _ => rfl
  have hset : p.set t = p.set t' := by rw [ht.set]
  have hbinary : Term.binary t = Term.binary t' := ht.binary
  unfold expanded
  rw [hexpr, hset, hbinary]

end Place

/-! ### Statements -/

namespace Compile

variable {c d : Compiler} {k k' : Assembly} {op : BinaryOp} {x e : Expr} {p : Place}

/-- The rule of a compound assignment. -/
theorem update_rule (t : TypeTable) (v : Operand) :
    (do
      let e ← if op.isShift then Prod.fst <$> v.valueOf t else v.valueFor t p.type
      p.setOp t op e) = p.inPlace t op v := by
  rw [Place.inPlace]
  cases op.isShift <;> rfl

/-- A compound assignment to a place. -/
theorem opAssign_ok (hp : placeOf x c = .ok (some p, d)) {d' : Compiler} :
    statementOf (.opAssign op x e) k c = .ok (((), k'), d') ↔
      ∃ v i, operand e d = .ok (v, d') ∧ p.inPlace d'.types op v = .ok i ∧ k' = k.push i := by
  have hplace : updatedPlace (placeOf x) c = .ok (p, d) :=
    bind_ok.2 ⟨some p, d, hp, rfl⟩
  have hupdate (i : Code.Instr) : update op (placeOf x) (operand e) c = .ok (i, d') ↔
      ∃ v, operand e d = .ok (v, d') ∧ p.inPlace d'.types op v = .ok i := by
    simp only [update, update_rule, bind_ok, rule_ok]
    constructor
    · rintro ⟨p', c₁, hp', v, c₂, hv, hrule, rfl⟩
      rw [hplace] at hp'
      cases hp'
      exact ⟨v, hv, hrule⟩
    · rintro ⟨v, hv, hrule⟩
      exact ⟨p, d, hplace, v, d', hv, hrule, rfl⟩
  simp only [statementOf, one_ok, hupdate]
  constructor
  · rintro ⟨i, ⟨v, hv, hrule⟩, hk⟩
    exact ⟨v, i, hv, hrule, hk⟩
  · rintro ⟨v, i, hv, hrule, hk⟩
    exact ⟨i, ⟨v, hv, hrule⟩, hk⟩

/-- Operands of a binary operator. -/
theorem operand_binary_ok (span : Span) {o : Operand} {d' : Compiler} :
    operand (.node span (.binary op x e)) c = .ok (o, d') ↔
      ∃ a c₁ b y z w, operand x c = .ok (a, c₁) ∧ a.single = .ok y ∧ operand e c₁ = .ok (b, d') ∧
        b.single = .ok z ∧ y.binary d'.types op z = .ok w ∧ o = .term w := by
  rw [operand_node, at'_ok, operandOf]
  simp only [bind_ok, check_ok, rule_ok, pure_ok]
  constructor
  · rintro ⟨a, c₁, ha, y, _, ⟨hy, rfl⟩, b, c₂, hb, z, _, ⟨hz, rfl⟩, w, _, ⟨hw, rfl⟩, rfl, rfl⟩
    exact ⟨a, _, b, y, z, w, ha, hy, hb, hz, hw, rfl⟩
  · rintro ⟨a, c₁, b, y, z, w, ha, hy, hb, hz, hw, rfl⟩
    exact ⟨a, c₁, ha, y, c₁, ⟨hy, rfl⟩, b, d', hb, z, d', ⟨hz, rfl⟩, w, d', ⟨hw, rfl⟩, rfl, rfl⟩

/-- The assignment that a compound assignment stands for. -/
theorem expansion_ok (hp : placeOf x c = .ok (some p, d)) (span : Span) {d' : Compiler} :
    statementOf (.assign [x] [.node span (.binary op x e)]) k c = .ok (((), k'), d') ↔
      ∃ o j, operand (.node span (.binary op x e)) d = .ok (o, d') ∧
        p.set d'.types o = .ok j ∧ k' = k.push j := by
  have hassign (is : List Code.Instr) :
      assign [placeOf x] [operand (.node span (.binary op x e))] c = .ok (is, d') ↔
        ∃ o j, operand (.node span (.binary op x e)) d = .ok (o, d') ∧
          p.set d'.types o = .ok j ∧ is = [j] := by
    simp only [assign, assignOne, bind_ok]
    constructor
    · rintro ⟨p', c₁, hp', o, c₂, ho, hstore⟩
      rw [hp] at hp'
      cases hp'
      simp only [store, bind_ok, rule_ok, pure_ok] at hstore
      obtain ⟨j, _, ⟨hj, rfl⟩, rfl, rfl⟩ := hstore
      exact ⟨o, j, ho, hj, rfl⟩
    · rintro ⟨o, j, ho, hj, rfl⟩
      refine ⟨some p, d, hp, o, d', ho, ?_⟩
      simp only [store, bind_ok, rule_ok, pure_ok]
      exact ⟨j, d', ⟨hj, rfl⟩, rfl, rfl⟩
  simp only [statementOf, placesOf, operands, all_ok, hassign]
  constructor
  · rintro ⟨is, ⟨o, j, ho, hj, rfl⟩, rfl⟩
    exact ⟨o, j, ho, hj, rfl⟩
  · rintro ⟨o, j, ho, hj, rfl⟩
    exact ⟨[j], ⟨o, j, ho, hj, rfl⟩, rfl⟩

/-- **The assignment reads the place and applies the operator to what it reads.**  The operand of
the place is compiled again after the place, and the operand `e` after both; neither makes a
difference. -/
theorem expansion_of_operand (hs : c.types.Settled) (hv : FieldsVisible c x)
    (hp : placeOf x c = .ok (some p, d)) (span : Span) {v : Operand} {d₁ : Compiler}
    (he : operand e d = .ok (v, d₁)) : ∃ d₂, ∀ k k' d',
      statementOf (.assign [x] [.node span (.binary op x e)]) k c = .ok (((), k'), d') ↔
        d' = d₂ ∧ ∃ j, p.expanded d₁.types op v = .ok j ∧ k' = k.push j := by
  obtain ⟨hd, hsettled⟩ := (placeOf_stable x false).types_only hs hp
  have hkept := (placeOf_stable x false c c _ _ (.refl hs) hp).1
  have hlike : c.Like false d := hkept.like hs hsettled
  obtain ⟨-, d₂, hread, hlike₂⟩ :=
    operand_stable x false c d _ _ hlike (operand_of_place hs x hv p d hp)
  obtain ⟨-, d₃, he', hlike₃⟩ := operand_stable e false d d₂ _ _ hlike₂ he
  have hdd₃ : d.types.Alike d₃.types := by
    have hkept₃ := (operand_stable e false d₂ d₂ _ _ (.refl hlike₂.settled') he').1
    exact hlike₂.types.trans hkept₃.types
  have hexpr : Term.ofExpr d.types (p.read d.types) p.type =
      Term.ofExpr d₃.types (p.read d₃.types) p.type := by
    rw [Place.read_alike hdd₃]
    exact hdd₃.same fun _ _ _ _ _ => rfl
  refine ⟨d₃, fun k k' d' => ?_⟩
  rw [expansion_ok hp, Place.expanded_alike hlike₃.types]
  simp only [operand_binary_ok]
  constructor
  · rintro ⟨o, j, ⟨a, c₁, b, y, z, w, ha, hy, hb, hz, hw, rfl⟩, hj, rfl⟩
    rw [hread] at ha
    cases ha
    rw [he'] at hb
    cases hb
    cases hy
    rw [hexpr] at hw
    refine ⟨rfl, j, ?_, rfl⟩
    rw [Place.expanded, hz]
    simp only [bind, Except.bind, hw]
    exact hj
  · rintro ⟨rfl, j, hj, rfl⟩
    obtain ⟨z, hz, hj⟩ := rules_ok hj
    obtain ⟨w, hw, hj⟩ := rules_ok hj
    rw [← hexpr] at hw
    exact ⟨_, j, ⟨_, d₂, v, _, z, w, hread, rfl, he', hz, hw, rfl⟩, hj, rfl⟩

/-- What the assignment needs. -/
theorem expansion_needs (hs : c.types.Settled) (hp : placeOf x c = .ok (some p, d)) (span : Span)
    (h : Accepts (.assign [x] [.node span (.binary op x e)]) k c) :
    ∃ v d₁, operand e d = .ok (v, d₁) := by
  obtain ⟨⟨⟨⟨⟩, k'⟩, d'⟩, h⟩ := h
  obtain ⟨o, j, ho, -, -⟩ := (expansion_ok hp span).1 h
  obtain ⟨a, c₁, b, -, -, -, ha, -, hb, -, -, -⟩ := (operand_binary_ok span).1 ho
  have hd := ((placeOf_stable x false).types_only hs hp).2
  have hkept := (operand_stable x false d d _ _ (.refl hd) ha).1
  have hlike : c₁.Like false d := (hkept.like hd ((operand_stable x false).types_only hd ha).2).symm
  obtain ⟨-, d₁, he, -⟩ := operand_stable e false c₁ d _ _ hlike hb
  exact ⟨b, d₁, he⟩

namespace Compound

/-- A body with a slice of numbers `s` and a number `z`. -/
def body : Compiler :=
  { Compiler.start .empty ⟨[], [], 0⟩ false with
    frame := ⟨[[("s", ⟨0, .slice (.basic .int)⟩), ("z", ⟨1, .basic .int⟩)]], 2, [], none⟩ }

/-- The expression `z`. -/
def divisor : Expr :=
  .node .none (.ident "z")

/-- The expression `s[5]`. -/
def element : Expr :=
  .node .none (.index (.node .none (.ident "s")) (.node .none (.int 5)))

/-- The expression `1 / z`. -/
def quotient : Expr :=
  .node .none (.binary .div (.node .none (.int 1)) divisor)

/-- Code of `1 / z`. -/
def quotientCode : Code.Expr :=
  .binary .div .int (.const (.int 1)) (.expect .int (.load 0 1))

/-- Code of `s[5] += 1 / z`. -/
def inPlace : Code.Instr :=
  .update (.slice (.load 0 0)) (some (.const (.int 5))) .add .int quotientCode (.int 0)

/-- Code of `s[5] = s[5] + 1 / z`. -/
def writtenOut : Code.Instr :=
  .store (.slice (.load 0 0)) (some (.const (.int 5))) <| .narrow .int <|
    .binary .add .int (.expect .int (.sliceGet (.load 0 0) (.const (.int 5)))) quotientCode

/-- Nothing can be called. -/
def context : Context :=
  ⟨.empty, fun _ _ => Run.fail .nilFuncCall⟩

/-- The slice is nil and the number is zero. -/
def machine : Machine :=
  .start #[] #[.nil, .int 0]

end Compound

end Compile

end ScriptCore
