import ScriptCore.Machine.Eval
import ScriptCore.Proofs.Straight.Folding

/-!
# Integers of a kind

Which values a register of an integer kind can hold, and that operators stay within them.  Narrowing
such a value, or asking how it is stored, gives the value again, which is why one compiler can do
without what the other one does.

Main statements: `Has.binary`, `Has.shift` (operators stay within a kind) and `kind_of_assignable`.
-/

namespace ScriptCore

/-! ### Kinds -/

namespace StraightLine

/-- The kind of a register is the kind of its values. -/
theorem ofKind?_scalar {k : Kind} {rk : Registers.Kind} (h : ofKind? k = some rk) :
    rk.scalar = k := by
  cases k <;> first | (cases h; rfl) | cases h

/-- Integers have the category of their sign. -/
theorem ofKind?_category {k : Kind} {rk : Registers.Kind} (h : ofKind? k = some rk) :
    k.category = if rk.isSigned then .int else .uint := by
  cases k <;> first | (cases h; rfl) | cases h

/-- A type of an integer kind is a basic type or defined as one. -/
theorem underlying_basic {t : TypeTable} {ty : Ty} {rk : Registers.Kind}
    (h : ofKind? (t.kind ty) = some rk) : t.underlying ty = .basic rk.scalar := by
  have hk := ofKind?_scalar h
  unfold TypeTable.kind at h hk
  cases hu : t.underlying ty <;> rw [hu] at h hk <;> first | cases h | skip
  exact congrArg Ty.basic hk.symm

/-- Integers are no interfaces. -/
theorem isInterface_false {t : TypeTable} {ty : Ty} {rk : Registers.Kind}
    (h : ofKind? (t.kind ty) = some rk) : t.isInterface ty = false := by
  simp [TypeTable.isInterface, TypeTable.interfaceMethods?, underlying_basic h]

/-- What can be assigned to an integer has its kind. -/
theorem kind_of_assignable {t : TypeTable} {ty target : Ty} {rk : Registers.Kind}
    (h : ofKind? (t.kind target) = some rk) (ha : t.assignable ty target = true) :
    t.kind ty = t.kind target := by
  simp only [TypeTable.assignable, isInterface_false h, Bool.false_eq_true, if_false,
    Bool.or_eq_true, Bool.and_eq_true, beq_iff_eq] at ha
  rcases ha with rfl | ⟨-, hu⟩
  · rfl
  · rw [TypeTable.kind, hu, TypeTable.kind]

/-- Locations of an integer kind start at zero. -/
theorem zero_cast {t : TypeTable} {ty : Ty} {rk : Registers.Kind}
    (h : ofKind? (t.kind ty) = some rk) : t.zero ty = rk.cast 0 := by
  have hu := underlying_basic h
  have hzero : rk.scalar.zero = rk.cast 0 := by
    have hi := ofKind?_isInteger h
    cases rk <;> first | rfl | cases hi
  cases ty with
  | named id n p =>
      simp only [TypeTable.underlying] at hu
      cases hd : t.definition? id with
      | none =>
          rw [hd] at hu
          cases hu
      | some def? =>
          rw [hd] at hu
          have hpos : 0 < t.named.length := by
            by_contra hlen
            have hnil : t.named = [] := List.length_eq_zero_iff.1 (by omega)
            simp [TypeTable.definition?, hnil] at hd
          obtain ⟨n, hn⟩ := Nat.exists_eq_succ_of_ne_zero (Nat.ne_of_gt hpos)
          simp only [Option.elim_some] at hu
          simp only [TypeTable.zero, TypeTable.zeroWith, hn, TypeTable.zeroNamed, hd,
            Option.elim_some, hu, hzero]
  | basic k =>
      cases hu
      rw [TypeTable.zero_basic, hzero]
  | _ => cases hu

end StraightLine

/-! ### Values of a kind -/

/-- What has been cut to a kind is not changed when it is cut again. -/
theorem narrowInt_narrowInt (k : Kind) (x : Int64) :
    narrowInt k (narrowInt k x) = narrowInt k x := by
  cases k <;> simp [narrowInt]

/-- What has been cut to a kind is not changed when it is cut again. -/
theorem narrowUint_narrowUint (k : Kind) (x : UInt64) :
    narrowUint k (narrowUint k x) = narrowUint k x := by
  cases k <;> simp [narrowUint, -UInt64.toUInt64_toUInt8, -UInt64.toUInt64_toUInt16,
    -UInt64.toUInt64_toUInt32]

/-- Results of arithmetic have been cut to its kind. -/
theorem intBinary_ok {op : BinaryOp} {k : Kind} {a b c : Int64} (h : intBinary op k a b = .ok c) :
    ∃ x, c = narrowInt k x := by
  cases op with
  | add | sub | mul | and | or | xor | andNot =>
      cases h
      exact ⟨_, rfl⟩
  | div | rem =>
      simp only [intBinary] at h
      split at h
      · cases h
      · cases h
        exact ⟨_, rfl⟩
  | _ => cases h

/-- Results of arithmetic have been cut to its kind. -/
theorem uintBinary_ok {op : BinaryOp} {k : Kind} {a b c : UInt64}
    (h : uintBinary op k a b = .ok c) : ∃ x, c = narrowUint k x := by
  cases op with
  | add | sub | mul | and | or | xor | andNot =>
      cases h
      exact ⟨_, rfl⟩
  | div | rem =>
      simp only [uintBinary] at h
      split at h
      · cases h
      · cases h
        exact ⟨_, rfl⟩
  | _ => cases h

namespace Registers.Kind

/-- A value of a kind. -/
def Has (k : Kind) (v : Value) : Prop :=
  ∃ i, v = k.cast i

variable {k : Kind}

/-- A number that has been cut to a signed kind. -/
theorem has_int (h : k.isSigned = true) (x : Int64) : k.Has (.int (narrowInt k.scalar x)) := by
  refine ⟨x.toInt, ?_⟩
  rw [cast_signed h, Int64.ofInt_toInt]

/-- A number that has been cut to an unsigned kind. -/
theorem has_uint (h : k.isSigned = false) (x : UInt64) :
    k.Has (.uint (narrowUint k.scalar x)) := by
  refine ⟨x.toNat, ?_⟩
  rw [cast_unsigned h]
  congr 2
  apply UInt64.toNat_inj.1
  rw [toNat_ofInt ⟨Int.natCast_nonneg _, by have := x.toNat_lt; omega⟩]
  rfl

/-- Values of a kind are not changed when they are cut to it. -/
theorem Has.narrow {v : Value} (h : k.Has v) : narrowValue k.scalar v = v := by
  obtain ⟨i, rfl⟩ := h
  cases hsigned : k.isSigned with
  | true =>
      rw [cast_signed hsigned, narrowValue, narrowInt_narrowInt]
  | false =>
      rw [cast_unsigned hsigned, narrowValue, narrowUint_narrowUint]

/-- Values of a kind are stored as the kind says. -/
theorem Has.expect {v : Value} (h : k.Has v) :
    v.expect (if k.isSigned then .int else .uint) = .ok v := by
  obtain ⟨i, rfl⟩ := h
  cases hsigned : k.isSigned with
  | true => rw [cast_signed hsigned]; rfl
  | false => rw [cast_unsigned hsigned]; rfl

/-- Unary operators stay within a kind. -/
theorem Has.unary {v w : Value} (h : k.Has v) {op : UnaryOp}
    (hop : unaryValue op k.scalar v = .ok w) : k.Has w := by
  obtain ⟨i, rfl⟩ := h
  cases hsigned : k.isSigned with
  | true =>
      rw [cast_signed hsigned] at hop
      cases op <;> cases hop
      · exact has_int hsigned _
      · exact has_int hsigned _
      · exact has_int hsigned _
  | false =>
      rw [cast_unsigned hsigned] at hop
      cases op <;> cases hop
      · exact has_uint hsigned _
      · exact has_uint hsigned _
      · exact has_uint hsigned _

/-- Arithmetic stays within a kind. -/
theorem Has.binary {v v' w : Value} (h : k.Has v) (h' : k.Has v') {op : BinaryOp}
    (harith : op.isIntArith = true) (hop : binaryValues op k.scalar v v' = .ok w) : k.Has w := by
  obtain ⟨i, rfl⟩ := h
  obtain ⟨j, rfl⟩ := h'
  cases hsigned : k.isSigned with
  | true =>
      rw [cast_signed hsigned, cast_signed hsigned, (binaryValues_arith harith _).1] at hop
      cases hr : intBinary op k.scalar (narrowInt k.scalar (Int64.ofInt i))
          (narrowInt k.scalar (Int64.ofInt j)) with
      | error e => rw [hr] at hop; cases hop
      | ok c =>
          rw [hr] at hop
          cases hop
          obtain ⟨x, rfl⟩ := intBinary_ok hr
          exact has_int hsigned x
  | false =>
      rw [cast_unsigned hsigned, cast_unsigned hsigned, (binaryValues_arith harith _).2] at hop
      cases hr : uintBinary op k.scalar (narrowUint k.scalar (UInt64.ofInt i))
          (narrowUint k.scalar (UInt64.ofInt j)) with
      | error e => rw [hr] at hop; cases hop
      | ok c =>
          rw [hr] at hop
          cases hop
          obtain ⟨x, rfl⟩ := uintBinary_ok hr
          exact has_uint hsigned x

/-- Shifts stay within a kind. -/
theorem Has.shift {v v' w : Value} (h : k.Has v) {op : BinaryOp}
    (hshift : op.isShift = true) (hop : binaryValues op k.scalar v v' = .ok w) : k.Has w := by
  obtain ⟨i, rfl⟩ := h
  have hcomparison : op.isComparison = false := by
    cases op with
    | shl | shr => rfl
    | _ => cases hshift
  simp only [binaryValues, hcomparison, hshift, Bool.false_eq_true, if_false, if_true] at hop
  cases hn : shiftCount v' with
  | error e => rw [hn] at hop; cases hop
  | ok n =>
      rw [hn] at hop
      cases hsigned : k.isSigned with
      | true =>
          rw [cast_signed hsigned] at hop
          cases hop
          exact has_int hsigned _
      | false =>
          rw [cast_unsigned hsigned] at hop
          cases hop
          exact has_uint hsigned _

end Registers.Kind

end ScriptCore
