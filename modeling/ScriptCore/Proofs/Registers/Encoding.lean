import Mathlib.Data.List.Forall2
import ScriptCore.Proofs.Registers.Execution

/-!
# What calls leave in a stream

A token of an operand does not say to which instruction it belongs, and instructions are of
different widths: whether the tokens in the middle of a stream are read as they were written
depends on the width of everything before them.  Streams are made by calls, one for each form of
instruction, whose operands may be any expressions.  A call with an operand that is not lowered
fails; of the others, `nop` and the assignment of an operand to itself are elided.

The specification of a call is a relation, `Call.Writes`, between the call and an instruction with
the same operation, operands, numbers and kinds.  It speaks neither of tokens nor of streams.

* `perform_unlowered`, `perform_lowered`: what one call does to any stream.
* `calls_eq_pushAll`: a sequence of calls adds one instruction for each call that is kept.
* `calls_reissue`: the calls of the instructions that were read add the same tokens again.
* `calls_faithful`: together, for any sequence of calls on an empty stream.
-/

namespace ScriptCore.Registers

/-- A call that adds to a stream. -/
inductive Call where
  | unary (op : Unary) (src : Expr) (dst : Reg)
  | binary (op : BinaryOp) (a b : Expr) (dst : Reg)
  | adjust (op : Adjust) (dst : Expr)
  | update (op : Update) (src dst : Expr)
  | alloc (reg : Reg)
  | free (reg : Reg)
deriving Repr, DecidableEq

/-- The expression stands for the operand. -/
inductive Expr.Encodes : Expr → Operand → Prop
  | imm (c : Imm) : Encodes (.imm c) (.imm c)
  | reg (r : Reg) : Encodes (.reg r) (.reg r.id)

/-- The token of an expression, if it is lowered. -/
def Expr.token? (e : Expr) : Option Token :=
  match e.operand with
  | .ok o => some o.token
  | .error _ => none

namespace Call

/-- The call on a stream. -/
def perform (s : Stream) : Call → Except CodeError Stream
  | unary op src dst => s.unary op src dst
  | binary op a b dst => s.binary op a b dst
  | adjust op dst => s.adjust op dst
  | update op src dst => s.update op src dst
  | alloc reg => .ok (s.push (.alloc reg))
  | free reg => .ok (s.push (.free reg))

/-- The stream that a call leaves; a call that fails leaves the one it was made on. -/
def leave (s : Stream) (c : Call) : Stream :=
  match c.perform s with
  | .ok s' => s'
  | .error _ => s

/-- Operands, in the order in which they are encoded. -/
def operands : Call → List Expr
  | unary _ src _ => [src]
  | binary _ a b _ => [a, b]
  | adjust _ dst => [dst]
  | update _ src dst => [src, dst]
  | alloc _ | free _ => []

/-- The first operand that is not lowered. -/
def unlowered? (c : Call) : Option Expr :=
  c.operands.find? fun e => !e.isLeaf

/-- Calls without effect: `nop`, and the assignment of an operand to itself. -/
def elided : Call → Bool
  | adjust op _ => op == .nop
  | update op src dst => op == .assign && src.token? == dst.token?
  | _ => false

/-- Calls that succeed and are not elided. -/
def kept (c : Call) : Bool :=
  c.unlowered?.isNone && !c.elided

/-- The call asks for the instruction: the operation, the operands, the numbers and the kinds are
those of the call. -/
inductive Writes : Call → Instr → Prop
  | unary {src : Expr} {o : Operand} (op : Unary) (h : src.Encodes o) (dst : Reg) :
      Writes (.unary op src dst) (.unary op o dst.id)
  | binary {a b : Expr} {oa ob : Operand} (op : BinaryOp) (ha : a.Encodes oa) (hb : b.Encodes ob)
      (dst : Reg) : Writes (.binary op a b dst) (.binary op oa ob dst.id)
  | adjust {dst : Expr} {o : Operand} (op : Adjust) (h : dst.Encodes o) :
      Writes (.adjust op dst) (.adjust op o)
  | update {src dst : Expr} {osrc odst : Operand} (op : Update) (hs : src.Encodes osrc)
      (hd : dst.Encodes odst) : Writes (.update op src dst) (.update op osrc odst)
  | alloc (reg : Reg) : Writes (.alloc reg) (.alloc reg)
  | free (reg : Reg) : Writes (.free reg) (.free reg)

end Call

/-- The stream that calls leave, made one after the other. -/
def Stream.calls (s : Stream) (cs : List Call) : Stream :=
  cs.foldl Call.leave s

/-- The operand as an expression; a register is given a kind, which is not encoded. -/
def Operand.expr (kinds : Nat → Kind) : Operand → Expr
  | reg id => .reg ⟨id, kinds id⟩
  | imm c => .imm c

/-- The call that asks for an instruction. -/
def Instr.call (kinds : Nat → Kind) : Instr → Call
  | unary op src dst => .unary op (src.expr kinds) ⟨dst, kinds dst⟩
  | binary op a b dst => .binary op (a.expr kinds) (b.expr kinds) ⟨dst, kinds dst⟩
  | adjust op dst => .adjust op (dst.expr kinds)
  | update op src dst => .update op (src.expr kinds) (dst.expr kinds)
  | alloc reg => .alloc reg
  | free reg => .free reg

/-! ### Operands -/

/-- What an expression stands for is its operand. -/
theorem Expr.Encodes.operand_eq {e : Expr} {o : Operand} (h : e.Encodes o) : e.operand = .ok o := by
  cases h with
  | imm c => rfl
  | reg r => rfl

/-- A leaf stands for an operand. -/
theorem Expr.exists_encodes {e : Expr} (h : e.isLeaf = true) : ∃ o, e.Encodes o := by
  cases e with
  | imm c => exact ⟨_, .imm c⟩
  | reg r => exact ⟨_, .reg r⟩
  | unary op x => cases h
  | binary op x y => cases h

/-- Anything else is refused, with the expression in the error. -/
theorem Expr.operand_unlowered {e : Expr} (h : e.isLeaf = false) :
    e.operand = .error (.notLowered e) := by
  cases e with
  | imm c => cases h
  | reg r => cases h
  | unary op x => rfl
  | binary op x y => rfl

/-- Two operands are the same if and only if their tokens are. -/
theorem Expr.Encodes.token?_beq {e e' : Expr} {o o' : Operand} (h : e.Encodes o)
    (h' : e'.Encodes o') : (e.token? == e'.token?) = (o == o') := by
  have hinj : o.token = o'.token ↔ o = o' := by
    constructor
    · intro ht
      have hread : o.token.operand? = o'.token.operand? := by rw [ht]
      simpa using hread
    · intro ho
      rw [ho]
  simp only [token?, h.operand_eq, h'.operand_eq]
  by_cases ho : o = o'
  · simp [ho]
  · have ht : o.token ≠ o'.token := fun ht => ho (hinj.mp ht)
    simp [ho, ht]

/-- The expression of an operand stands for it. -/
theorem Operand.encodes_expr (o : Operand) (kinds : Nat → Kind) : (o.expr kinds).Encodes o := by
  cases o with
  | reg id => exact .reg ⟨id, kinds id⟩
  | imm c => exact .imm c

/-! ### One call -/

namespace Call

/-- The call that asks for an instruction adds it, to any stream. -/
theorem Writes.perform_eq {c : Call} {i : Instr} (h : c.Writes i) (s : Stream) :
    c.perform s = .ok (s.push i) := by
  cases h with
  | unary op h dst => simp only [perform, Stream.unary, h.operand_eq]; rfl
  | binary op ha hb dst => simp only [perform, Stream.binary, ha.operand_eq, hb.operand_eq]; rfl
  | adjust op h => simp only [perform, Stream.adjust, h.operand_eq]; rfl
  | update op hs hd => simp only [perform, Stream.update, hs.operand_eq, hd.operand_eq]; rfl
  | alloc reg => rfl
  | free reg => rfl

/-- Exactly the calls that are elided ask for an instruction without effect. -/
theorem Writes.isVoid_eq {c : Call} {i : Instr} (h : c.Writes i) : i.isVoid = c.elided := by
  cases h with
  | adjust op h => cases op <;> rfl
  | update op hs hd =>
      rw [elided, hs.token?_beq hd]
      cases op <;> rfl
  | _ => rfl

/-- All operands are lowered. -/
theorem isLeaf_of_unlowered?_eq_none {c : Call} (h : c.unlowered? = none) :
    ∀ e ∈ c.operands, e.isLeaf = true := by
  intro e he
  have hnot := List.find?_eq_none.mp h e he
  simpa using hnot

/-- A call with lowered operands asks for an instruction. -/
theorem exists_writes {c : Call} (h : c.unlowered? = none) : ∃ i, c.Writes i := by
  have hleaf := isLeaf_of_unlowered?_eq_none h
  cases c with
  | unary op src dst =>
      obtain ⟨o, ho⟩ := Expr.exists_encodes (hleaf src (by simp [operands]))
      exact ⟨_, .unary op ho dst⟩
  | binary op a b dst =>
      obtain ⟨oa, ha⟩ := Expr.exists_encodes (hleaf a (by simp [operands]))
      obtain ⟨ob, hb⟩ := Expr.exists_encodes (hleaf b (by simp [operands]))
      exact ⟨_, .binary op ha hb dst⟩
  | adjust op dst =>
      obtain ⟨o, ho⟩ := Expr.exists_encodes (hleaf dst (by simp [operands]))
      exact ⟨_, .adjust op ho⟩
  | update op src dst =>
      obtain ⟨osrc, hs⟩ := Expr.exists_encodes (hleaf src (by simp [operands]))
      obtain ⟨odst, hd⟩ := Expr.exists_encodes (hleaf dst (by simp [operands]))
      exact ⟨_, .update op hs hd⟩
  | alloc reg => exact ⟨_, .alloc reg⟩
  | free reg => exact ⟨_, .free reg⟩

/-- The only operand is the first that is not lowered. -/
theorem operand_of_unlowered {e x : Expr} (h : [e].find? (fun e => !e.isLeaf) = some x) :
    e.operand = .error (.notLowered x) := by
  have hx : x = e := by simpa using List.mem_of_find?_eq_some h
  have hleaf : x.isLeaf = false := by simpa using List.find?_some h
  subst hx
  exact Expr.operand_unlowered hleaf

/-- Of two operands, either the first is refused, or it is lowered and the second is refused. -/
theorem operands_of_unlowered {a b x : Expr}
    (h : [a, b].find? (fun e => !e.isLeaf) = some x) :
    a.operand = .error (.notLowered x) ∨
      ∃ o, a.operand = .ok o ∧ b.operand = .error (.notLowered x) := by
  cases ha : a.isLeaf with
  | false =>
      have hx : a = x := by simpa [ha] using h
      subst hx
      exact .inl (Expr.operand_unlowered ha)
  | true =>
      obtain ⟨o, ho⟩ := Expr.exists_encodes ha
      have hb : [b].find? (fun e => !e.isLeaf) = some x := by
        rwa [List.find?_cons_of_neg (by simp [ha])] at h
      exact .inr ⟨o, ho.operand_eq, operand_of_unlowered hb⟩

/-- **A call whose operands are not all lowered fails**, with the first that is not. -/
theorem perform_unlowered {c : Call} {x : Expr} (h : c.unlowered? = some x) (s : Stream) :
    c.perform s = .error (.notLowered x) := by
  cases c with
  | unary op src dst => simp only [perform, Stream.unary, operand_of_unlowered h]; rfl
  | binary op a b dst =>
      obtain ha | ⟨o, ha, hb⟩ := operands_of_unlowered h
      · simp only [perform, Stream.binary, ha]; rfl
      · simp only [perform, Stream.binary, ha, hb]; rfl
  | adjust op dst => simp only [perform, Stream.adjust, operand_of_unlowered h]; rfl
  | update op src dst =>
      obtain hs | ⟨o, hs, hd⟩ := operands_of_unlowered h
      · simp only [perform, Stream.update, hs]; rfl
      · simp only [perform, Stream.update, hs, hd]; rfl
  | alloc reg => cases h
  | free reg => cases h

/-- **A call with lowered operands adds the instruction it asks for**, unless it is elided. -/
theorem perform_lowered {c : Call} (h : c.unlowered? = none) :
    ∃ i, c.Writes i ∧ i.isVoid = c.elided ∧ ∀ s, c.perform s = .ok (s.push i) := by
  obtain ⟨i, hi⟩ := exists_writes h
  exact ⟨i, hi, hi.isVoid_eq, hi.perform_eq⟩

/-- A call fails on every stream or on none. -/
theorem perform_ok_iff (c : Call) (s : Stream) :
    (∃ s', c.perform s = .ok s') ↔ c.unlowered? = none := by
  cases h : c.unlowered? with
  | none =>
      obtain ⟨i, _, _, hi⟩ := perform_lowered h
      simp [hi s]
  | some x => simp [perform_unlowered h s]

/-- A call that fails leaves the stream as it is. -/
theorem leave_unlowered {c : Call} {x : Expr} (h : c.unlowered? = some x) (s : Stream) :
    c.leave s = s := by
  rw [leave, perform_unlowered h s]

end Call

/-! ### Sequences of calls -/

/-- Calls one after the other, and then one more. -/
theorem Stream.calls_append (s : Stream) (cs : List Call) (c : Call) :
    s.calls (cs ++ [c]) = c.leave (s.calls cs) := by
  rw [calls, calls, List.foldl_append]
  rfl

/-- **A sequence of calls adds one instruction for each call that is kept**, in their order, and
nothing for any other. -/
theorem Stream.calls_eq_pushAll (cs : List Call) :
    ∃ is, List.Forall₂ Call.Writes (cs.filter Call.kept) is ∧ (∀ i ∈ is, i.isVoid = false) ∧
      ∀ s : Stream, s.calls cs = s.pushAll is := by
  induction cs with
  | nil => exact ⟨[], .nil, by simp, fun s => rfl⟩
  | cons c cs ih =>
      obtain ⟨is, hwrites, hvoid, hcalls⟩ := ih
      cases h : c.unlowered? with
      | some x =>
          have hkept : c.kept = false := by simp [Call.kept, h]
          refine ⟨is, by simpa [hkept] using hwrites, hvoid, fun s => ?_⟩
          calc s.calls (c :: cs) = (c.leave s).calls cs := rfl
            _ = s.calls cs := by rw [Call.leave_unlowered h]
            _ = s.pushAll is := hcalls s
      | none =>
          obtain ⟨i, hi, hie, hperform⟩ := Call.perform_lowered h
          have hleave (s : Stream) : s.calls (c :: cs) = (s.push i).pushAll is := by
            calc s.calls (c :: cs) = (c.leave s).calls cs := rfl
              _ = (s.push i).calls cs := by rw [Call.leave, hperform]
              _ = (s.push i).pushAll is := hcalls _
          cases he : c.elided with
          | true =>
              have hkept : c.kept = false := by simp [Call.kept, he]
              refine ⟨is, by simpa [hkept] using hwrites, hvoid, fun s => ?_⟩
              rw [hleave, push, if_pos (hie.trans he)]
          | false =>
              have hkept : c.kept = true := by simp [Call.kept, h, he]
              refine ⟨i :: is, ?_, ?_, hleave⟩
              · rw [List.filter_cons_of_pos hkept]
                exact .cons hi hwrites
              · intro j hj
                cases hj with
                | head => exact hie.trans he
                | tail _ hj => exact hvoid j hj

/-- The call of an instruction asks for it. -/
theorem Instr.call_writes (kinds : Nat → Kind) (i : Instr) : (i.call kinds).Writes i := by
  cases i with
  | unary op src dst => exact .unary op (src.encodes_expr kinds) ⟨dst, kinds dst⟩
  | binary op a b dst =>
      exact .binary op (a.encodes_expr kinds) (b.encodes_expr kinds) ⟨dst, kinds dst⟩
  | adjust op dst => exact .adjust op (dst.encodes_expr kinds)
  | update op src dst => exact .update op (src.encodes_expr kinds) (dst.encodes_expr kinds)
  | alloc reg => exact .alloc reg
  | free reg => exact .free reg

/-- **Instructions are added again by their calls.** -/
theorem Stream.calls_reissue (kinds : Nat → Kind) (is : List Instr) (s : Stream) :
    s.calls (is.map (Instr.call kinds)) = s.pushAll is := by
  induction is generalizing s with
  | nil => rfl
  | cons i is ih =>
      have hleave : (i.call kinds).leave s = s.push i := by
        rw [Call.leave, (i.call_writes kinds).perform_eq s]
      calc s.calls ((i :: is).map (Instr.call kinds))
          = ((i.call kinds).leave s).calls (is.map (Instr.call kinds)) := rfl
        _ = (s.push i).calls (is.map (Instr.call kinds)) := by rw [hleave]
        _ = (s.push i).pushAll is := ih _

/-- Instructions with effect are what is read back from a stream they were added to. -/
theorem Stream.instrs?_pushAll_of_effect {is : List Instr} (h : ∀ i ∈ is, i.isVoid = false) :
    (empty.pushAll is).instrs? = some is := by
  rw [instrs?_pushAll, List.filter_eq_self.mpr fun i hi => by simp [h i hi]]

/-- **Streams are faithful.**  Whatever is called on an empty stream, and whichever operands are
lowered: the stream is read back, as exactly one instruction for each call that is kept, in the
order of the calls and with their operations, operands, numbers and kinds; the calls of what was
read make the same stream.  The next call succeeds exactly if its operands are all lowered, and
otherwise it fails with the first that is not and leaves the stream as it is. -/
theorem Stream.calls_faithful (cs : List Call) :
    (∃ is, (empty.calls cs).instrs? = some is ∧
      List.Forall₂ Call.Writes (cs.filter Call.kept) is ∧
      (empty.calls cs).tokens = is.flatMap Instr.encode ∧
      ∀ kinds, empty.calls (is.map (Instr.call kinds)) = empty.calls cs) ∧
    ∀ c : Call, ((∃ s, c.perform (empty.calls cs) = .ok s) ↔ c.unlowered? = none) ∧
      ∀ e, c.perform (empty.calls cs) = .error e →
        (∃ x, c.unlowered? = some x ∧ e = .notLowered x) ∧
          empty.calls (cs ++ [c]) = empty.calls cs := by
  constructor
  · obtain ⟨is, hwrites, hvoid, hcalls⟩ := calls_eq_pushAll cs
    have hread : (empty.calls cs).instrs? = some is := by
      rw [hcalls, instrs?_pushAll_of_effect hvoid]
    have htokens : (empty.calls cs).tokens = is.flatMap Instr.encode := by
      rw [hcalls, pushAll_tokens, List.filter_eq_self.mpr fun i hi => by simp [hvoid i hi]]
      rfl
    refine ⟨is, hread, hwrites, htokens, fun kinds => ?_⟩
    rw [calls_reissue, hcalls]
  · intro c
    refine ⟨c.perform_ok_iff _, fun e he => ?_⟩
    cases h : c.unlowered? with
    | none =>
        obtain ⟨s, hs⟩ := (c.perform_ok_iff _).mpr h
        rw [hs] at he
        cases he
    | some x =>
        have hx := Call.perform_unlowered h (empty.calls cs)
        rw [hx] at he
        injection he with he
        exact ⟨⟨x, rfl, he.symm⟩, by rw [calls_append, Call.leave_unlowered h]⟩

/-- A call that fails and one that is elided between two that are kept. -/
example :
    (Stream.empty.calls
      [.alloc ⟨3, .uint8⟩, .adjust .nop (.reg ⟨3, .uint8⟩),
        .update .assign (.unary .neg (.reg ⟨3, .uint8⟩)) (.reg ⟨3, .uint8⟩),
        .free ⟨3, .uint8⟩]).instrs? = some [.alloc ⟨3, .uint8⟩, .free ⟨3, .uint8⟩] := by
  decide

end ScriptCore.Registers
