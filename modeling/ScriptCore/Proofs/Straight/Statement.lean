import ScriptCore.Proofs.Control.Elaborate
import ScriptCore.Proofs.Straight.Variables

/-!
# One statement, two compilers

A definition, assignment, update or step of a straight line compiles to one instruction that stores
in a slot, and to register code that ends in one instruction on a register.  Where slots and
registers agree before, both fail with the same error or agree afterwards (`Simulates`).

Main statement: `statement_simulates`.
-/

namespace ScriptCore

open Registers (File)

namespace StraightLine

variable {t : TypeTable} {f : Frame} {v v' : Variables} {s s' : Registers.Lowering} {links : Links}
  {c c' : Compiler} {r : Nat} {m : Machine} {file : File} {ctx : Context} {reg : Registers.Reg}
  {slot : Nat} {e : Code.Expr} {res : Except EvalError Value}

/-! ### Instructions that store -/

/-- What a computed value or an error leads to when it is to be stored in a slot. -/
def stored (r slot : Nat) (m : Machine) :
    Except EvalError Value → EStateM.Result Failure Machine Next
  | .ok w => .ok .advance (m.store r slot w)
  | .error err => .error (.error err) m

/-- A declaration stores in its slot. -/
theorem execute_setSlots (h : eval ctx r e m = Run.check res m) :
    execute ctx r (.setSlots [(some slot, e)]) m = stored r slot m res := by
  have hall : evalAll ctx r [e] m = Run.check (do return [← res]) m := by
    rw [evalAll, Run.bind_checked h]
    cases res <;> rfl
  rw [execute, List.map_cons, List.map_nil, Run.bind_checked hall]
  cases res <;> rfl

/-- An assignment stores in the slot of the variable. -/
theorem execute_store (h : eval ctx r e m = Run.check res m) :
    execute ctx r (.store (.var 0 slot) none e) m = stored r slot m res := by
  change (eval ctx r e >>= fun w => do
    (Target.slot r slot).store none w
    return Next.advance) m = _
  rw [Run.bind_checked h]
  cases res <;> rfl

/-- An update stores the result of an operator. -/
theorem execute_update {op : BinaryOp} {k : Kind} {zero : Value}
    (h : eval ctx r e m = Run.check res m) :
    execute ctx r (.update (.var 0 slot) none op k e zero) m =
      stored r slot m (do binaryValues op k ((m.record r).get slot) (← res)) := by
  change (eval ctx r e >>= fun w => do
    let current ← (Target.slot r slot).load none zero
    (Target.slot r slot).store none (← Run.check (binaryValues op k current w))
    return Next.advance) m = _
  rw [Run.bind_checked h]
  cases res with
  | error err => rfl
  | ok w =>
      change (Run.check (binaryValues op k ((m.record r).get slot) w) >>= _) m =
        stored r slot m (binaryValues op k ((m.record r).get slot) w)
      cases binaryValues op k ((m.record r).get slot) w <;> rfl

/-- A statement of one instruction that stores a value. -/
theorem exec_ok {i : Code.Instr} {fuel : Nat} {w : Value}
    (h : execute ctx r i m = stored r slot m (.ok w)) :
    (Tree.act [i]).exec ctx r fuel m = ⟨.normal, m.store r slot w, [(.act i, m)]⟩ := by
  rw [Tree.exec, actAll, h]
  rfl

/-- A statement of one instruction that fails. -/
theorem exec_error {i : Code.Instr} {fuel : Nat} {err : EvalError}
    (h : execute ctx r i m = stored r slot m (.error err)) :
    (Tree.act [i]).exec ctx r fuel m = ⟨.failed (.error err), m, [(.act i, m)]⟩ := by
  rw [Tree.exec, actAll, h]
  rfl

/-! ### Register code of statements -/

/-- An assignment is translated at the kind of its register. -/
theorem assign_ends {value : Expr} {u : Unit} (h : Ends (assign reg value) v s u v' s') :
    ∃ x, exprOf? v.registers reg.kind value = some x ∧ (Registers.assign x reg).Ends s u s' ∧
      v' = v := by
  simp only [assign, ends_bind, ends_get, ends_need, ends_write] at h
  obtain ⟨_, _, _, ⟨rfl, rfl, rfl⟩, x, _, _, ⟨hx, rfl, rfl⟩, hassign, rfl⟩ := h
  exact ⟨x, hx, hassign, rfl⟩

/-- A name gets a register of the kind of its first value. -/
theorem bind_ends {name : Name} {k : Registers.Kind}
    (h : Ends (bind (some name) k) v s reg v' s') (hname : name ≠ blank) :
    s.alloc k = (reg, s') ∧ v' = v.bind name reg := by
  simp only [bind, ends_bind, ends_write, ends_modify, ends_pure, Registers.Lower.ends_alloc] at h
  obtain ⟨reg, _, _, ⟨halloc, rfl⟩, _, _, _, ⟨rfl, rfl⟩, rfl, rfl, rfl⟩ := h
  exact ⟨halloc, by simp [Variables.bind, hname]⟩

/-- A definition assigns to a known name, and gives a register to a new one. -/
theorem define_ends {name : Name} {value : Expr} {u : Unit}
    (h : Ends (define name value) v s u v' s') :
    name ≠ blank ∧
      ((∃ reg x, register? v.registers name = some reg ∧
          exprOf? v.registers reg.kind value = some x ∧ (Registers.assign x reg).Ends s u s' ∧
          v' = v) ∨
        ∃ reg x s₁, register? v.registers name = none ∧
          exprOf? v.registers ((kindOf (kindsIn v.registers) value).getD .int) value = some x ∧
          s.alloc ((kindOf (kindsIn v.registers) value).getD .int) = (reg, s₁) ∧
          (Registers.assign x reg).Ends s₁ u s' ∧ v' = v.bind name reg) := by
  by_cases hname : name = blank
  · subst hname
    simp only [define, if_true] at h
    obtain ⟨_, _, _, hrefuse, -⟩ := ends_bind.1 h
    exact absurd hrefuse not_ends_refuse
  · refine ⟨hname, ?_⟩
    simp only [define, hname, if_false] at h
    obtain ⟨_, _, _, hget, h⟩ := ends_bind.1 h
    obtain ⟨rfl, rfl, rfl⟩ := ends_get.1 hget
    cases hreg : register? v.registers name with
    | some reg =>
        rw [hreg] at h
        obtain ⟨x, hx, hassign, rfl⟩ := assign_ends h
        exact .inl ⟨reg, x, rfl, hx, hassign, rfl⟩
    | none =>
        rw [hreg] at h
        simp only [ends_bind, ends_need, ends_write] at h
        obtain ⟨x, _, _, ⟨hx, rfl, rfl⟩, reg, _, s₁, hbind, hassign, rfl⟩ := h
        obtain ⟨halloc, rfl⟩ := bind_ends hbind hname
        exact .inr ⟨reg, x, s₁, rfl, hx, halloc, hassign, rfl⟩

/-- The name of a variable, which may stand in parentheses. -/
def nameOf? : Expr → Option Name
  | .node _ (.ident name) => some name
  | .node _ (.paren e) => nameOf? e
  | _ => none

/-- The register of a variable is that of its name. -/
theorem localOf?_eq (registers : List (Name × Registers.Reg)) (e : Expr) :
    localOf? registers e = (nameOf? e).bind (register? registers) := by
  fun_induction nameOf? e with
  | case1 => simp [localOf?]
  | case2 _ _ ih => simp [localOf?, ih]
  | case3 e h₁ h₂ =>
      unfold localOf?
      split
      · exact absurd rfl (h₁ _ _)
      · exact absurd rfl (h₂ _ _)
      · rfl

end StraightLine

/-! ### Code with slots for statements -/

namespace Compile

variable {c c' : Compiler} {tree : Tree}

/-- The place of a local variable. -/
theorem placeOf_local {e : Expr} {name : Name} {w : Local} {o : Option Place}
    (hname : StraightLine.nameOf? e = some name) (hne : name ≠ blank)
    (hw : c.frame.find? name = some w) (h : placeOf e c = .ok (o, c')) :
    c' = c ∧ o = some (.var 0 w.slot w.type) := by
  fun_induction StraightLine.nameOf? e with
  | case1 span name' =>
      cases hname
      rw [placeOf, at'_ok, namedPlace, if_neg hne] at h
      obtain ⟨m, c₁, hm, h⟩ := bind_ok.1 h
      rw [StraightLine.resolve_variable hw] at hm
      cases hm
      cases h
      exact ⟨rfl, rfl⟩
  | case2 span e ih =>
      rw [placeOf, at'_ok] at h
      exact ih hname h
  | case3 => cases hname

/-- A name that is declared with `:=` keeps the slot it has in the innermost block, and gets a new
one otherwise. -/
theorem bindName_ok {name : Name} {ty : Ty} {slot : Option Nat} (hne : name ≠ blank)
    (h : bindName true name ty c = .ok (slot, c')) :
    (∃ w, c.frame.findInnermost? name = some w ∧ c.types.assignable ty w.type = true ∧
        slot = some w.slot ∧ c' = c) ∨
      slot = some c.frame.slots ∧ c' = { c with frame := (c.frame.declare name ty).2 } := by
  rw [bindName, if_neg hne] at h
  obtain ⟨c₁, _, hget, h⟩ := bind_ok.1 h
  cases hget
  cases hfind : c.frame.findInnermost? name with
  | none =>
      rw [hfind] at h
      obtain ⟨n, c₂, hn, h⟩ := bind_ok.1 h
      cases hn
      cases h
      exact .inr ⟨rfl, rfl⟩
  | some w =>
      rw [hfind] at h
      simp only [if_true] at h
      obtain ⟨u, c₂, hrule, h⟩ := bind_ok.1 h
      obtain ⟨hassign, rfl⟩ := rule_ok.1 hrule
      obtain ⟨rfl, rfl⟩ := pure_ok.1 h
      refine .inl ⟨w, rfl, ?_, rfl, rfl⟩
      unfold Term.requireAssignable at hassign
      split at hassign
      · assumption
      · cases hassign

/-- Values of their own types. -/
theorem stageDeclared_single {t : TypeTable} {o : Operand} {staged : List (Ty × Code.Expr)}
    (h : stageDeclared t none [o] = .ok staged) :
    ∃ z ty te, o.single = .ok z ∧ z.type = .ok ty ∧ z.valueFor t ty = .ok te ∧
      staged = [(ty, te.expr)] := by
  cases hz : o.single with
  | error e => simp [stageDeclared, hz, bind, Except.bind] at h
  | ok z =>
      cases hty : z.type with
      | error e => simp [stageDeclared, hz, hty, bind, Except.bind] at h
      | ok ty =>
          cases hte : z.valueFor t ty with
          | error e =>
              simp [stageDeclared, Operand.valueFor, hz, hty, hte, bind, Except.bind] at h
          | ok te =>
              simp only [stageDeclared, Operand.valueFor, hz, hty, hte, bind, Except.bind] at h
              cases h
              exact ⟨z, ty, te, rfl, hty, hte, rfl⟩

/-- A definition of one variable that compiles. -/
theorem define_ok {name : Name} {value : Expr} {inLoop : Bool}
    (h : treeOf inLoop (.define [name] [value]) c = .ok (tree, c')) :
    ∃ o c₁ z ty te slot, operand value c = .ok (o, c₁) ∧ o.single = .ok z ∧ z.type = .ok ty ∧
      z.valueFor c₁.types ty = .ok te ∧ bindName true name ty c₁ = .ok (slot, c') ∧
      tree = .act [.setSlots [(slot, te.expr)]] := by
  rw [treeOf] at h
  obtain ⟨i, c₁, hdeclare, h⟩ := bind_ok.1 h
  obtain ⟨rfl, rfl⟩ := pure_ok.1 h
  simp only [operands] at hdeclare
  rw [declareValues] at hdeclare
  obtain ⟨ops, c₂, hops, hdeclare⟩ := bind_ok.1 hdeclare
  simp only [sequence] at hops
  obtain ⟨o, c₃, ho, hops⟩ := bind_ok.1 hops
  obtain ⟨rest, c₄, hrest, hops⟩ := bind_ok.1 hops
  cases hrest
  cases hops
  have hstage : (do
      let staged ← rule fun t => stageDeclared t none [o]
      return Code.Instr.setSlots (← bindStaged true [name] staged) : Compile Code.Instr) c₂ =
        .ok (i, c₁) := by
    cases o <;> exact hdeclare
  obtain ⟨staged, c₅, hrule, hstage⟩ := bind_ok.1 hstage
  obtain ⟨hstaged, rfl⟩ := rule_ok.1 hrule
  obtain ⟨z, ty, te, hz, hty, hte, rfl⟩ := stageDeclared_single hstaged
  obtain ⟨slots, c₆, hslots, hstage⟩ := bind_ok.1 hstage
  obtain ⟨rfl, rfl⟩ := pure_ok.1 hstage
  simp only [bindStaged] at hslots
  obtain ⟨slot, c₇, hbind, hslots⟩ := bind_ok.1 hslots
  obtain ⟨rest, c₈, hrest, hslots⟩ := bind_ok.1 hslots
  cases hrest
  cases hslots
  exact ⟨o, c₂, z, ty, te, slot, ho, hz, hty, hte, hbind, rfl⟩

/-- An assignment to a local variable that compiles. -/
theorem assign_ok {target value : Expr} {name : Name} {w : Local} {inLoop : Bool}
    (hname : StraightLine.nameOf? target = some name) (hne : name ≠ blank)
    (hw : c.frame.find? name = some w)
    (h : treeOf inLoop (.assign [target] [value]) c = .ok (tree, c')) :
    ∃ o i, operand value c = .ok (o, c') ∧
      (Place.var 0 w.slot w.type).set c'.types o = .ok i ∧ tree = .act [i] := by
  rw [treeOf] at h
  obtain ⟨is, c₁, hassign, h⟩ := bind_ok.1 h
  obtain ⟨rfl, rfl⟩ := pure_ok.1 h
  simp only [placesOf, operands, assign] at hassign
  obtain ⟨place, c₂, hplace, hassign⟩ := bind_ok.1 hassign
  obtain ⟨rfl, rfl⟩ := placeOf_local hname hne hw hplace
  obtain ⟨o, c₃, ho, hassign⟩ := bind_ok.1 hassign
  obtain ⟨i, c₄, hstore, hassign⟩ := bind_ok.1 hassign
  obtain ⟨hset, rfl⟩ := rule_ok.1 hstore
  obtain ⟨rfl, rfl⟩ := pure_ok.1 hassign
  exact ⟨o, i, ho, hset, rfl⟩

/-- The place of a local variable can be updated. -/
theorem updatedPlace_local {e : Expr} {name : Name} {w : Local} {place : Place}
    (hname : StraightLine.nameOf? e = some name) (hne : name ≠ blank)
    (hw : c.frame.find? name = some w) (h : updatedPlace (placeOf e) c = .ok (place, c')) :
    c' = c ∧ place = .var 0 w.slot w.type := by
  obtain ⟨o, c₁, ho, h⟩ := bind_ok.1 h
  obtain ⟨rfl, rfl⟩ := placeOf_local hname hne hw ho
  cases h
  exact ⟨rfl, rfl⟩

/-- An instruction that updates a variable. -/
theorem setOp_var {t : TypeTable} {slot : Nat} {ty : Ty} {op : BinaryOp} {te : Code.Typed}
    {i : Code.Instr} (h : (Place.var 0 slot ty).setOp t op te = .ok i) :
    i = .update (.var 0 slot) none op (t.kind ty) te.expr (t.zero ty) := by
  unfold Place.setOp at h
  dsimp only at h
  split at h
  · cases h
  · split at h
    · split at h <;> cases h
      rfl
    · split at h <;> cases h
      rfl

/-- An update of a local variable that compiles. -/
theorem update_ok {target value : Expr} {op : BinaryOp} {name : Name} {w : Local} {inLoop : Bool}
    (hname : StraightLine.nameOf? target = some name) (hne : name ≠ blank)
    (hw : c.frame.find? name = some w)
    (h : treeOf inLoop (.opAssign op target value) c = .ok (tree, c')) :
    ∃ o te, operand value c = .ok (o, c') ∧
      (if op.isShift then Prod.fst <$> o.valueOf c'.types else o.valueFor c'.types w.type) =
        .ok te ∧
      tree = .act [.update (.var 0 w.slot) none op (c'.types.kind w.type) te.expr
        (c'.types.zero w.type)] := by
  rw [treeOf] at h
  obtain ⟨i, c₁, hupdate, h⟩ := bind_ok.1 h
  obtain ⟨rfl, rfl⟩ := pure_ok.1 h
  obtain ⟨place, c₂, hplace, hupdate⟩ := bind_ok.1 hupdate
  obtain ⟨rfl, rfl⟩ := updatedPlace_local hname hne hw hplace
  obtain ⟨o, c₃, ho, hupdate⟩ := bind_ok.1 hupdate
  obtain ⟨hset, rfl⟩ := rule_ok.1 hupdate
  refine ⟨o, ?_⟩
  split at hset
  · rename_i hshift
    obtain ⟨te, hte, hset⟩ := rules_ok hset
    exact ⟨te, ho, by rw [if_pos hshift, hte], by rw [setOp_var hset]⟩
  · rename_i hshift
    obtain ⟨te, hte, hset⟩ := rules_ok hset
    exact ⟨te, ho, (if_neg hshift).trans hte, by rw [setOp_var hset]⟩

/-- A step of a local variable that compiles. -/
theorem step_ok {target : Expr} {increment : Bool} {name : Name} {w : Local} {inLoop : Bool}
    (hname : StraightLine.nameOf? target = some name) (hne : name ≠ blank)
    (hw : c.frame.find? name = some w)
    (h : treeOf inLoop (.incDec target increment) c = .ok (tree, c')) :
    c' = c ∧ ∃ te, one c.types w.type = .ok te ∧
      tree = .act [.update (.var 0 w.slot) none (if increment then .add else .sub)
        (c.types.kind w.type) te.expr (c.types.zero w.type)] := by
  rw [treeOf] at h
  obtain ⟨i, c₁, hstep, h⟩ := bind_ok.1 h
  obtain ⟨rfl, rfl⟩ := pure_ok.1 h
  obtain ⟨place, c₂, hplace, hstep⟩ := bind_ok.1 hstep
  obtain ⟨rfl, rfl⟩ := updatedPlace_local hname hne hw hplace
  obtain ⟨hset, rfl⟩ := rule_ok.1 hstep
  obtain ⟨te, hte, hset⟩ := rules_ok hset
  exact ⟨rfl, te, hte, by rw [setOp_var hset]⟩

end Compile

/-! ### The simulation -/

namespace StraightLine

variable {t : TypeTable} {f : Frame} {v v' : Variables} {s s' : Registers.Lowering}
  {links links' : Links} {c c' : Compiler} {ctx : Context} {r fuel : Nat} {m : Machine}
  {file : File} {reg : Registers.Reg} {k : Registers.Kind} {x : Registers.Expr} {z : Term}

/-- Code with slots ends as register code does: with the same error, or where slots and registers
agree. -/
def Reaches (v : Variables) (links : Links) (ctx : Context) (r fuel : Nat) (m : Machine)
    (tree : Tree) : Except EvalError File → Prop
  | .ok file => ∃ m' log, tree.exec ctx r fuel m = ⟨.normal, m', log⟩ ∧ Agree v links r m' file
  | .error err => ∃ m' log, tree.exec ctx r fuel m = ⟨.failed (.error err), m', log⟩

/-- Wherever slots and registers agree, code with slots does what register code does. -/
def Simulates (v v' : Variables) (links links' : Links) (is : List Registers.Instr)
    (tree : Tree) : Prop :=
  ∀ ctx r fuel m file, Agree v links r m file →
    Reaches v' links' ctx r fuel m tree (Registers.runAll is file)

/-- One instruction that stores what register code puts into a register. -/
theorem Reaches.stored {is : List Registers.Instr} {i : Code.Instr} {slot : Nat}
    {res : Except EvalError Value} (hexec : execute ctx r i m = StraightLine.stored r slot m res)
    (hputs : Registers.Puts is s reg.id file res)
    (hok : ∀ w file', res = .ok w → (file.set reg.id w).Keeps s file' →
      Agree v links r (m.store r slot w) file') :
    Reaches v links ctx r fuel m (.act [i]) (Registers.runAll is file) := by
  cases res with
  | error err =>
      rw [show Registers.runAll is file = .error err from hputs]
      exact ⟨m, _, exec_error hexec⟩
  | ok w =>
      obtain ⟨file', hrun, hkeeps⟩ := hputs
      rw [hrun]
      exact ⟨_, _, exec_ok hexec, hok w file' rfl hkeeps⟩

/-- A compiled expression has a type of its own kind. -/
theorem Compiled.type_kind {e : Expr} {ty : Ty} (h : Compiled t f v.registers k e x z)
    (hty : z.type = .ok ty) :
    ofKind? (t.kind ty) = some ((kindOf (kindsIn v.registers) e).getD .int) := by
  cases h with
  | constant i _ hkind _ =>
      cases hty
      rw [hkind]
      rfl
  | code te ty' _ hkind _ =>
      cases hty
      exact hkind

/-- A value of a kind is rendered by what narrows it to the kind. -/
theorem Renders.narrowed {te : Code.Typed} (h : Renders f v.registers k x te) :
    Renders f v.registers k x ⟨te.category, .narrow k.scalar te.expr⟩ := by
  refine ⟨h.category, fun ctx r m file hsees => ?_, h.has⟩
  rw [eval, Run.bind_checked (h.value ctx r m file hsees)]
  cases hx : x.value file with
  | error err => rfl
  | ok w =>
      change EStateM.Result.ok (narrowValue k.scalar w) m = _
      rw [(h.has r m file w hsees hx).narrow]
      rfl

/-- A constant is stored as the residue that it has at the kind of the variable. -/
theorem setConst_ok {j : Int} {slot : Nat} {ty : Ty} {i : Code.Instr}
    (hty : ofKind? (t.kind ty) = some k)
    (hset : (Place.var 0 slot ty).setConst t (.int j) = .ok i) :
    i = .store (.var 0 slot) none (.const (k.cast j)) := by
  have hcategory := category_eq hty
  cases hsigned : k.isSigned <;>
    simp only [hsigned, Bool.false_eq_true, if_false, if_true] at hcategory <;>
    simp only [Place.setConst, Place.var, hcategory] at hset <;>
    obtain ⟨w, hw, hset⟩ := Compile.rules_ok hset <;>
    cases hset <;>
    rw [(toValue_ok hty hw).1] <;>
    rfl

/-- The value of an expression is narrowed to the kind of the variable in which it is stored. -/
theorem setExpr_ok {te : Code.Typed} {slot : Nat} {ty : Ty} {i : Code.Instr}
    (hty : ofKind? (t.kind ty) = some k)
    (hcategory : te.category = if k.isSigned then .int else .uint)
    (hset : (Place.var 0 slot ty).setExpr t te = .ok i) :
    i = .store (.var 0 slot) none (.narrow k.scalar te.expr) := by
  have hown := category_eq hty
  rw [ofKind?_scalar hty]
  cases hsigned : k.isSigned <;> rw [hsigned] at hown hcategory <;>
    simp only [Place.setExpr, Place.var, hown, hcategory] at hset <;>
    cases hset <;>
    rfl

/-- What is stored in a variable is rendered at its kind. -/
theorem Compiled.set_ok {e : Expr} {slot : Nat} {ty : Ty} {i : Code.Instr}
    (h : Compiled t f v.registers k e x z) (hty : ofKind? (t.kind ty) = some k)
    (hset : (Place.var 0 slot ty).set t (.term z) = .ok i) :
    ∃ te : Code.Typed, i = .store (.var 0 slot) none te.expr ∧ Renders f v.registers k x te := by
  cases z with
  | const d type =>
      cases h with
      | constant j hconst hkind hx =>
          exact ⟨_, setConst_ok hty hset, renders_const hx⟩
  | code te ty' =>
      obtain ⟨te', hvalue, hset⟩ := Compile.rules_ok hset
      have hrender : Renders f v.registers k x te' := h.valueFor hty hvalue
      exact ⟨_, setExpr_ok hty hrender.category hset, hrender.narrowed⟩

/-- A name of the innermost block is the one that is meant. -/
theorem find?_of_innermost {name : Name} {w : Local} (h : f.findInnermost? name = some w) :
    f.find? name = some w := by
  unfold Frame.findInnermost? at h
  unfold Frame.find?
  cases hblocks : f.blocks with
  | nil =>
      rw [hblocks] at h
      cases h
  | cons block outer =>
      rw [hblocks] at h
      rw [List.findSome?_cons, show Frame.findIn block name = some w from h]

/-! ### Faithful statements -/

/-- The kinds of variables when one more is known. -/
def kindsWith (kinds : Name → Option Registers.Kind) (name : Name) (k : Registers.Kind) :
    Name → Option Registers.Kind :=
  fun other => if other = name then some k else kinds other

/-- The kinds of variables after a statement. -/
def kindsAfter (kinds : Name → Option Registers.Kind) : StmtKind → Name → Option Registers.Kind
  | .define [name] [value] =>
    kindsWith kinds name ((kinds name).getD ((kindOf kinds value).getD .int))
  | _ => kinds

/-- The count of an update that shifts: of a kind, or a constant that is not negative. -/
def isCount (kinds : Name → Option Registers.Kind) (e : Expr) : Bool :=
  match constantOf? e with
  | some i => decide (0 ≤ i)
  | none => (kindOf kinds e).isSome

/-- A statement means the same whether variables live in slots or in registers.  Its constants do
not depend on a width; a definition of a name that is known does not change its kind, and does not
hide a result that is to be returned; and counts are counts.  `kept` are the names of results that
falling off the end returns. -/
def isFaithful (kinds : Name → Option Registers.Kind) (kept : Name → Bool) : StmtKind → Bool
  | .define [name] [value] =>
    match kinds name with
    | some k => !kept name && (kindOf kinds value).getD .int == k && isExact kinds k value
    | none => isExact kinds ((kindOf kinds value).getD .int) value
  | .assign [target] [value] =>
    ((nameOf? target).bind kinds).all fun k => isExact kinds k value
  | .opAssign op target value =>
    ((nameOf? target).bind kinds).all fun k =>
      isExact kinds (secondKind kinds k op value) value && (!op.isShift || isCount kinds value)
  | _ => true

/-- What a statement does to the state of both compilers, and that its two codes do the same. -/
structure Simulated (kept : Name → Bool) (kind : StmtKind) (c c' : Compiler) (v v' : Variables)
    (s s' : Registers.Lowering) (links links' : Links) (is : List Registers.Instr) (tree : Tree) :
    Prop where
  code : s'.code = s.code.pushAll is
  bound : Bound v' s'
  types : c'.types = c.types
  results : c'.frame.results = c.frame.results
  named : c'.frame.namedResults = c.frame.namedResults
  linked : Linked c'.types c'.frame v' links'
  kinds : kindsIn v'.registers = kindsAfter (kindsIn v.registers) kind
  grows : ∀ b ∈ v.bound, b ∈ v'.bound
  registers : ∀ name reg, register? v'.registers name = some reg →
    register? v.registers name = some reg ∨ reg ∉ v.bound
  stays : ∀ p ∈ links, p ∈ links' ∨
    ∃ name, kept name = false ∧ register? v.registers name = some p.2
  run : Simulates v v' links links' is tree

/-- A statement that stores in a variable without declaring one. -/
theorem Simulated.of_store {kept : Name → Bool} {kind : StmtKind} (hbound : Bound v s)
    (hlinked : Linked c.types c.frame v links) {slot : Nat} (hmem : (some slot, reg) ∈ links)
    (hkinds : kindsAfter (kindsIn v.registers) kind = kindsIn v.registers)
    {is : List Registers.Instr} (hwrites : Registers.Writes is s s') {i : Code.Instr}
    (hrun : ∀ ctx r m file, Agree v links r m file →
      ∃ res, execute ctx r i m = stored r slot m res ∧ Registers.Puts is s reg.id file res ∧
        ∀ w, res = .ok w → reg.kind.Has w) :
    Simulated kept kind c c v v s s' links links is (.act [i]) where
  code := hwrites.code
  bound := hbound.of_live hwrites.live
  types := rfl
  results := rfl
  named := rfl
  linked := hlinked
  kinds := hkinds.symm
  grows _ hb := hb
  registers _ _ h := .inl h
  stays _ hp := .inl hp
  run ctx r fuel m file hagree := by
    obtain ⟨res, hexec, hputs, hhas⟩ := hrun ctx r m file hagree
    exact Reaches.stored hexec hputs fun w file' hres hkeeps =>
      hagree.store hbound hlinked hmem (hhas w hres) hkeeps

/-- A statement that stores in a new slot for a known name. -/
theorem Simulated.of_shadow {kept : Name → Bool} {kind : StmtKind} (hbound : Bound v s)
    (hlinked : Linked c.types c.frame v links) {name : Name}
    (hreg : register? v.registers name = some reg) (hkept : kept name = false) {ty : Ty}
    (hkind : ofKind? (c.types.kind ty) = some reg.kind)
    (hkinds : kindsAfter (kindsIn v.registers) kind = kindsIn v.registers)
    {is : List Registers.Instr} (hwrites : Registers.Writes is s s') {i : Code.Instr}
    (hrun : ∀ ctx r m file, Agree v links r m file →
      ∃ res, execute ctx r i m = stored r c.frame.slots m res ∧
        Registers.Puts is s reg.id file res ∧ ∀ w, res = .ok w → reg.kind.Has w) :
    Simulated kept kind c { c with frame := (c.frame.declare name ty).2 } v v s s' links
      (links.declare c.frame.slots reg) is (.act [i]) where
  code := hwrites.code
  bound := hbound.of_live hwrites.live
  types := rfl
  results := rfl
  named := rfl
  linked := hlinked.declare hbound (fun _ hb => hb) hreg (fun _ _ => rfl) hkind
  kinds := hkinds.symm
  grows _ hb := hb
  registers _ _ h := .inl h
  stays p hp := by
    by_cases heq : p.2 = reg
    · exact .inr ⟨name, hkept, by rw [heq, hreg]⟩
    · exact .inl (Links.mem_declare.2 (.inr ⟨hp, heq⟩))
  run ctx r fuel m file hagree := by
    obtain ⟨res, hexec, hputs, hhas⟩ := hrun ctx r m file hagree
    exact Reaches.stored hexec hputs fun w file' hres hkeeps =>
      hagree.declare hbound hlinked (fun _ hb => hb) (hbound.mem name reg hreg) (hhas w hres) hkeeps

/-- The value of an expression does not depend on the kinds of registers. -/
theorem value_alloc (file : File) (reg : Registers.Reg) (x : Registers.Expr) :
    x.value (file.alloc reg) = x.value file := by
  induction x with
  | imm c => rfl
  | reg r => rfl
  | unary op x ih => rw [Registers.Expr.value, Registers.Expr.value, ih]
  | binary op x y ihx ihy => rw [Registers.Expr.value, Registers.Expr.value, ihx, ihy]

/-- A statement that stores in a new slot for a new name. -/
theorem Simulated.of_new {kept : Name → Bool} {kind : StmtKind} (hbound : Bound v s)
    (hlinked : Linked c.types c.frame v links) {name : Name} (hne : name ≠ blank)
    (hnone : register? v.registers name = none) {s₁ : Registers.Lowering}
    (halloc : s.alloc k = (reg, s₁)) {ty : Ty} (hkind : ofKind? (c.types.kind ty) = some k)
    (hkinds : kindsAfter (kindsIn v.registers) kind = kindsWith (kindsIn v.registers) name k)
    {is : List Registers.Instr} (hwrites : Registers.Writes is s₁ s') {i : Code.Instr}
    (hrun : ∀ ctx r m file, Agree v links r m file →
      ∃ res, execute ctx r i m = stored r c.frame.slots m res ∧
        Registers.Puts is s₁ reg.id (file.alloc reg) res ∧ ∀ w, res = .ok w → k.Has w) :
    Simulated kept kind c { c with frame := (c.frame.declare name ty).2 } v (v.bind name reg) s s'
      links (links.declare c.frame.slots reg) (.alloc reg :: is) (.act [i]) := by
  have hreg : reg.kind = k := by
    have hkind : (s.alloc k).1.kind = k := rfl
    rwa [halloc] at hkind
  have hbound' : Bound (v.bind name reg) s₁ := hbound.bind halloc hne
  have hle : ∀ b ∈ v.bound, b ∈ (v.bind name reg).bound := fun b hb => List.mem_append_left _ hb
  refine ⟨?_, hbound'.of_live hwrites.live, rfl, rfl, rfl, ?_, ?_, hle, ?_, ?_, ?_⟩
  · rw [hwrites.code, show s₁ = (s.alloc k).2 by rw [halloc]]
    have hid : (s.alloc k).1 = reg := by rw [halloc]
    rw [← hid]
    rfl
  · exact hlinked.declare hbound' hle (register?_bind v name reg)
      (fun _ hother => register?_bind_ne v hother reg) (by rw [hreg]; exact hkind)
  · rw [hkinds]
    funext other
    unfold kindsIn kindsWith
    by_cases hother : other = name
    · subst hother
      rw [register?_bind, if_pos rfl, Option.map_some, hreg]
    · rw [register?_bind_ne v hother, if_neg hother]
  · intro other b hb
    by_cases hother : other = name
    · subst hother
      rw [register?_bind] at hb
      cases hb
      exact .inr (hbound.fresh halloc)
    · rw [register?_bind_ne v hother] at hb
      exact .inl hb
  · intro p hp
    refine .inl (Links.mem_declare.2 (.inr ⟨hp, fun heq => hbound.fresh halloc ?_⟩))
    rw [← heq]
    exact hlinked.mem p hp
  · intro ctx r fuel m file hagree
    obtain ⟨res, hexec, hputs, hhas⟩ := hrun ctx r m file hagree
    change Reaches _ _ ctx r fuel m _ (Registers.runAll is (file.alloc reg))
    exact Reaches.stored hexec hputs fun w file' hres hkeeps =>
      (hagree.alloc hbound halloc _).declare hbound' hlinked hle
        (List.mem_append_right _ (List.mem_singleton_self _)) (by rw [hreg]; exact hhas w hres)
        hkeeps

/-- A name that is known keeps its kind. -/
theorem kindsWith_self {kinds : Name → Option Registers.Kind} {name : Name}
    (h : kinds name = some k) : kindsWith kinds name k = kinds := by
  funext other
  unfold kindsWith
  by_cases hother : other = name
  · rw [if_pos hother, hother, h]
  · rw [if_neg hother]

/-- **A definition** does the same in both codes. -/
theorem define_simulates {name : Name} {value : Expr} {inLoop : Bool} {kept : Name → Bool}
    {tree : Tree} {u : Unit} (hbound : Bound v s) (hlinked : Linked c.types c.frame v links)
    (hfaithful : isFaithful (kindsIn v.registers) kept (.define [name] [value]) = true)
    (hends : Ends (define name value) v s u v' s')
    (hcompile : Compile.treeOf inLoop (.define [name] [value]) c = .ok (tree, c')) :
    ∃ is links', Simulated kept (.define [name] [value]) c c' v v' s s' links links' is tree := by
  obtain ⟨o, c₁, z, ty, te, slot, ho, hz, hty, hte, hslot, rfl⟩ := Compile.define_ok hcompile
  have hlive (name : Name) (b : Registers.Reg) (hb : register? v.registers name = some b) :
      s.isLive b.id = true := hbound.live b (hbound.mem name b hb)
  obtain ⟨hne, ⟨reg, x, hreg, hx, hassign, rfl⟩ | ⟨reg, x, s₁, hnone, hx, halloc, hassign, rfl⟩⟩ :=
    define_ends hends
  · -- The name has a register: it keeps its slot, or a new slot takes the place of the old one.
    have hkinds : kindsIn v'.registers name = some reg.kind := by simp [kindsIn, hreg]
    simp only [isFaithful, hkinds, Bool.and_eq_true, Bool.not_eq_true', beq_iff_eq] at hfaithful
    obtain ⟨⟨hkept, hown⟩, hexact⟩ := hfaithful
    obtain ⟨w, hw, hmem, hkind⟩ := hlinked.named name reg hreg
    obtain ⟨rfl, z', rfl, hcompiled⟩ := operand_straight hlinked.scoped (translates hx)
      (ofKind?_isInteger hkind) hexact ho
    cases hz
    have hkindTy : ofKind? (c₁.types.kind ty) = some reg.kind := by
      rw [← hown]
      exact hcompiled.type_kind hty
    have hrender : Renders c₁.frame v'.registers reg.kind x te := hcompiled.valueFor hkindTy hte
    obtain ⟨is, hwrites, hputs⟩ := Registers.assign_spec hassign ((translates hx).live hlive)
      (hlive name reg hreg)
    have hrun (slot : Nat) (ctx : Context) (r : Nat) (m : Machine) (file : File)
        (hagree : Agree v' links r m file) :
        ∃ res, execute ctx r (.setSlots [(some slot, te.expr)]) m = stored r slot m res ∧
          Registers.Puts is s reg.id file res ∧ ∀ w, res = .ok w → reg.kind.Has w := by
      have hsees := hagree.sees hlinked
      refine ⟨x.value file, execute_setSlots (hrender.value ctx r m file hsees), hputs file ?_,
        fun w hw => hrender.has r m file w hsees hw⟩
      rw [hagree.kinds reg (hbound.mem name reg hreg), (translates hx).kind_eq]
    have hafter : kindsAfter (kindsIn v'.registers) (.define [name] [value]) =
        kindsIn v'.registers := by
      rw [kindsAfter, hkinds]
      exact kindsWith_self hkinds
    rcases Compile.bindName_ok hne hslot with ⟨w', hw', -, rfl, rfl⟩ | ⟨rfl, rfl⟩
    · obtain rfl : w = w' := Option.some.inj (hw.symm.trans (find?_of_innermost hw'))
      exact ⟨is, links, .of_store hbound hlinked hmem hafter hwrites (hrun w.slot)⟩
    · exact ⟨is, _, .of_shadow hbound hlinked hreg hkept hkindTy hafter hwrites
        (hrun c₁.frame.slots)⟩
  · have hkinds : kindsIn v.registers name = none := by simp [kindsIn, hnone]
    simp only [isFaithful, hkinds] at hfaithful
    obtain ⟨rfl, z', rfl, hcompiled⟩ := operand_straight hlinked.scoped (translates hx)
      (kindOf_getD_isInteger hlinked.scoped.integers rfl value) hfaithful ho
    cases hz
    have hkindTy := hcompiled.type_kind hty
    have hrender := hcompiled.valueFor hkindTy hte
    have hbound' : Bound (v.bind name reg) s₁ := hbound.bind halloc hne
    obtain ⟨is, hwrites, hputs⟩ := Registers.assign_spec hassign
      ((translates hx).live fun name b hb =>
        hbound'.live b (List.mem_append_left _ (hbound.mem name b hb)))
      (hbound'.live reg (List.mem_append_right _ (List.mem_singleton_self _)))
    have hreg : reg.kind = (kindOf (kindsIn v.registers) value).getD .int := by
      have hkind : (s.alloc ((kindOf (kindsIn v.registers) value).getD .int)).1.kind =
        (kindOf (kindsIn v.registers) value).getD .int := rfl
      rwa [halloc] at hkind
    rcases Compile.bindName_ok hne hslot with ⟨w, hw, -⟩ | ⟨rfl, rfl⟩
    · obtain ⟨b, hb⟩ := hlinked.known name w (find?_of_innermost hw)
      rw [hnone] at hb
      cases hb
    · refine ⟨_, _, .of_new hbound hlinked hne hnone halloc hkindTy ?_ hwrites
        fun ctx r m file hagree => ?_⟩
      · rw [kindsAfter, hkinds]
        rfl
      · have hsees := hagree.sees hlinked
        refine ⟨x.value file, execute_setSlots (hrender.value ctx r m file hsees), ?_,
          fun w hw => hrender.has r m file w hsees hw⟩
        rw [← value_alloc file reg x]
        refine hputs _ ?_
        rw [File.alloc_self, hreg, (translates hx).kind_eq]

/-- The variable that a target is. -/
theorem target_linked (hbound : Bound v s) (hlinked : Linked c.types c.frame v links)
    {target : Expr} (hreg : localOf? v.registers target = some reg) :
    ∃ name w, nameOf? target = some name ∧ name ≠ blank ∧
      register? v.registers name = some reg ∧ c.frame.find? name = some w ∧
      (some w.slot, reg) ∈ links ∧ ofKind? (c.types.kind w.type) = some reg.kind ∧
      (nameOf? target).bind (kindsIn v.registers) = some reg.kind := by
  rw [localOf?_eq, Option.bind_eq_some_iff] at hreg
  obtain ⟨name, hname, hreg⟩ := hreg
  obtain ⟨w, hw, hmem, hkind⟩ := hlinked.named name reg hreg
  refine ⟨name, w, hname, ?_, hreg, hw, hmem, hkind, by simp [hname, kindsIn, hreg]⟩
  rintro rfl
  rw [hbound.blank] at hreg
  cases hreg

/-- **An assignment** does the same in both codes. -/
theorem assign_simulates {target value : Expr} {inLoop : Bool} {kept : Name → Bool}
    {tree : Tree} {u : Unit} (hbound : Bound v s) (hlinked : Linked c.types c.frame v links)
    (hfaithful : isFaithful (kindsIn v.registers) kept (.assign [target] [value]) = true)
    (hreg : localOf? v.registers target = some reg) (hends : Ends (assign reg value) v s u v' s')
    (hcompile : Compile.treeOf inLoop (.assign [target] [value]) c = .ok (tree, c')) :
    ∃ is, Simulated kept (.assign [target] [value]) c c' v v' s s' links links is tree := by
  obtain ⟨name, w, hname, hne, hreg, hw, hmem, hkind, hkinds⟩ := target_linked hbound hlinked hreg
  obtain ⟨o, i, ho, hset, rfl⟩ := Compile.assign_ok hname hne hw hcompile
  obtain ⟨x, hx, hassign, rfl⟩ := assign_ends hends
  simp only [isFaithful, hkinds, Option.all_some] at hfaithful
  obtain ⟨rfl, z, rfl, hcompiled⟩ := operand_straight hlinked.scoped (translates hx)
    (ofKind?_isInteger hkind) hfaithful ho
  obtain ⟨te, rfl, hrender⟩ := hcompiled.set_ok hkind hset
  obtain ⟨is, hwrites, hputs⟩ := Registers.assign_spec hassign
    ((translates hx).live fun name b hb => hbound.live b (hbound.mem name b hb))
    (hbound.live reg (hbound.mem name reg hreg))
  refine ⟨is, .of_store hbound hlinked hmem rfl hwrites fun ctx r m file hagree => ?_⟩
  have hsees := hagree.sees hlinked
  refine ⟨x.value file, execute_store (hrender.value ctx r m file hsees), hputs file ?_,
    fun w hw => hrender.has r m file w hsees hw⟩
  rw [hagree.kinds reg (hbound.mem name reg hreg), (translates hx).kind_eq]

/-- Updates apply arithmetic or a shift. -/
theorem isArithmetic_of_update {op : BinaryOp} {inst : Registers.Update}
    (h : Registers.Update.ofOp? op = some inst) : isArithmetic op = true := by
  cases op <;> first | rfl | cases h

/-- Results of an operator have the kind of its first operand. -/
theorem has_binary {op : BinaryOp} (hop : isArithmetic op = true) {a b w : Value} (ha : k.Has a)
    (hb : op.isShift = false → k.Has b) (h : binaryValues op k.scalar a b = .ok w) : k.Has w := by
  cases hshift : op.isShift with
  | true => exact ha.shift hshift h
  | false =>
      have harith : op.isIntArith = true := by simpa [isArithmetic, hshift] using hop
      exact ha.binary (hb hshift) harith h

/-- A signed count that is not negative counts as an unsigned one. -/
theorem shiftCount_int {i : Int} (h : Registers.Kind.int.Holds i) (hpos : 0 ≤ i) :
    ScriptCore.shiftCount (Registers.Kind.int.cast i) =
      ScriptCore.shiftCount (Registers.Kind.uint.cast i) := by
  have hrange := h.signed rfl
  have hneg : ¬ Int64.ofInt i < 0 := by
    rw [Int64.lt_iff_toInt_lt, Int64.toInt_ofInt_of_le hrange.1 hrange.2]
    exact Int.not_lt.2 hpos
  have hbits : (Int64.ofInt i).toUInt64 = UInt64.ofInt i := by
    apply UInt64.toBitVec_inj.1
    rw [toBitVec_ofInt_uint]
    exact Int64.toBitVec_ofInt i
  change (if Int64.ofInt i < 0 then _ else Except.ok (Int64.ofInt i).toUInt64) =
    Except.ok (UInt64.ofInt i)
  rw [if_neg hneg, hbits]

/-- Only the count matters in the second operand of a shift of integers. -/
theorem binaryValues_congr {op : BinaryOp} (hop : op.isShift = true) {a b b' : Value}
    (ha : k.Has a) (h : ScriptCore.shiftCount b = ScriptCore.shiftCount b') :
    binaryValues op k.scalar a b = binaryValues op k.scalar a b' := by
  have hcomparison : op.isComparison = false := by
    cases op with
    | shl | shr => rfl
    | _ => cases hop
  obtain ⟨i, rfl⟩ := ha
  cases hsigned : k.isSigned with
  | true =>
      simp only [binaryValues, hcomparison, hop, h, Registers.Kind.cast_signed hsigned,
        Bool.false_eq_true, if_false, if_true]
  | false =>
      simp only [binaryValues, hcomparison, hop, h, Registers.Kind.cast_unsigned hsigned,
        Bool.false_eq_true, if_false, if_true]

/-- The operand of an update renders its translation, except that a constant count may be signed;
that makes no difference. -/
theorem update_operand (ctx : Context) {op : BinaryOp} {e : Expr} {te : Code.Typed} {ty : Ty}
    (h : Compiled t f v.registers (secondKind (kindsIn v.registers) k op e) e x z)
    (hty : ofKind? (t.kind ty) = some k)
    (hcount : op.isShift = true → isCount (kindsIn v.registers) e = true)
    (hte : (if op.isShift then Prod.fst <$> z.valueOf t else z.valueFor t ty) = .ok te)
    (hsees : Sees f v.registers r m file) :
    ∃ res, eval ctx r te.expr m = Run.check res m ∧
      (∀ a, k.Has a → (do binaryValues op k.scalar a (← res)) = (do
        binaryValues op k.scalar a (← x.value file))) ∧
      ∀ w, res = .ok w → op.isShift = false → k.Has w := by
  cases hshift : op.isShift with
  | false =>
      rw [hshift] at hte
      rw [secondKind, hshift] at h
      have hrender := Compiled.valueFor h hty hte
      exact ⟨x.value file, hrender.value ctx r m file hsees, fun _ _ => rfl,
        fun w hw _ => hrender.has r m file w hsees hw⟩
  | true =>
      rw [hshift, if_pos rfl] at hte
      rw [secondKind, hshift, if_pos rfl] at h
      have hcount := hcount hshift
      cases hvalue : z.valueOf t with
      | error err =>
          rw [hvalue] at hte
          cases hte
      | ok p =>
          obtain ⟨te', ty'⟩ := p
          rw [hvalue] at hte
          cases hte
          cases h with
          | constant i hconst hnone hx =>
              unfold isCount at hcount
              rw [hconst] at hcount
              obtain ⟨ty₁, hty₁, hvalue⟩ := Compile.rules_ok hvalue
              cases hty₁
              obtain ⟨te₁, hfixed, hvalue⟩ := Compile.rules_ok hvalue
              cases hvalue
              obtain ⟨rfl, hholds⟩ := fixed_ok (k := .int) rfl hfixed
              refine ⟨.ok (Registers.Kind.int.cast i), eval_const ctx r _ ▸ rfl, fun a ha => ?_,
                fun _ _ hfalse => absurd hfalse (by decide)⟩
              rw [hx, hnone]
              exact binaryValues_congr hshift ha (shiftCount_int hholds (by simpa using hcount))
          | code te ty hconst hkind hrenders =>
              cases hvalue
              unfold isCount at hcount
              rw [hconst] at hcount
              obtain ⟨ke, hke⟩ := Option.isSome_iff_exists.1 hcount
              rw [hke] at hrenders
              have hrender := hrenders rfl
              exact ⟨x.value file, hrender.value ctx r m file hsees, fun _ _ => rfl,
                fun _ _ hfalse => absurd hfalse (by decide)⟩

/-- An update is translated with its operand at the kind that the operator asks for. -/
theorem update_ends {op : BinaryOp} {target value : Expr} {u : Unit}
    (h : Ends (statement (.opAssign op target value)) v s u v' s') :
    ∃ reg inst x, localOf? v.registers target = some reg ∧
      Registers.Update.ofOp? op = some inst ∧
      exprOf? v.registers (secondKind (kindsIn v.registers) reg.kind op value) value = some x ∧
      (Registers.update inst x reg).Ends s u s' ∧ v' = v := by
  simp only [statement, ends_bind, ends_get, ends_need, ends_write] at h
  obtain ⟨_, _, _, ⟨rfl, rfl, rfl⟩, reg, _, _, ⟨hreg, rfl, rfl⟩, inst, _, _, ⟨hinst, rfl, rfl⟩,
      x, _,
    _, ⟨hx, rfl, rfl⟩, hupdate, rfl⟩ := h
  exact ⟨reg, inst, x, hreg, hinst, hx, hupdate, rfl⟩

/-- **An update** does the same in both codes. -/
theorem update_simulates {op : BinaryOp} {target value : Expr} {inLoop : Bool} {kept : Name → Bool}
    {tree : Tree} {u : Unit} (hbound : Bound v s) (hlinked : Linked c.types c.frame v links)
    (hfaithful : isFaithful (kindsIn v.registers) kept (.opAssign op target value) = true)
    (hends : Ends (statement (.opAssign op target value)) v s u v' s')
    (hcompile : Compile.treeOf inLoop (.opAssign op target value) c = .ok (tree, c')) :
    ∃ is, Simulated kept (.opAssign op target value) c c' v v' s s' links links is tree := by
  obtain ⟨reg, inst, x, hlocal, hinst, hx, hupdate, rfl⟩ := update_ends hends
  obtain ⟨name, w, hname, hne, hreg, hw, hmem, hkind, hkinds⟩ :=
    target_linked hbound hlinked hlocal
  obtain ⟨o, te, ho, hte, rfl⟩ := Compile.update_ok hname hne hw hcompile
  have harith := isArithmetic_of_update hinst
  simp only [isFaithful, hkinds, Option.all_some, Bool.and_eq_true, Bool.or_eq_true,
    Bool.not_eq_true'] at hfaithful
  obtain ⟨hexact, hcount⟩ := hfaithful
  have hcount (hshift : op.isShift = true) : isCount (kindsIn v'.registers) value = true := by
    simpa [hshift] using hcount
  obtain ⟨rfl, z, rfl, hcompiled⟩ := operand_straight hlinked.scoped (translates hx)
    (secondKind_isInteger hlinked.scoped.integers (ofKind?_isInteger hkind) op value) hexact ho
  obtain ⟨is, hwrites, hputs⟩ := Registers.update_spec hinst hupdate
    ((translates hx).live fun name b hb => hbound.live b (hbound.mem name b hb))
    (hbound.live reg (hbound.mem name reg hreg))
  refine ⟨is, .of_store hbound hlinked hmem rfl hwrites fun ctx r m file hagree => ?_⟩
  have hsees := hagree.sees hlinked
  have hhas : reg.kind.Has (file.values reg.id) := hagree.has _ hmem
  have hslot : (m.record r).get w.slot = file.values reg.id := hagree.values _ hmem
  obtain ⟨res, heval, hsame, hres⟩ := update_operand ctx hcompiled hkind hcount hte hsees
  refine ⟨_, execute_update heval, ?_, fun w' hw' => ?_⟩
  · rw [hslot, ← ofKind?_scalar hkind, hsame _ hhas]
    exact hputs file (hagree.kinds reg (hbound.mem name reg hreg))
  · rw [hslot, ← ofKind?_scalar hkind] at hw'
    cases res with
    | error err => cases hw'
    | ok b => exact has_binary harith hhas (fun hshift => hres b rfl hshift) hw'

/-- A step is a change of the register in place. -/
theorem step_ends {target : Expr} {increment : Bool} {u : Unit}
    (h : Ends (statement (.incDec target increment)) v s u v' s') :
    ∃ reg, localOf? v.registers target = some reg ∧
      (Registers.adjust (if increment then .inc else .dec) reg).Ends s u s' ∧ v' = v := by
  simp only [statement, ends_bind, ends_get, ends_need, ends_write] at h
  obtain ⟨_, _, _, ⟨rfl, rfl, rfl⟩, reg, _, _, ⟨hreg, rfl, rfl⟩, hadjust, rfl⟩ := h
  exact ⟨reg, hreg, hadjust, rfl⟩

/-- **A step** does the same in both codes. -/
theorem step_simulates {target : Expr} {increment inLoop : Bool} {kept : Name → Bool}
    {tree : Tree} {u : Unit} (hbound : Bound v s) (hlinked : Linked c.types c.frame v links)
    (hends : Ends (statement (.incDec target increment)) v s u v' s')
    (hcompile : Compile.treeOf inLoop (.incDec target increment) c = .ok (tree, c')) :
    ∃ is, Simulated kept (.incDec target increment) c c' v v' s s' links links is tree := by
  obtain ⟨reg, hlocal, hadjust, rfl⟩ := step_ends hends
  obtain ⟨name, w, hname, hne, hreg, hw, hmem, hkind, -⟩ := target_linked hbound hlinked hlocal
  obtain ⟨rfl, te, hone, rfl⟩ := Compile.step_ok hname hne hw hcompile
  obtain ⟨rfl, -⟩ := fixed_ok hkind hone
  obtain ⟨is, hwrites, hputs⟩ := Registers.adjust_spec hadjust
  refine ⟨is, .of_store hbound hlinked hmem rfl hwrites fun ctx r m file hagree => ?_⟩
  have hhas : reg.kind.Has (file.values reg.id) := hagree.has _ hmem
  have hslot : (m.record r).get w.slot = file.values reg.id := hagree.values _ hmem
  have heval : eval ctx r (.const (reg.kind.cast 1)) m = Run.check (.ok (reg.kind.cast 1)) m := by
    rw [eval_const]
    rfl
  refine ⟨_, execute_update heval, ?_, fun w' hw' => ?_⟩
  · rw [hslot, ← ofKind?_scalar hkind]
    exact hputs file (hagree.kinds reg (hbound.mem name reg hreg))
  · rw [hslot, ← ofKind?_scalar hkind] at hw'
    refine has_binary ?_ hhas (fun _ => ⟨1, rfl⟩) hw'
    cases increment <;> rfl

/-- **A statement** of a straight line does the same in both codes. -/
theorem statement_simulates {kind : StmtKind} {inLoop : Bool} {kept : Name → Bool} {tree : Tree}
    {u : Unit} (hbound : Bound v s) (hlinked : Linked c.types c.frame v links)
    (hfaithful : isFaithful (kindsIn v.registers) kept kind = true)
    (hends : Ends (statement kind) v s u v' s')
    (hcompile : Compile.treeOf inLoop kind c = .ok (tree, c')) :
    ∃ is links', Simulated kept kind c c' v v' s s' links links' is tree := by
  unfold statement at hends
  split at hends
  · exact define_simulates hbound hlinked hfaithful hends hcompile
  · simp only [ends_bind, ends_get, ends_need] at hends
    obtain ⟨_, _, _, ⟨rfl, rfl, rfl⟩, reg, _, _, ⟨hreg, rfl, rfl⟩, hassign⟩ := hends
    obtain ⟨is, hsimulated⟩ := assign_simulates hbound hlinked hfaithful hreg hassign hcompile
    exact ⟨is, links, hsimulated⟩
  · obtain ⟨is, hsimulated⟩ := update_simulates hbound hlinked hfaithful hends hcompile
    exact ⟨is, links, hsimulated⟩
  · obtain ⟨is, hsimulated⟩ := step_simulates hbound hlinked hends hcompile
    exact ⟨is, links, hsimulated⟩
  · exact absurd hends not_ends_refuse

end StraightLine

end ScriptCore
