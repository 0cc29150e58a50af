import ScriptCore.Proofs.Assignment.Reading
import ScriptCore.Proofs.Assignment.Together
import ScriptCore.Proofs.Operands.Made

/-!
# Rules run their operands in order

For every rule that compiles an expression from its parts: the rule compiles the parts in their
order, and what it gives has a plan that runs them in this order, each once, but for constants.
There are two exceptions, for which the parts have to meet a condition: the fields of a struct
literal are evaluated in the order of the struct's declaration (`Ascending`), and the size of a new
map is not evaluated.

Main statements: `composite_planned`, `callOperand_planned`, `selectorCall_planned` and
`builtinCall_planned`.
-/

namespace ScriptCore.Compile

open Evaluation

variable {t : TypeTable} {c c' : Compiler} {op : Operand} {ops done : List Operand}
  {e : Code.Expr} {es : List Code.Expr} {ss : List (Step Operand)}

/-! ### Names and selectors -/

/-- A fixed value. -/
theorem const_made (v : Value) : Made [] (.const v) :=
  ⟨[.value v], rfl, fun x r => by rw [Step.runAll_single, eval_const]; rfl⟩

/-- A variable. -/
theorem load_made (depth slot : Nat) : Made [] (.load depth slot) :=
  ⟨[.load depth slot], rfl, fun x r => by
    simp only [Step.runAll_single, Step.run, eval, bind_assoc, List.nil_append]⟩

/-- A name has no operands. -/
theorem identifier_planned {name : Name} (h : identifier name c = .ok (op, c')) :
    Planned [] op := by
  obtain ⟨m, c₁, hm, h⟩ := bind_ok.1 h
  cases m with
  | var depth slot ty | func depth slot ty =>
      obtain ⟨t, c₂, -, h⟩ := bind_ok.1 h
      cases h
      exact (load_made depth slot).ofExpr t ty
  | const k ty =>
      cases h
      exact .const rfl k ty
  | host f =>
      cases h
      exact (const_made f.value).planned _ _
  | type ty | package p | builtin b => cases h

/-- A method with its receiver. -/
theorem methodValue_planned (hrecv : Made ops e) {m : Binding} {name : Name}
    (h : methodValue e m name c = .ok (op, c')) : Planned ops op := by
  obtain ⟨steps, hoperands, hrun⟩ := hrecv
  have hmade : Made ops (.bindMethod name e (.load c'.globalsDepth m.slot)) := by
    refine ⟨steps ++ [Step.load c'.globalsDepth m.slot, .apply (.bindMethod name)], ?_,
      fun x r => ?_⟩
    · rw [Step.operands_append, hoperands]
      exact List.append_nil _
    · simp only [Step.runAll_append, hrun, Step.runAll, Step.run, Action.run, eval, bind_assoc,
        pure_bind, bind_pure, List.singleton_append]
  obtain ⟨t, c₁, -, h⟩ := bind_ok.1 h
  cases hs : t.signature? m.type with
  | none =>
      rw [hs] at h
      cases h
  | some s =>
      rw [hs] at h
      obtain ⟨ty, c₂, -, h⟩ := bind_ok.1 h
      obtain ⟨c₃, c₄, hget, h⟩ := bind_ok.1 h
      cases hget
      cases h
      exact hmade.planned _ _

/-- A part of a struct. -/
theorem fieldOf_planned (hbase : Made ops e) {ty : Ty} {name : Name} {x : Term}
    (h : fieldOf t e ty name = .ok x) : Planned ops (.term x) := by
  unfold fieldOf at h
  split at h
  · cases h
  · split at h
    · rename_i i f _
      cases h
      refine (hbase.apply (a := .field i) fun x r => ?_).ofExpr _ _
      simp only [eval, evalAll, Action.run, bind_assoc, pure_bind]
    · cases h

/-- A method or a field. -/
theorem select_planned (hbase : Made ops e) {ty : Ty} {name : Name}
    (h : select e ty name c = .ok (op, c')) : Planned ops op := by
  obtain ⟨c₁, c₂, hget, h⟩ := bind_ok.1 h
  cases hget
  cases hm : c.method? ty name with
  | some m =>
      rw [hm] at h
      exact methodValue_planned hbase h
  | none =>
      rw [hm] at h
      obtain ⟨x, c₃, hx, h⟩ := bind_ok.1 h
      cases h
      exact fieldOf_planned hbase (rule_ok.1 hx).1

/-- A selector runs what is before the point, unless that is a package. -/
theorem selector_planned {baseName : Option Name} {base : Compile Operand} {field : Name}
    (h : selector baseName base field c = .ok (op, c')) :
    (∃ f c₁, packageMember? baseName field c = .ok (some f, c₁) ∧ Planned [] op) ∨
      ∃ c₁ b c₂, packageMember? baseName field c = .ok (none, c₁) ∧ base c₁ = .ok (b, c₂) ∧
        Planned [b] op := by
  obtain ⟨member, c₁, hmember, h⟩ := bind_ok.1 h
  cases member with
  | some f =>
      cases h
      exact .inl ⟨f, _, hmember, (const_made f.value).planned _ _⟩
  | none =>
      obtain ⟨b, c₂, hb, h⟩ := bind_ok.1 h
      obtain ⟨⟨e, ty⟩, c₃, hvalue, h⟩ := bind_ok.1 h
      obtain ⟨ss, hpart⟩ := Operand.valueOf_part (rule_ok.1 hvalue).1
      exact .inr ⟨c₁, b, c₂, hmember, hb, select_planned hpart.made h⟩

/-! ### Indices -/

/-- An element of a map, slice or string. -/
theorem elementOf_planned {container key : Operand} {f : Code.Typed} {ty : Ty} {x : Term}
    (hcontainer : Part container f.expr ss) (h : elementOf t f ty key = .ok x) :
    Planned [container, key] (.term x) := by
  have hmade (k : Code.Expr) (a : Action) (e : Code.Expr) (ha : Applies a [f.expr, k] e)
      (hk : ∃ ss, Part key k ss) : Made [container, key] e := by
    obtain ⟨ss', hk⟩ := hk
    exact (Parts.cons hcontainer hk.parts).made ha
  unfold elementOf at h
  split at h
  · rename_i elem _ _ _
    obtain ⟨k, hk, h⟩ := rules_ok h
    cases h
    refine (hmade k.expr (.mapGet (t.zero elem)) _ (fun x r => ?_)
      (Operand.valueFor_part hk)).ofExpr _ _
    simp only [eval, evalAll, Action.run, bind_assoc, pure_bind]
  · obtain ⟨i, hi, h⟩ := rules_ok h
    cases h
    refine (hmade i .sliceGet _ (fun x r => ?_) (Operand.index_part hi)).ofExpr _ _
    simp only [eval, evalAll, Action.run, bind_assoc, pure_bind]
  · obtain ⟨i, hi, h⟩ := rules_ok h
    cases h
    refine (hmade i .byteAt _ (fun x r => ?_) (Operand.index_part hi)).planned _ _
    simp only [eval, evalAll, Action.run, bind_assoc, pure_bind]
  · cases h

/-- An index expression runs the container, then the key. -/
theorem index_planned {container key : Compile Operand}
    (h : index container key c = .ok (op, c')) :
    ∃ ops, sequence [container, key] c = .ok (ops, c') ∧ Planned ops op := by
  obtain ⟨b, c₁, hb, h⟩ := bind_ok.1 h
  obtain ⟨⟨f, ty⟩, c₂, hvalue, h⟩ := bind_ok.1 h
  obtain ⟨hvalue', rfl⟩ := rule_ok.1 hvalue
  obtain ⟨k, c₃, hk, h⟩ := bind_ok.1 h
  obtain ⟨x, c₄, hx, h⟩ := bind_ok.1 h
  obtain ⟨hx', rfl⟩ := rule_ok.1 hx
  cases h
  obtain ⟨ss, hpart⟩ := Operand.valueOf_part hvalue'
  exact ⟨[b, k], bind_ok.2 ⟨b, c₁, hb, bind_ok.2 ⟨[k], c', bind_ok.2 ⟨k, c', hk, rfl⟩, rfl⟩⟩,
    elementOf_planned hpart hx'⟩

/-! ### Literals -/

/-- An operand that is converted to a type. -/
theorem converted_part {p : Compile Operand} {ty : Ty} (h : converted p ty c = .ok (e, c')) :
    ∃ op ss, p c = .ok (op, c') ∧ Part op e ss := by
  obtain ⟨op, c₁, hp, h⟩ := bind_ok.1 h
  obtain ⟨f, c₂, hf, h⟩ := bind_ok.1 h
  obtain ⟨hvalue, rfl⟩ := rule_ok.1 hf
  cases h
  obtain ⟨ss, hpart⟩ := Operand.valueFor_part hvalue
  exact ⟨op, ss, hp, hpart⟩

/-- An operand that is used as an index. -/
theorem indexed_part {p : Compile Operand} (h : indexed p c = .ok (e, c')) :
    ∃ op ss, p c = .ok (op, c') ∧ Part op e ss := by
  obtain ⟨op, c₁, hp, h⟩ := bind_ok.1 h
  obtain ⟨hi, rfl⟩ := rule_ok.1 h
  obtain ⟨ss, hpart⟩ := Operand.index_part hi
  exact ⟨op, ss, hp, hpart⟩

/-- Steps one after the other. -/
theorem sequence_cons_ok {α : Type} {p : Compile α} {rest : List (Compile α)} {as : List α} :
    sequence (p :: rest) c = .ok (as, c') ↔
      ∃ a c₁ tail, p c = .ok (a, c₁) ∧ sequence rest c₁ = .ok (tail, c') ∧ as = a :: tail := by
  simp only [sequence, bind_ok, pure_ok]
  constructor
  · rintro ⟨a, c₁, hp, tail, c₂, hrest, rfl, rfl⟩
    exact ⟨a, c₁, tail, hp, hrest, rfl⟩
  · rintro ⟨a, c₁, tail, hp, hrest, rfl⟩
    exact ⟨a, c₁, hp, tail, c', hrest, rfl, rfl⟩

/-- Operands each of which becomes a part. -/
theorem sequence_parts {f : Compile Operand → Compile Code.Expr}
    (hf : ∀ p c e c', f p c = .ok (e, c') → ∃ op ss, p c = .ok (op, c') ∧ Part op e ss)
    {steps : List (Compile Operand)} (h : sequence (steps.map f) c = .ok (es, c')) :
    ∃ ops ss, sequence steps c = .ok (ops, c') ∧ Parts ops es ss := by
  induction steps generalizing c es with
  | nil =>
      cases h
      exact ⟨[], [], rfl, .nil⟩
  | cons p steps ih =>
      obtain ⟨e, c₁, rest, he, hrest, rfl⟩ := sequence_cons_ok.1 h
      obtain ⟨op, ss, hp, hpart⟩ := hf p c e c₁ he
      obtain ⟨ops, ss', hops, hparts⟩ := ih hrest
      exact ⟨op :: ops, _, sequence_cons_ok.2 ⟨op, c₁, ops, hp, hops, rfl⟩, .cons hpart hparts⟩

/-- Elements of a slice literal. -/
theorem sliceElements_parts {elem : Ty} {elems : List Element}
    (h : sliceElements elem elems c = .ok (es, c')) :
    ∃ ops ss, sequence (elems.map Element.value) c = .ok (ops, c') ∧ Parts ops es ss := by
  induction elems generalizing c es with
  | nil =>
      cases h
      exact ⟨[], [], rfl, .nil⟩
  | cons e rest ih =>
      rw [sliceElements] at h
      cases hkey : e.key.isSome with
      | true =>
          rw [hkey] at h
          cases h
      | false =>
          rw [hkey] at h
          obtain ⟨v, c₁, hv, h⟩ := bind_ok.1 h
          obtain ⟨vs, c₂, hvs, h⟩ := bind_ok.1 h
          cases h
          obtain ⟨op, ss, hp, hpart⟩ := converted_part hv
          obtain ⟨ops, ss', hops, hparts⟩ := ih hvs
          exact ⟨op :: ops, _, sequence_cons_ok.2 ⟨op, c₁, ops, hp, hops, rfl⟩,
            .cons hpart hparts⟩

/-- Steps of an element of a map literal: its key, then its value. -/
def Element.both (e : Element) : List (Compile Operand) :=
  e.key.toList ++ [e.value]

/-- Entries of a map literal are evaluated and stored one after the other. -/
theorem mapElements_parts {key elem : Ty} {elems : List Element}
    {entries : List (Code.Expr × Code.Expr)}
    (h : mapElements key elem elems c = .ok (entries, c')) :
    ∃ ops ss, sequence (elems.flatMap Element.both) c = .ok (ops, c') ∧
      Step.operands ss = evaluated ops ∧ ∀ x r ref,
        Step.runAll x r (Operand.run x r) ss [.map ref] =
          (do evalEntries x r ref entries; return [.map ref]) := by
  induction elems generalizing c entries with
  | nil =>
      cases h
      exact ⟨[], [], rfl, rfl, fun x r ref => by rw [evalEntries, pure_bind]; rfl⟩
  | cons e rest ih =>
      rw [mapElements] at h
      cases hkey : e.key with
      | none =>
          rw [hkey] at h
          cases h
      | some p =>
          rw [hkey] at h
          obtain ⟨k, c₁, hk, h⟩ := bind_ok.1 h
          obtain ⟨v, c₂, hv, h⟩ := bind_ok.1 h
          obtain ⟨tail, c₃, htail, h⟩ := bind_ok.1 h
          cases h
          obtain ⟨kop, ks, hkop, hkpart⟩ := converted_part hk
          obtain ⟨vop, vs, hvop, hvpart⟩ := converted_part hv
          obtain ⟨ops, ss, hops, hoperands, hrun⟩ := ih htail
          refine ⟨kop :: vop :: ops, ks ++ (vs ++ .apply .insert :: ss), ?_, ?_, fun x r ref => ?_⟩
          · rw [List.flatMap_cons, Element.both, hkey]
            exact sequence_cons_ok.2 ⟨kop, c₁, _, hkop,
              sequence_cons_ok.2 ⟨vop, c₂, ops, hvop, hops, rfl⟩, rfl⟩
          · rw [evaluated_cons kop (vop :: ops), evaluated_cons vop ops]
            simp only [Step.operands_append, Step.operands_apply, hkpart.operands,
              hvpart.operands, hoperands]
          · simp only [Step.runAll_append, hkpart.run, hvpart.run, Step.runAll, Step.run,
              Action.run, evalEntries, bind_assoc, pure_bind, hrun, List.cons_append,
              List.nil_append]

/-- The fields that elements of a struct literal give, from position `pos` on, come one after the
other in the struct, and none before `low`; `position` finds the field of an element. -/
def Ascending (position : Nat → Element → Except Fault Nat) : Nat → Nat → List Element → Prop
  | _, _, [] => True
  | pos, low, e :: rest => ∀ i, position pos e = .ok i →
    low ≤ i ∧ Ascending position (pos + 1) (i + 1) rest

/-- Fixed values with one of them replaced. -/
theorem set_fixed (vs : List Value) {i : Nat} (hi : i < vs.length) (e : Code.Expr) :
    (vs.map Code.Expr.const).set i e =
      (vs.take i).map .const ++ e :: (vs.drop (i + 1)).map .const := by
  rw [List.set_eq_take_append_cons_drop, if_pos (by rwa [List.length_map]), List.map_take,
    List.map_drop]

/-- Fields of a struct literal whose elements come in the order of the fields. -/
theorem structElements_parts {ty : Ty} {count : Nat} {elems : List Element} {pos : Nat}
    {vs : List Value} {fs : List Code.Expr} (hstable : StableElements false elems)
    (hs : c.types.Settled) (ht : t.Alike c.types)
    (hlength : (t.fields ty).length = es.length + vs.length)
    (hascending : Ascending (fieldPosition t ty) pos es.length elems) (hdone : Parts done es ss)
    (h : structElements ty count pos (es ++ vs.map .const) elems c = .ok (fs, c')) :
    ∃ ops ss', sequence (elems.map Element.value) c = .ok (ops, c') ∧
      Parts (done ++ ops) fs ss' := by
  induction elems generalizing c pos es vs done ss with
  | nil =>
      cases h
      exact ⟨[], _, rfl, hdone.append (.of_fixed vs)⟩
  | cons e rest ih =>
      rw [StableElements, List.forall_mem_cons] at hstable
      have hposition : fieldPosition c.types ty pos e = fieldPosition t ty pos e :=
        ht.symm.same fun _ _ _ _ _ => rfl
      have hfields : c.types.fields ty = t.fields ty := ht.symm.same fun _ _ _ _ _ => rfl
      obtain ⟨i, c₁, hi, h⟩ := bind_ok.1 h
      obtain ⟨hi', rfl⟩ := rule_ok.1 hi
      obtain ⟨t', c₁, htypes, h⟩ := bind_ok.1 h
      cases htypes
      obtain ⟨hlow, hrest⟩ := hascending i (hposition ▸ hi')
      rw [hfields] at h
      cases hf : (t.fields ty)[i]? with
      | none =>
          rw [hf] at h
          cases h
      | some f =>
          rw [hf] at h
          obtain ⟨v, c₂, hv, h⟩ := bind_ok.1 h
          obtain ⟨op, ss', hp, hpart⟩ := converted_part hv
          have hlt : i < (t.fields ty).length := (List.getElem?_eq_some_iff.1 hf).1
          have hset : (es ++ vs.map Code.Expr.const).set i v =
              (es ++ ((vs.take (i - es.length)).map .const ++ [v])) ++
                (vs.drop (i - es.length + 1)).map .const := by
            rw [List.set_append_right _ _ hlow, set_fixed _ (by omega)]
            simp only [List.append_assoc, List.singleton_append]
          rw [hset] at h
          have hkept := (hstable.1.1 c c op c₂ (.refl hs) hp).1
          have hnext : (es ++ ((vs.take (i - es.length)).map Code.Expr.const ++ [v])).length =
              i + 1 := by
            simp only [List.length_append, List.length_map, List.length_take,
              List.length_singleton]
            omega
          obtain ⟨ops, ss'', hops, hparts⟩ := ih hstable.2 (hstable.1.1.types_only hs hp).2
            (ht.trans hkept.types) (by rw [hnext, List.length_drop]; omega) (hnext ▸ hrest)
            (hdone.append ((Parts.of_fixed _).append hpart.parts)) h
          refine ⟨op :: ops, ss'', sequence_cons_ok.2 ⟨op, c₂, ops, hp, hops, rfl⟩, ?_⟩
          rwa [List.nil_append, List.append_assoc, List.singleton_append] at hparts

/-- **Literals** run their elements in order, if the elements of a struct literal come in the order
of the fields. -/
theorem composite_planned {ty : Ty} {elems : List Element} (hstable : StableElements false elems)
    (hs : c.types.Settled)
    (hascending : c.types.kind ty = .struct → Ascending (fieldPosition c.types ty) 0 0 elems)
    (h : composite ty elems c = .ok (op, c')) :
    ∃ ops, sequence (if c.types.kind ty = .map then elems.flatMap Element.both
      else elems.map Element.value) c = .ok (ops, c') ∧ Planned ops op := by
  obtain ⟨t, c₁, htypes, h⟩ := bind_ok.1 h
  cases htypes
  revert h
  generalize hkind : c.types.kind ty = kind
  generalize c.types.key? ty = key?
  generalize c.types.elem? ty = elem?
  intro h
  split at h
  · rename_i elem
    obtain ⟨es, c₁, hes, h⟩ := bind_ok.1 h
    cases h
    obtain ⟨ops, ss, hops, hparts⟩ := sliceElements_parts hes
    refine ⟨ops, hops, (hparts.made (a := .newSlice) fun x r => ?_).planned _ _⟩
    simp only [eval, Action.run, bind_assoc]
  · rename_i key elem
    obtain ⟨entries, c₁, hentries, h⟩ := bind_ok.1 h
    cases h
    obtain ⟨ops, ss, hops, hoperands, hrun⟩ := mapElements_parts hentries
    refine ⟨ops, hops, .apply .makeMap :: ss, hoperands, fun x r => ?_⟩
    simp only [Operand.run, Term.reference, Plan.run, Step.runAll, Step.run, Action.run, eval,
      bind_assoc, pure_bind, hrun]
  · have hzeros : ((c.types.fields ty).map fun f => Code.Expr.const (c.types.zero f.type)) =
        [] ++ ((c.types.fields ty).map fun f => c.types.zero f.type).map .const := by
      rw [List.map_map, List.nil_append]
      rfl
    rw [hzeros] at h
    obtain ⟨fs, c₁, hfs, h⟩ := bind_ok.1 h
    cases h
    obtain ⟨ops, ss, hops, hparts⟩ := structElements_parts hstable hs (.refl _)
      (by rw [List.length_map, List.length_nil, Nat.zero_add]) (hascending hkind) .nil hfs
    refine ⟨ops, hops, (hparts.made (a := .newStruct) fun x r => ?_).planned _ _⟩
    simp only [eval, Action.run, bind_assoc, pure_bind]
  · cases h

/-! ### Calls -/

/-- Arguments have a plan that runs the given operands in order; the values after `position` are
packed when all are there. -/
def Gathers (ops : List Operand) (args : Code.Args) (position : Option Nat) : Prop :=
  ∃ steps, Step.operands steps = evaluated ops ∧ ∀ x r, ∃ gather : Run (List Value),
    (∀ vs, Step.runAll x r (Operand.run x r) steps vs = do return vs ++ (← gather)) ∧
      evalArgs x r args = gather >>= packFrom position

/-- Each argument is a part. -/
theorem eachArgument_parts {name : String} {s : Signature} {count i : Nat}
    {values : List Code.Typed}
    (h : eachArgument t name s count (fun op ty => op.valueFor t ty) i ops = .ok values) :
    ∃ ss, Parts ops (values.map Code.Typed.expr) ss := by
  induction ops generalizing i values with
  | nil =>
      cases h
      exact ⟨[], .nil⟩
  | cons op rest ih =>
      rw [eachArgument] at h
      split at h
      · cases h
      · obtain ⟨v, hv, h⟩ := rules_ok h
        obtain ⟨vs, hvs, h⟩ := rules_ok h
        cases h
        obtain ⟨ss, hpart⟩ := Operand.valueFor_part hv
        obtain ⟨ss', hparts⟩ := ih hvs
        exact ⟨_, .cons hpart hparts⟩

/-- There are as many arguments as operands. -/
theorem eachArgument_length {values : List Code.Typed} {name : String} {s : Signature} {count i : Nat}
    (h : eachArgument t name s count (fun op ty => op.valueFor t ty) i ops = .ok values) :
    values.length = ops.length := by
  induction ops generalizing i values with
  | nil =>
      cases h
      rfl
  | cons op rest ih =>
      rw [eachArgument] at h
      split at h
      · cases h
      · obtain ⟨v, hv, h⟩ := rules_ok h
        obtain ⟨vs, hvs, h⟩ := rules_ok h
        cases h
        rw [List.length_cons, List.length_cons, ih hvs]

/-- Values of two lists of expressions. -/
theorem evalAll_append (x : Context) (r : Nat) (es fs : List Code.Expr) :
    evalAll x r (es ++ fs) = do
      let vs ← evalAll x r es
      return vs ++ (← evalAll x r fs) := by
  induction es with
  | nil => simp only [List.nil_append, evalAll, pure_bind, bind_pure]
  | cons e es ih => simp only [List.cons_append, evalAll, ih, bind_assoc, pure_bind]

/-- Arguments of which those from a position on are packed. -/
theorem evalArgs_packed (x : Context) (r n : Nat) (hn : n ≤ es.length) :
    evalArgs x r (.list (es.take n) (some (es.drop n))) =
      evalAll x r es >>= packFrom (some n) := by
  have hall : evalAll x r es = do
      let vs ← evalAll x r (es.take n)
      return vs ++ (← evalAll x r (es.drop n)) := by
    rw [← evalAll_append, List.take_append_drop]
  rw [hall]
  simp only [evalArgs, bind_assoc, pure_bind, packFrom]
  funext m
  change EStateM.bind _ _ _ = EStateM.bind _ _ _
  unfold EStateM.bind
  cases hfirst : evalAll x r (es.take n) m with
  | error e m' => rfl
  | ok vs m' =>
      have hlength : vs.length = n := by
        rw [evalAll_length hfirst, List.length_take, Nat.min_eq_left hn]
      simp only [List.take_left' hlength, List.drop_left' hlength]

/-- **Arguments of a call** run their operands in order. -/
theorem argumentsOf_gathers {name : String} {s : Signature} {args : Code.Args}
    (h : argumentsOf t name s ops = .ok args) : Gathers ops args s.packFrom := by
  unfold argumentsOf at h
  split at h
  · rename_i call types
    dsimp only at h
    split at h
    · obtain ⟨_, -, h⟩ := rules_ok h
      cases h
      refine ⟨[.operand (.results call types)], rfl, fun x r =>
        ⟨evalCall x r call, fun vs => ?_, ?_⟩⟩
      · rw [Step.runAll_single]
        rfl
      · rw [evalArgs]
    · cases h
  · dsimp only at h
    split at h
    · rename_i haccepts
      obtain ⟨values, hvalues, h⟩ := rules_ok h
      obtain ⟨ss, hparts⟩ := eachArgument_parts hvalues
      have hlength := eachArgument_length hvalues
      refine ⟨ss, hparts.operands, fun x r => ⟨evalAll x r (values.map Code.Typed.expr),
        hparts.run, ?_⟩⟩
      unfold Signature.packFrom at h ⊢
      cases hvariadic : s.variadic with
      | false =>
          rw [hvariadic] at h
          cases h
          simp only [evalArgs, Bool.false_eq_true, if_false]
          exact (bind_pure _).symm
      | true =>
          rw [hvariadic] at h
          cases h
          refine evalArgs_packed x r s.fixed ?_
          simp only [Signature.accepts, hvariadic, if_true, decide_eq_true_eq] at haccepts
          rwa [List.length_map, hlength]
    · cases h

/-- A call runs what is called, then the arguments. -/
theorem Gathers.direct {func : Code.Expr} {args : Code.Args} {position : Option Nat}
    (hfunc : Made done func) (hargs : Gathers ops args position) :
    MadeCall (done ++ ops) (.direct func none args) := by
  obtain ⟨first, hfirst, hrun⟩ := hfunc
  obtain ⟨second, hsecond, hgather⟩ := hargs
  refine ⟨first ++ (second ++ [Step.apply (.call position)]), ?_, fun x r => ?_⟩
  · simp only [Step.operands_append, Step.operands_apply, Step.operands_nil, hfirst, hsecond,
      evaluated_append, List.append_nil]
  · obtain ⟨gather, hsteps, heval⟩ := hgather x r
    simp only [Step.runAll_append, hrun, hsteps, Step.runAll_single, Step.run, Action.run,
      evalCall, heval, bind_assoc, pure_bind, List.singleton_append]

/-- A call of a method runs the receiver, then the arguments. -/
theorem Gathers.method {recv : Code.Expr} {depth slot : Nat} {args : Code.Args}
    {position : Option Nat} (hrecv : Made done recv) (hargs : Gathers ops args position) :
    MadeCall (done ++ ops) (.direct (.load depth slot) (some recv) args) := by
  obtain ⟨first, hfirst, hrun⟩ := hrecv
  obtain ⟨second, hsecond, hgather⟩ := hargs
  refine ⟨first ++ (Step.load depth slot :: (second ++ [Step.apply (.callMethod position)])), ?_,
    fun x r => ?_⟩
  · simp only [Step.operands_append, Step.operands_load, Step.operands_apply, Step.operands_nil,
      hfirst, hsecond, evaluated_append, List.append_nil]
  · obtain ⟨gather, hsteps, heval⟩ := hgather x r
    simp only [Step.runAll_append, Step.runAll, hrun, hsteps, Step.run, Action.run, eval,
      evalCall, heval, bind_assoc, pure_bind, bind_pure, List.cons_append, List.nil_append]

/-- The arguments of a call are compiled in order. -/
theorem directCall_ok {name : String} {func : Code.Expr} {s : Signature}
    {recv : Option Code.Expr} {args : List (Compile Operand)}
    (h : directCall name func s recv args c = .ok (op, c')) :
    ∃ ops code, sequence args c = .ok (ops, c') ∧ Gathers ops code s.packFrom ∧
      op = .ofCall c'.types (.direct func recv code) s.results := by
  obtain ⟨ops, c₁, hops, h⟩ := bind_ok.1 h
  obtain ⟨code, c₂, hcode, h⟩ := bind_ok.1 h
  obtain ⟨hcode', rfl⟩ := rule_ok.1 hcode
  obtain ⟨t, c₃, htypes, h⟩ := bind_ok.1 h
  cases htypes
  cases h
  exact ⟨ops, code, hops, argumentsOf_gathers hcode', rfl⟩

/-- A call of a function by its name runs the arguments. -/
theorem namedCall_planned {name : String} {depth slot : Nat} {s : Signature}
    {args : List (Compile Operand)}
    (h : directCall name (.load depth slot) s none args c = .ok (op, c')) :
    ∃ ops, sequence args c = .ok (ops, c') ∧ Planned ops op := by
  obtain ⟨ops, code, hops, hargs, rfl⟩ := directCall_ok h
  exact ⟨ops, hops, (hargs.direct (load_made depth slot)).planned _ _⟩

/-- A signature is looked up without a change. -/
theorem calledSignature_ok {ty : Ty} {s : Signature} (h : calledSignature ty c = .ok (s, c')) :
    c = c' := by
  obtain ⟨t, c₁, htypes, h⟩ := bind_ok.1 h
  cases htypes
  cases hs : c.types.signature? ty with
  | none =>
      rw [hs] at h
      cases h
  | some s' =>
      rw [hs] at h
      cases h
      rfl

/-- The value of what has a plan. -/
theorem value_made {callee : Operand} {f : Code.Typed} {ty : Ty} (hcallee : Planned done callee)
    (hvalue : callee.valueOf t = .ok (f, ty)) : Made done f.expr := by
  obtain ⟨steps, hoperands, hrun⟩ := hcallee
  obtain ⟨x, hx, hterm⟩ := rules_ok hvalue
  cases callee with
  | results call types => cases hx
  | term y =>
      cases hx
      cases x with
      | code f' ty' =>
          cases hterm
          exact ⟨steps, hoperands, fun x r => (hrun x r).symm⟩
      | const k type =>
          obtain ⟨ty', -, hterm⟩ := rules_ok hterm
          obtain ⟨f', hfixed, hterm⟩ := rules_ok hterm
          cases hterm
          obtain ⟨v, hv⟩ := Term.fixed_expr hfixed
          refine ⟨steps ++ [Step.value v], ?_, fun x r => ?_⟩
          · rw [Step.operands_append, hoperands]
            exact List.append_nil _
          · have hnothing : Step.runAll x r (Operand.run x r) steps [] = pure [] :=
              (hrun x r).symm
            rw [hv, Step.runAll_append, hnothing, eval_const, pure_bind, pure_bind,
              Step.runAll_single]
            rfl

/-- **A call of a function value** runs the function, then the arguments. -/
theorem callOperand_planned {callee : Operand} {args : List (Compile Operand)}
    (hcallee : Planned done callee) (h : callOperand callee args c = .ok (op, c')) :
    ∃ ops, sequence args c = .ok (ops, c') ∧ Planned (done ++ ops) op := by
  obtain ⟨⟨e, ty⟩, c₁, hvalue, h⟩ := bind_ok.1 h
  obtain ⟨hvalue', rfl⟩ := rule_ok.1 hvalue
  obtain ⟨s, c₂, hs, h⟩ := bind_ok.1 h
  cases calledSignature_ok hs
  obtain ⟨ops, code, hops, hargs, rfl⟩ := directCall_ok h
  exact ⟨ops, hops, (hargs.direct (value_made hcallee hvalue')).planned _ _⟩

/-- **A call of a selector** runs what is before the point, then the arguments; a member of a
package is called like any function value. -/
theorem selectorCall_planned {baseName : Option Name} {base whole : Compile Operand}
    {field : Name} {args : List (Compile Operand)}
    (h : selectorCall baseName base field whole args c = .ok (op, c')) :
    (∃ f c₁ ops, packageMember? baseName field c = .ok (some f, c₁) ∧
        sequence (whole :: args) c₁ = .ok (ops, c') ∧ Planned ops op) ∨
      ∃ c₁ ops, packageMember? baseName field c = .ok (none, c₁) ∧
        sequence (base :: args) c₁ = .ok (ops, c') ∧ Planned ops op := by
  obtain ⟨member, c₁, hmember, h⟩ := bind_ok.1 h
  cases member with
  | some f =>
      obtain ⟨callee, c₂, hcallee, h⟩ := bind_ok.1 h
      obtain ⟨ops, hops, hplanned⟩ := callOperand_planned (.self callee) h
      exact .inl ⟨f, c₁, callee :: ops, hmember,
        sequence_cons_ok.2 ⟨callee, c₂, ops, hcallee, hops, rfl⟩, hplanned⟩
  | none =>
      obtain ⟨b, c₂, hb, h⟩ := bind_ok.1 h
      obtain ⟨⟨e, ty⟩, c₃, hvalue, h⟩ := bind_ok.1 h
      obtain ⟨hvalue', rfl⟩ := rule_ok.1 hvalue
      obtain ⟨ss, hpart⟩ := Operand.valueOf_part hvalue'
      obtain ⟨c₄, c₅, hget, h⟩ := bind_ok.1 h
      cases hget
      suffices hrest : ∃ ops, sequence args c₂ = .ok (ops, c') ∧ Planned (b :: ops) op by
        obtain ⟨ops, hops, hplanned⟩ := hrest
        exact .inr ⟨c₁, b :: ops, hmember,
          sequence_cons_ok.2 ⟨b, c₂, ops, hb, hops, rfl⟩, hplanned⟩
      cases hm : c₂.method? ty field with
      | some m =>
          rw [hm] at h
          obtain ⟨s, c₃, hs, h⟩ := bind_ok.1 h
          cases calledSignature_ok hs
          obtain ⟨c₄, c₅, hget, h⟩ := bind_ok.1 h
          cases hget
          obtain ⟨ops, code, hops, hargs, rfl⟩ := directCall_ok h
          exact ⟨ops, hops, (hargs.method hpart.made).planned _ _⟩
      | none =>
          rw [hm] at h
          obtain ⟨callee, c₃, hcallee, h⟩ := bind_ok.1 h
          have hstate : c₂ = c₃ := by
            obtain ⟨c₄, c₅, hget, hcallee⟩ := bind_ok.1 hcallee
            cases hget
            rw [hm] at hcallee
            obtain ⟨x, c₄, hx, hcallee⟩ := bind_ok.1 hcallee
            cases hcallee
            exact (rule_ok.1 hx).2
          subst hstate
          exact callOperand_planned (select_planned hpart.made hcallee) h

/-! ### Conversions and builtin functions -/

/-- The term that an operand is. -/
theorem single_ok {op : Operand} {x : Term} (h : op.single = .ok x) : op = .term x := by
  cases op with
  | term y =>
      cases h
      rfl
  | results call types => cases h

/-- A single step. -/
theorem sequence_single {α : Type} {p : Compile α} {a : α} (h : p c = .ok (a, c')) :
    sequence [p] c = .ok ([a], c') :=
  sequence_cons_ok.2 ⟨a, c', [], h, rfl, rfl⟩

/-- A converted term. -/
theorem convertedTerm_planned {x y : Term} {ty : Ty} (h : convertedTerm t x ty = .ok y) :
    Planned [.term x] (.term y) := by
  cases x with
  | const k type =>
      unfold convertedTerm at h
      dsimp only at h
      split at h
      · unfold convertedConst at h
        split at h
        · cases h
          exact .const rfl _ _
        · obtain ⟨k', -, h⟩ := rules_ok h
          cases h
          exact .const rfl _ _
      · obtain ⟨e, he, h⟩ := rules_ok h
        cases h
        obtain ⟨ss, hpart⟩ := Term.valueFor_part he
        exact hpart.made.planned _ _
  | code e ty' =>
      cases h
      refine (Made.apply (a := .convert ty) (Part.code e ty').made fun x r => ?_).ofExpr t ty
      simp only [eval, evalAll, Action.run, bind_assoc, pure_bind]

/-- A conversion runs its operand. -/
theorem conversion_planned {ty : Ty} {args : List (Compile Operand)}
    (h : conversion ty args c = .ok (op, c')) :
    ∃ ops, sequence args c = .ok (ops, c') ∧ Planned ops op := by
  match args with
  | [] | _ :: _ :: _ => cases h
  | [arg] =>
      obtain ⟨a, c₁, ha, h⟩ := bind_ok.1 h
      obtain ⟨x, c₂, hx, h⟩ := bind_ok.1 h
      obtain ⟨hsingle, rfl⟩ := check_ok.1 hx
      obtain ⟨y, c₃, hy, h⟩ := bind_ok.1 h
      obtain ⟨hconverted, rfl⟩ := rule_ok.1 hy
      cases h
      cases single_ok hsingle
      exact ⟨_, sequence_single ha, convertedTerm_planned hconverted⟩

/-- The length or capacity of an operand. -/
theorem lengthOf_planned {b : Builtin} {a : Operand} {x : Term} (h : lengthOf t b a = .ok x) :
    Planned [a] (.term x) := by
  unfold lengthOf at h
  split at h
  · cases h
    exact .const rfl _ _
  · obtain ⟨⟨e, ty⟩, hvalue, h⟩ := rules_ok h
    obtain ⟨ss, hpart⟩ := Operand.valueOf_part hvalue
    have hlength : Planned [a] (.term (.code ⟨.int, .length e.expr⟩ (.basic .int))) := by
      refine (hpart.made.apply (a := .length) fun x r => ?_).planned _ _
      simp only [eval, evalAll, Action.run, bind_assoc, pure_bind]
    have hcapacity : Planned [a] (.term (.code ⟨.int, .capacity e.expr⟩ (.basic .int))) := by
      refine (hpart.made.apply (a := .capacity) fun x r => ?_).planned _ _
      simp only [eval, evalAll, Action.run, bind_assoc, pure_bind]
    dsimp only at h
    split at h <;> cases h
    · exact hlength
    · exact hlength
    · exact hlength
    · exact hcapacity

/-- `len` and `cap` run their operand. -/
theorem lengthCall_planned {b : Builtin} {args : List (Compile Operand)}
    (h : lengthCall b args c = .ok (op, c')) :
    ∃ ops, sequence args c = .ok (ops, c') ∧ Planned ops op := by
  match args with
  | [] | _ :: _ :: _ => cases h
  | [arg] =>
      obtain ⟨a, c₁, ha, h⟩ := bind_ok.1 h
      obtain ⟨x, c₂, hx, h⟩ := bind_ok.1 h
      obtain ⟨hlength, rfl⟩ := rule_ok.1 hx
      cases h
      exact ⟨_, sequence_single ha, lengthOf_planned hlength⟩

/-- A new slice runs its sizes; a new map runs nothing. -/
theorem made_planned {ty : Ty} (hparts : Parts ops es ss) (h : made t ty es = .ok e)
    (hmap : t.kind ty = .map → evaluated ops = []) : Planned ops (.term (.reference e ty)) := by
  unfold made at h
  split at h
  · dsimp only at h
    split at h
    · cases h
      refine (hparts.made (a := .makeSlice ((t.elem? ty).elim Value.nil t.zero)) fun x r => ?_).planned _ _
      simp only [eval, evalAll, evalIndex?, Action.run, bind_assoc, pure_bind]
    · cases h
      refine (hparts.made (a := .makeSlice ((t.elem? ty).elim Value.nil t.zero)) fun x r => ?_).planned _ _
      simp only [eval, evalAll, evalIndex?, Action.run, bind_assoc, pure_bind]
    · cases h
  · rename_i hkind
    split at h
    · cases h
      refine ⟨[.apply .makeMap], (hmap hkind).symm, fun x r => ?_⟩
      simp only [Operand.run, Term.reference, Plan.run, Step.runAll_single, Step.run, Action.run,
        eval, bind_assoc, pure_bind]
    · cases h
  · cases h

/-- `make` runs its sizes, except that the size of a map is not run. -/
theorem makeCall_planned {type? : Compile (Option Ty)} {args : List (Compile Operand)}
    (h : makeCall type? args c = .ok (op, c')) :
    ∃ ty c₁ ops, type? c = .ok (some ty, c₁) ∧ sequence args.tail c₁ = .ok (ops, c') ∧
      ((c'.types.kind ty = .map → evaluated ops = []) → Planned ops op) := by
  match args with
  | [] => cases h
  | _ :: sizes =>
      obtain ⟨found, c₁, htype, h⟩ := bind_ok.1 h
      cases found with
      | none => cases h
      | some ty =>
          obtain ⟨es, c₂, hes, h⟩ := bind_ok.1 h
          obtain ⟨e, c₃, he, h⟩ := bind_ok.1 h
          obtain ⟨hmade, rfl⟩ := rule_ok.1 he
          cases h
          obtain ⟨ops, ss, hops, hparts⟩ := sequence_parts (fun _ _ _ _ => indexed_part) hes
          exact ⟨ty, c₁, ops, htype, hops, made_planned hparts hmade⟩

/-- `append` runs the slice, then the new elements. -/
theorem appendCall_planned {args : List (Compile Operand)}
    (h : appendCall args c = .ok (op, c')) :
    ∃ ops, sequence args c = .ok (ops, c') ∧ Planned ops op := by
  match args with
  | [] => cases h
  | base :: elems =>
      obtain ⟨b, c₁, hb, h⟩ := bind_ok.1 h
      obtain ⟨⟨e, ty⟩, c₂, hvalue, h⟩ := bind_ok.1 h
      obtain ⟨hvalue', rfl⟩ := rule_ok.1 hvalue
      obtain ⟨t, c₃, htypes, h⟩ := bind_ok.1 h
      cases htypes
      revert h
      generalize c₁.types.kind ty = kind
      generalize c₁.types.elem? ty = elem?
      intro h
      split at h
      · rename_i elem
        obtain ⟨vs, c₂, hvs, h⟩ := bind_ok.1 h
        cases h
        obtain ⟨ss, hpart⟩ := Operand.valueOf_part hvalue'
        obtain ⟨ops, ss', hops, hparts⟩ := sequence_parts (fun _ _ _ _ => converted_part) hvs
        refine ⟨b :: ops, sequence_cons_ok.2 ⟨b, c₁, ops, hb, hops, rfl⟩, ?_⟩
        refine ((Parts.cons hpart hparts).made (a := .append) fun x r => ?_).planned _ _
        simp only [eval, evalAll, Action.run, bind_assoc, pure_bind]
      · cases h

/-- `delete` runs the map, then the key. -/
theorem deleteCall_planned {args : List (Compile Operand)}
    (h : deleteCall args c = .ok (op, c')) :
    ∃ ops, sequence args c = .ok (ops, c') ∧ Planned ops op := by
  match args with
  | [] | [_] | _ :: _ :: _ :: _ => cases h
  | [map, key] =>
      obtain ⟨m, c₁, hm, h⟩ := bind_ok.1 h
      obtain ⟨⟨e, ty⟩, c₂, hvalue, h⟩ := bind_ok.1 h
      obtain ⟨hvalue', rfl⟩ := rule_ok.1 hvalue
      obtain ⟨t, c₃, htypes, h⟩ := bind_ok.1 h
      cases htypes
      revert h
      generalize c₁.types.kind ty = kind
      generalize c₁.types.key? ty = key?
      intro h
      split at h
      · obtain ⟨k, c₂, hk, h⟩ := bind_ok.1 h
        cases h
        obtain ⟨ss, hpart⟩ := Operand.valueOf_part hvalue'
        obtain ⟨op', ss', hop', hpart'⟩ := converted_part hk
        refine ⟨[m, op'], sequence_cons_ok.2 ⟨m, c₁, [op'], hm, sequence_single hop', rfl⟩, ?_⟩
        have hmade : MadeCall [m, op'] (.delete e.expr k) := by
          refine (Parts.cons hpart hpart'.parts).madeCall (a := .delete) fun x r => ?_
          simp only [evalCall, evalAll, Action.run, bind_assoc, pure_bind]
        exact hmade.planned c'.types []
      · cases h

/-- **Builtin functions** but `make` run their operands in order. -/
theorem builtinCall_planned {b : Builtin} (hb : b ≠ .make) {type? : Compile (Option Ty)}
    {args : List (Compile Operand)} (h : builtinCall b type? args c = .ok (op, c')) :
    ∃ ops, sequence args c = .ok (ops, c') ∧ Planned ops op := by
  cases b with
  | len | cap => exact lengthCall_planned h
  | make => exact absurd rfl hb
  | append => exact appendCall_planned h
  | delete => exact deleteCall_planned h

/-- A function literal has no operands. -/
theorem funcLit_planned {heading : Compile Heading} {content : Emit Unit}
    (h : funcLit heading content c = .ok (op, c')) : Planned [] op := by
  obtain ⟨head, c₁, -, h⟩ := bind_ok.1 h
  obtain ⟨ty, c₂, -, h⟩ := bind_ok.1 h
  obtain ⟨body, c₃, -, h⟩ := bind_ok.1 h
  cases h
  refine ⟨[.apply (.closure body)], rfl, fun x r => ?_⟩
  simp only [Operand.run, Term.reference, Plan.run, Step.runAll_single, Step.run, Action.run, eval]

end ScriptCore.Compile
