import ScriptCore.Proofs.Addressing.Contents
import ScriptCore.Proofs.Constants.Names
import ScriptCore.Proofs.Declaration.Sources
import ScriptCore.Proofs.Scopes.Constants
import ScriptCore.Proofs.Scopes.Redeclared

/-!
# What the constants of a block mean

A constant is evaluated when its turn comes in the order of emission, with the number of its own
line and in a state in which no other such number is known.  No other declaration binds its name, so
that is what the name stands for in the package, whatever comes before and after it.

Main statements: `Compile.const_means` (one constant) and `Scope.const_block`.
-/

namespace ScriptCore

/-! ### Orders -/

namespace Order

variable {s : Scope} {order : Order}

/-- Every declaration is emitted once, and only types are declared ahead. -/
structure Complete (s : Scope) (order : Order) : Prop where
  once : (emitted order).Perm (List.range s.decls.size)
  ahead : ∀ t ∈ forwards order, s.isTypeAt t = true

/-- **The order of a scope is complete.** -/
theorem ofScope_complete (h : ofScope s = .ok order) : Complete s order := by
  obtain ⟨initial, hslots, honce, hmoved⟩ := ofScope_rearranged h
  refine ⟨hmoved.perm.trans honce, fun t ht => ?_⟩
  rw [hmoved.forwards_eq, slotsOf_forwards hslots,
    mem_cyclic_types (Components.ofGraph_decomposition s.graph_closed)] at ht
  exact ht.1

end Order

namespace Scope

variable {s : Scope} {order : Order} {d : Decl}

/-- Declarations are different. -/
theorem Consistent.nodup (h : s.Consistent) : s.decls.toList.Nodup := by
  have hseq : s.decls.toList.map Decl.seq = List.range s.decls.size := by
    refine List.ext_getElem (by simp) fun i hi _ => ?_
    have hlt : i < s.decls.size := by simpa using hi
    simpa using h.seq i s.decls[i] (Array.getElem?_eq_getElem hlt)
  exact List.Nodup.of_map Decl.seq (hseq ▸ List.nodup_range)

/-- Another declaration does not bind the name of a declaration. -/
theorem Consistent.eq_of_binds (h : s.Consistent) {e : Decl} (hd : d ∈ s.decls) (he : e ∈ s.decls)
    (hname : d.name ∈ e.boundNames) : e = d := by
  obtain ⟨i, hi⟩ := Array.mem_iff_getElem?.1 hd
  obtain ⟨j, hj⟩ := Array.mem_iff_getElem?.1 he
  obtain rfl := h.unique hi hj (h.named i d hi) hname
  exact Option.some.inj (hj.symm.trans hi)

/-- What is emitted after a declaration is another one, or a type that is declared ahead. -/
theorem Consistent.later (h : s.Consistent) (hc : Order.Complete s order) (hd : d ∈ s.decls)
    {front back : List Decl} (hsplit : (Order.batches s order).flatten = front ++ d :: back) :
    ∀ e ∈ back, (e ∈ s.decls ∧ e ≠ d) ∨ ∃ t ∈ s.decls, t.kind = .type ∧ e = t.forward := by
  intro e he
  obtain ⟨first, rest, hdecls⟩ := List.append_of_mem (Array.mem_toList_iff.2 hd)
  -- the declaration is emitted once, so it can be taken away on both sides
  have hperm := Order.batches_perm hc.once
  rw [hsplit, hdecls, List.append_assoc, List.cons_append] at hperm
  have hothers := (List.perm_middle.symm.trans (hperm.trans List.perm_middle)).cons_inv
  have hmem := hothers.subset (List.mem_append_right front he)
  rw [← List.append_assoc] at hmem
  rcases List.mem_append.1 hmem with hmem | hmem
  · have hnodup := h.nodup
    rw [hdecls] at hnodup
    have hnew := (List.nodup_cons.1 (List.perm_middle.nodup_iff.1 hnodup)).1
    refine .inl ⟨Array.mem_toList_iff.1 ?_, fun heq => hnew (heq ▸ hmem)⟩
    rw [hdecls]
    exact List.perm_middle.symm.subset (List.mem_cons_of_mem _ hmem)
  · obtain ⟨i, hi, hforward⟩ := List.mem_filterMap.1 hmem
    obtain ⟨t, ht, rfl⟩ := Option.map_eq_some_iff.1 hforward
    have htype := hc.ahead i hi
    simp only [isTypeAt, kindAt, ht, Option.map_some, beq_iff_eq, Option.some.injEq] at htype
    exact .inr ⟨t, Array.mem_of_getElem? ht, htype, rfl⟩

/-- **Nothing that is emitted after a constant binds its name.** -/
theorem Consistent.apart (h : s.Consistent) (hc : Order.Complete s order) (hd : d ∈ s.decls)
    (hkind : d.kind = .const) {front back : List Decl}
    (hsplit : (Order.batches s order).flatten = front ++ d :: back) :
    ∀ e ∈ back, d.name ∉ e.name :: e.boundNames := by
  have hown : ∀ e ∈ s.decls, e.name ∈ e.boundNames := by
    intro e he
    obtain ⟨i, hi⟩ := Array.mem_iff_getElem?.1 he
    exact h.named i e hi
  intro e he hname
  rcases h.later hc hd hsplit e he with ⟨hmem, hne⟩ | ⟨t, ht, htype, rfl⟩
  · rcases List.mem_cons.1 hname with hname | hname
    · exact hne (h.eq_of_binds hd hmem (hname ▸ hown e hmem))
    · exact hne (h.eq_of_binds hd hmem hname)
  · -- a constant is not declared ahead
    have hname : d.name = t.name := by
      simpa [Decl.forward, Decl.boundNames] using hname
    rw [h.eq_of_binds hd ht (hname ▸ hown t ht), hkind] at htype
    cases htype

end Scope

/-! ### Values -/

namespace Compile

variable {c c' start : Compiler} {decl : Decl} {iota : Nat}

/-- What a constant is whose initializer is evaluated in a state with a number of a line.  With a
written type its value is that of the initializer as one of the type, to which it is assignable. -/
inductive Evaluates (c : Compiler) (iota : Nat) (value : Expr) :
    Option TypeExpr → Constant → Option Ty → Prop
  | untyped {k : Constant} {ty : Option Ty} {c₁ : Compiler}
      (hvalue : operand value { c with iota := some iota } = .ok (.term (.const k ty), c₁)) :
      Evaluates c iota value none k ty
  | typed {type : TypeExpr} {ty : Ty} {own : Option Ty} {k k' : Constant} {c₁ c₂ : Compiler}
      (htype : typeExpr type { c with iota := some iota } = .ok (ty, c₁))
      (hvalue : operand value c₁ = .ok (.term (.const k own), c₂))
      (hassignable : ∀ t ∈ own, Term.requireAssignable c₂.types t ty = .ok ())
      (hrepresent : k.represent c₂.types ty = .ok k') :
      Evaluates c iota value (some type) k' (some ty)

/-- A constant that is written with a type. -/
theorem constEntity_typed {t : TypeTable} {ty : Ty} {own : Option Ty} {k : Constant} {e : Entity}
    (h : constEntity t (some ty) k own = .ok e) : ∃ k', e = .const k' (some ty) ∧
      (∀ s ∈ own, Term.requireAssignable t s ty = .ok ()) ∧ k.represent t ty = .ok k' := by
  cases own with
  | none =>
      obtain ⟨k', hrepresent, h⟩ := rules_ok h
      cases h
      exact ⟨k', rfl, nofun, hrepresent⟩
  | some s =>
      obtain ⟨_, hassignable, h⟩ := rules_ok h
      obtain ⟨k', hrepresent, h⟩ := rules_ok h
      cases h
      refine ⟨k', rfl, ?_, hrepresent⟩
      rintro _ ⟨⟩
      exact hassignable

/-- The value of a constant declaration. -/
theorem constValue_evaluates {e : Entity}
    (h : constValue decl { c with iota := some iota } = .ok (e, c')) :
    ∃ value k ty, decl.value = some value ∧ Evaluates c iota value decl.valueType k ty ∧
      e = .const k ty := by
  obtain ⟨declared, c₁, hdeclared, h⟩ := bind_ok.1 h
  cases hsome : decl.value with
  | none =>
      rw [hsome] at h
      cases h
  | some value =>
      rw [hsome] at h
      obtain ⟨op, c₂, hvalue, h⟩ := bind_ok.1 h
      cases op with
      | results call types => cases h
      | term x =>
          cases x with
          | code e ty => cases h
          | const k own =>
              obtain ⟨hentity, rfl⟩ := rule_ok.1 h
              cases hspec : decl.valueType with
              | none =>
                  rw [hspec] at hdeclared
                  cases hdeclared
                  cases hentity
                  exact ⟨value, k, own, rfl, .untyped hvalue, rfl⟩
              | some type =>
                  rw [hspec, typeExpr?, map_eq_pure_bind] at hdeclared
                  obtain ⟨ty, _, htype, hdeclared⟩ := bind_ok.1 hdeclared
                  cases hdeclared
                  obtain ⟨k', rfl, hassignable, hrepresent⟩ := constEntity_typed hentity
                  exact ⟨value, k', some ty, rfl,
                    .typed htype hvalue hassignable hrepresent, rfl⟩

/-- The turn of a declaration to be defined: the batches before its own are compiled, its own batch
is declared, and what comes before it there is defined. -/
inductive InTurn (bs : List (List Decl)) (start : Compiler) (decl : Decl) (c : Compiler) : Prop
  | mk {done rest : List (List Decl)} {earlier later : List Decl} {c₁ c₂ : Compiler}
      (hbatches : bs = done ++ (earlier ++ decl :: later) :: rest)
      (hdone : batches done start = .ok ((), c₁))
      (hdeclared : eachDecl declareDecl ((earlier ++ decl :: later).mergeSort
        fun a b => decide (rank a.kind ≤ rank b.kind)) c₁ = .ok ((), c₂))
      (hearlier : eachDecl defineDecl earlier c₂ = .ok ((), c)) : InTurn bs start decl c

/-- The constant has in the end the value and the type of its initializer, evaluated when its turn
comes with the number of its line, while no other such number is known. -/
def Means (bs : List (List Decl)) (start c : Compiler) (decl : Decl) (iota : Nat)
    (type : Option TypeExpr) (value : Expr) : Prop :=
  ∃ c₀ k ty, InTurn bs start decl c₀ ∧ c₀.iota = none ∧ Evaluates c₀ iota value type k ty ∧
    c.entity? decl.name = some (.const k ty)

/-- **A constant means what its initializer means in its turn**, if nothing after it binds its
name. -/
theorem const_means {bs : List (List Decl)} (hstart : start.Outermost) (hnone : start.iota = none)
    (hmem : decl ∈ bs.flatten) (hkind : decl.kind = .const) (hiota : decl.iota = some iota)
    (hapart : ∀ front back, bs.flatten = front ++ decl :: back →
      ∀ e ∈ back, decl.name ∉ e.name :: e.boundNames)
    (hrun : batches bs start = .ok ((), c)) :
    ∃ value, decl.value = some value ∧ Means bs start c decl iota decl.valueType value := by
  obtain ⟨decls, hdecls, hd⟩ := List.mem_flatten.1 hmem
  obtain ⟨done, rest, rfl⟩ := List.append_of_mem hdecls
  obtain ⟨earlier, later, rfl⟩ := List.append_of_mem hd
  -- the run up to the turn of the constant
  obtain ⟨c₁, hdone, hrun⟩ := batches_append.1 hrun
  obtain ⟨_, c₅, hbatch, hrest⟩ := bind_ok.1 hrun
  obtain ⟨_, c₂, hdeclared, hdefined⟩ := bind_ok.1 hbatch
  obtain ⟨c₀, hearlier, hdefined⟩ := eachDecl_append.1 hdefined
  obtain ⟨_, c₃, hown, hlater⟩ := bind_ok.1 hdefined
  have hall {ds : List Decl} : namesOf ds ⊆ namesOf ds := fun _ h => h
  obtain ⟨h₁, -⟩ := batches_binds hall hstart _ _ hdone
  obtain ⟨h₂, -⟩ := eachDecl_binds (fun _ => declareDecl_binds) hall h₁.outermost _ _ hdeclared
  obtain ⟨h₀, -⟩ := eachDecl_binds (fun _ => defineDecl_binds) hall h₂.outermost _ _ hearlier
  -- its definition
  have hown : defineConst decl c₀ = .ok ((), c₃) := by
    have hown := at'_ok.1 hown
    rwa [defineDecl, hkind] at hown
  obtain ⟨h₃, -⟩ := defineConst_binds (List.mem_singleton_self _) h₀.outermost _ _ hown
  obtain ⟨e, c₄, hvalue, rfl⟩ := defineConst_ok.1 hown
  rw [hiota] at hvalue
  obtain ⟨value, k, ty, hsome, hevaluates, rfl⟩ := constValue_evaluates hvalue
  -- what comes afterwards
  obtain ⟨h₅, -⟩ := eachDecl_binds (fun _ => defineDecl_binds) hall h₃.outermost _ _ hlater
  obtain ⟨h₆, -⟩ := batches_binds hall h₅.outermost _ _ hrest
  have hsplit : (done ++ (earlier ++ decl :: later) :: rest).flatten =
      (done.flatten ++ earlier) ++ decl :: (later ++ rest.flatten) := by simp
  have hother : ∀ ds : List Decl, (∀ e ∈ ds, e ∈ later ++ rest.flatten) →
      decl.name ∉ namesOf ds := by
    intro ds hds hname
    obtain ⟨e, he, hname⟩ := List.mem_flatMap.1 hname
    exact hapart _ _ hsplit e (hds e he) hname
  refine ⟨value, hsome, c₀, k, ty, ⟨rfl, hdone, hdeclared, hearlier⟩,
    h₀.iota (h₂.iota (h₁.iota hnone)), hevaluates, ?_⟩
  rw [h₆.others _ (hother _ fun e he => List.mem_append_right _ he),
    h₅.others _ (hother _ fun e he => List.mem_append_left _ he)]
  exact List.lookup_cons_self

end Compile

namespace Scope

/-- **What a block of constants means.**  It is refused for the reasons given in `ConstRefusal`, and
for no others.  If it is loaded and the package is compiled, in whatever order that is complete as
that of the scope is, then the constant at a position of a line has the value and the type of the
initializer at this position of the nearest line that has some, evaluated under the type of that
line and with the number of its own. -/
theorem const_block {s u : Scope} (before more : List Action) (specs : List ValueSpec)
    (hs : after before = s) (hu : after (before ++ .load (.const specs) :: more) = u) :
    ((∃ e t, (load (.const specs)).run s = (.error e, t)) ↔ ∃ e, ConstRefusal s specs e) ∧
      (∀ e t, (load (.const specs)).run s = (.error e, t) → ConstRefusal s specs e) ∧
      (∀ order, Order.ofScope u = .ok order → Order.Complete u order) ∧
      ∀ t order types hosts lowers c, (load (.const specs)).run s = (.ok (), t) →
        Order.Complete u order →
        Compile.batches (Order.batches u order) (.start types hosts lowers) = .ok ((), c) →
        ∀ i j spec name, specs[i]? = some spec → spec.names[j]? = some name →
          ∃ source value d, IsSource specs i source ∧ source.values[j]? = some value ∧
            d ∈ u.decls ∧ d.Declares .const s.blocks (some i) (lineFrom spec source) d.name j ∧
            (name ≠ blank → d.name = name) ∧
            Compile.Means (Order.batches u order) (.start types hosts lowers) c d i source.type
              value := by
  refine ⟨load_const_fails_iff, fun e t => load_const_refused, fun order => Order.ofScope_complete,
    ?_⟩
  intro t order types hosts lowers c hload hcomplete hrun i j spec name hspec hname
  have hfirst : ∀ spec : ValueSpec, specs[0]? = some spec → spec.values ≠ [] := by
    intro first hget hnone
    rw [load_const_missing hget hnone] at hload
    cases hload
  obtain ⟨source, hsource⟩ := exists_isSource hfirst (List.getElem?_eq_some_iff.1 hspec).1
  obtain ⟨d, hd, hdeclares, hsame, value, hvalue⟩ :=
    load_const_declares hload hspec hsource hname
  -- the declaration is still there at the end
  have hmore : t.Extends u := by
    rw [← hu, after, List.foldl_append, List.foldl_cons, ← after, hs, act, hload]
    exact foldl_act_extends t more
  have hmem : d ∈ u.decls :=
    Array.mem_toList_iff.1 (hmore.isPrefix.subset (Array.mem_toList_iff.2 hd))
  have hconsistent : u.Consistent := by
    rw [← hu]
    exact Consistent.empty.of_extends (foldl_act_extends empty _)
  have hflatten : d ∈ (Order.batches u order).flatten :=
    (Order.batches_perm hcomplete.once).symm.subset
      (List.mem_append_left _ (Array.mem_toList_iff.2 hmem))
  obtain ⟨value', hvalue', hmeans⟩ :=
    Compile.const_means (Compiler.start_outermost types hosts lowers) rfl hflatten hdeclares.kind
      hdeclares.iota (fun _ _ => hconsistent.apart hcomplete hmem hdeclares.kind) hrun
  have hsplit : value' = value := by
    rw [hdeclares.value, lineFrom_values, hvalue] at hvalue'
    exact (Option.some.inj hvalue').symm
  rw [hdeclares.valueType, lineFrom_type, hsplit] at hmeans
  exact ⟨source, value, d, hsource, hvalue, hmem, hdeclares, hsame, hmeans⟩

/-- Two lines of bytes, the second of which has the initializers of the first. -/
def byteBlock : List ValueSpec :=
  let iota : Expr := .node .none (.ident "iota")
  [.mk ["a", "b"] (some (.node .none (.named "uint8")))
      [iota, .node .none (.binary .add iota (.node .none (.int 10)))] .none,
    .mk [blank, "c"] none [] .none]

/-- The scope of these lines. -/
def byteScope : Scope := after ([] ++ .load (.const byteBlock) :: [])

/-- The lines from the last to the first. -/
def byteOrder : Order := [.single 3, .single 2, .single 1, .single 0]

/-- Also in this order the last constant has the second initializer, evaluated with the number of
the second line. -/
theorem byteBlock_means : ∃ c d,
    Compile.batches (Order.batches byteScope byteOrder) (.start .empty ⟨[], [], 0⟩ false) =
      .ok ((), c) ∧ d.name = "c" ∧
    Compile.Means (Order.batches byteScope byteOrder) (.start .empty ⟨[], [], 0⟩ false) c d 1
      (some (.node .none (.named "uint8")))
      (.node .none (.binary .add (.node .none (.ident "iota")) (.node .none (.int 10)))) := by
  have hruns : (Compile.batches (Order.batches byteScope byteOrder)
      (.start .empty ⟨[], [], 0⟩ false)).isOk = true := by decide +kernel
  have hsize : byteScope.decls.size = 4 := by decide +kernel
  have hcomplete : Order.Complete byteScope byteOrder :=
    ⟨by rw [hsize]; decide, nofun⟩
  cases hrun : Compile.batches (Order.batches byteScope byteOrder)
      (.start .empty ⟨[], [], 0⟩ false) with
  | error e =>
      rw [hrun] at hruns
      cases hruns
  | ok r =>
      obtain ⟨-, -, -, hmeans⟩ := const_block [] [] byteBlock rfl
        (rfl : _ = byteScope)
      obtain ⟨source, value, d, hsource, hvalue, -, -, hname, hmeans⟩ :=
        hmeans _ byteOrder _ _ _ r.2 rfl hcomplete hrun 1 1 _ "c" rfl rfl
      obtain ⟨k, hk, hget, hne, -⟩ := hsource
      rcases Nat.le_one_iff_eq_zero_or_eq_one.1 hk with rfl | rfl
      · cases hget
        cases hvalue
        exact ⟨r.2, d, rfl, hname (by decide), hmeans⟩
      · cases hget
        exact absurd rfl hne

end Scope

end ScriptCore
