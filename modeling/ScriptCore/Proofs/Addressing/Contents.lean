import ScriptCore.Proofs.Addressing.Package
import ScriptCore.Proofs.Declaration.Entries
import ScriptCore.Proofs.Straight.Expression

/-!
# What initializes a package

The code that initializes a package has one instruction for every initializer of a package variable,
and no others.  After it the functions in certain slots are called: one for every `init` function,
in the order in which these stand in the source, each with its compiled body.

Batch by batch: a variable is alone in its batch, and so is an `init` function; every other batch
leaves both as they are.

Main statements: `Compile.batch_adds` (one batch), `Compile.batches_contain` (the run) and
`Package.contents`.
-/

namespace ScriptCore

open Code

namespace Compile

variable {hosts : Hosts} {before c c' : Compiler} {known : Name → Prop}

/-- The function that a declaration makes, declared and defined from the state `c` on. -/
def Makes (c : Compiler) (decl : FuncDecl) (f : Function) : Prop :=
  ∃ name c₁, declareFunc name decl c = .ok ((), c₁) ∧ Defines c₁ name decl f

/-- What a batch adds to a state: instructions for the initializers in it, and slots with the
functions of the `init` functions in it. -/
structure Adds (before : Compiler) (decls : List Decl) (c : Compiler) : Prop where
  hosts : c.hosts = before.hosts
  keeps : ∀ slot f, (Package.ofCompiler before).Has before.hosts.count slot f →
    (Package.ofCompiler c).Has before.hosts.count slot f
  initCode : ∃ is : List Instr, c.initCode.toList = before.initCode.toList ++ is ∧
    List.Forall₂ (Initializes before) (decls.flatMap Decl.initializers) is
  initFuncs : ∃ slots, c.initFuncs = before.initFuncs ++ slots ∧
    List.Forall₂ (fun decl slot => ∃ f, Makes before decl f ∧
      (Package.ofCompiler c).Has before.hosts.count slot f) (decls.flatMap Decl.entries) slots

/-- Only variables have initializers. -/
theorem initializers_eq_nil {d : Decl} (h : d.kind ≠ .var) : d.initializers = [] := by
  unfold Decl.initializers
  split <;> first | rfl | exact absurd ‹_› h

/-- An `init` function is a function of that name. -/
theorem entries_ne_nil {d : Decl} (h : d.entries ≠ []) :
    ∃ decl, d.kind = .func ∧ d.node = .func decl ∧ decl.name = "init" ∧ d.entries = [decl] := by
  unfold Decl.entries at h ⊢
  split at h
  · next decl hkind hnode =>
    split at h
    · next hinit => exact ⟨decl, hkind, hnode, hinit, if_pos hinit⟩
    · exact absurd rfl h
  · exact absurd rfl h

/-- What was in slots before stays there in a batch. -/
theorem Since.keeps {added : List Nat} (h : Since before known added c) (slot : Nat)
    (f : Function) (hf : (Package.ofCompiler before).Has before.hosts.count slot f) :
    (Package.ofCompiler c).Has before.hosts.count slot f :=
  hf.mono (h.globals slot hf.lt_size) h.functions

/-- A batch of one `init` function. -/
theorem entryBatch_matches (h : Settled hosts before) {d : Decl} {decl : FuncDecl}
    (hkind : d.kind = .func) (hnode : d.node = .func decl) (hinit : decl.name = "init") :
    Matches before (batch [d]) (Checked.batch [d]) fun _ c' => ∃ slot f known,
      Since before known [slot] c' ∧ Makes before decl f ∧
        (Package.ofCompiler c').Has before.hosts.count slot f := by
  have hdecl : declareDecl d = declareFunc d.name decl ∧
      Checked.declareDecl d = Checked.declareFunc d.name decl := by
    unfold declareDecl Checked.declareDecl
    rw [hkind, hnode]
    exact ⟨rfl, rfl⟩
  have hdef : defineDecl d = defineFunc d.name decl ∧
      Checked.defineDecl d = Checked.defineFunc d.name decl := by
    unfold defineDecl Checked.defineDecl
    rw [hkind, hnode]
    exact ⟨rfl, rfl⟩
  unfold batch Checked.batch
  rw [List.mergeSort_singleton]
  unfold eachDecl
  rw [hdecl.1, hdecl.2, hdef.1, hdef.2]
  refine .bind (S := fun _ c₁ => declareFunc d.name decl before = .ok ((), c₁) ∧
      ∃ b, Since before (fun n => False ∨ n = d.name) [b.slot] c₁ ∧
        c₁.bindings.lookup d.name = some b)
    (.bind ((declareFunc_matches h.since d.name decl).known.at' d.span)
      fun _ c₁ ⟨hdeclared, more, _, hslot, h₁⟩ => ?_) fun _ c₁ ⟨hdeclared, b, h₁, hlookup⟩ => ?_
  · obtain ⟨b, hlookup, rfl⟩ := hslot hinit
    exact .pure ⟨hdeclared, b, h₁, hlookup⟩
  refine .bind ((defineFunc_matches h₁ (.inr rfl) decl).at' d.span) fun _ c₂ ⟨h₂, hhas⟩ =>
    .pure ?_
  obtain ⟨f, hf, hin⟩ := hhas b hlookup (List.mem_singleton_self _)
  exact ⟨b.slot, f, _, h₂, ⟨d.name, c₁, hdeclared, hf⟩, hin⟩

/-- **What a batch adds.** -/
theorem batch_adds (h : Settled hosts before) {decls : List Decl}
    (hvar : ∀ d ∈ decls, d.kind = .var → decls = [d])
    (hentry : ∀ d ∈ decls, d.entries ≠ [] → decls = [d])
    (hrun : batch decls before = .ok ((), c)) : Adds before decls c := by
  by_cases hsome : ∃ d ∈ decls, d.kind = .var
  · -- variables have initializers
    obtain ⟨d, hd, hkind⟩ := hsome
    obtain rfl := hvar d hd hkind
    obtain ⟨-, hi⟩ := (varBatch_matches h hkind).leaves () c hrun
    have hnone : d.entries = [] := by
      unfold Decl.entries
      rw [hkind]
    refine ⟨hi.hosts, fun slot f hf => hf.mono (hi.globals slot hf.lt_size) fun k _ => ?_,
      by simpa using hi.initCode, [], by rw [hi.initFuncs, List.append_nil], by simp [hnone]⟩
    rw [Package.ofCompiler, hi.functions]
    rfl
  · have hnovar : ∀ d ∈ decls, d.kind ≠ .var := fun d hd hkind => hsome ⟨d, hd, hkind⟩
    have hinits : decls.flatMap Decl.initializers = [] :=
      List.flatMap_eq_nil_iff.2 fun d hd => initializers_eq_nil (hnovar d hd)
    by_cases hsome : ∃ d ∈ decls, d.entries ≠ []
    · -- an `init` function gets a slot
      obtain ⟨d, hd, hne⟩ := hsome
      obtain rfl := hentry d hd hne
      obtain ⟨decl, hkind, hnode, hinit, hentries⟩ := entries_ne_nil hne
      obtain ⟨slot, f, known, hc, hmakes, hhas⟩ :=
        (entryBatch_matches h hkind hnode hinit).leaves () c hrun
      refine ⟨hc.hosts, hc.keeps, ⟨[], by rw [hc.initCode, List.append_nil], ?_⟩,
        [slot], hc.initFuncs, ?_⟩
      · rw [hinits]
        exact .nil
      · rw [List.flatMap_singleton, hentries]
        exact .cons ⟨f, hmakes, hhas⟩ .nil
    · -- nothing is added
      have hnone : ∀ d ∈ decls, d.entries = [] := fun d hd =>
        Classical.byContradiction fun hne => hsome ⟨d, hd, hne⟩
      obtain ⟨known, added, hadded, hc⟩ := (batch_since h hnovar).leaves () c hrun
      obtain rfl := hadded hnone
      refine ⟨hc.hosts, hc.keeps, ⟨[], by rw [hc.initCode, List.append_nil], ?_⟩,
        [], hc.initFuncs, ?_⟩
      · rw [hinits]
        exact .nil
      · rw [List.flatMap_eq_nil_iff.2 hnone]
        exact .nil

/-- What initializes the package after some batches, with the states in which it was compiled. -/
structure Contains (reached : Compiler → Prop) (hosts : Hosts) (bs : List (List Decl))
    (c : Compiler) : Prop where
  settled : Settled hosts c
  initCode : List.Forall₂ (fun e i => ∃ c₀, reached c₀ ∧ Initializes c₀ e i)
    (bs.flatten.flatMap Decl.initializers) c.initCode.toList
  initFuncs : List.Forall₂ (fun decl slot => ∃ c₀ f, reached c₀ ∧ Makes c₀ decl f ∧
    (Package.ofCompiler c).Has hosts.count slot f) (bs.flatten.flatMap Decl.entries) c.initFuncs

/-- One batch more. -/
theorem Contains.next {reached : Compiler → Prop} {bs : List (List Decl)}
    (h : Contains reached hosts bs c) (hreached : reached c) {decls : List Decl}
    (hadds : Adds c decls c') (hsettled : Settled hosts c') :
    Contains reached hosts (bs ++ [decls]) c' := by
  obtain ⟨is, his, hinits⟩ := hadds.initCode
  obtain ⟨slots, hslots, hentries⟩ := hadds.initFuncs
  have hbatches : ∀ {α : Type} (f : Decl → List α), (bs ++ [decls]).flatten.flatMap f =
      bs.flatten.flatMap f ++ decls.flatMap f := fun f => by simp
  obtain rfl := h.settled.same
  refine ⟨hsettled, ?_, ?_⟩
  · rw [hbatches, his]
    exact List.rel_append h.initCode (hinits.imp fun _ _ hi => ⟨c, hreached, hi⟩)
  · rw [hbatches, hslots]
    exact List.rel_append
      (h.initFuncs.imp fun _ _ ⟨c₀, f, hc₀, hf, hhas⟩ => ⟨c₀, f, hc₀, hf, hadds.keeps _ f hhas⟩)
      (hentries.imp fun _ _ ⟨f, hf, hhas⟩ => ⟨c, f, hreached, hf, hhas⟩)

/-- A state between two batches. -/
def Between (bs : List (List Decl)) (start c : Compiler) : Prop :=
  ∃ done rest, bs = done ++ rest ∧ batches done start = .ok ((), c)

/-- A step for every declaration, in two parts. -/
theorem eachDecl_append {step : Decl → Compile Unit} {first rest : List Decl} :
    eachDecl step (first ++ rest) c = .ok ((), c') ↔
      ∃ c₁, eachDecl step first c = .ok ((), c₁) ∧ eachDecl step rest c₁ = .ok ((), c') := by
  induction first generalizing c with
  | nil => simp [eachDecl, pure_ok]
  | cons d first ih =>
      simp only [List.cons_append, eachDecl, bind_ok, ih]
      constructor
      · rintro ⟨_, c₁, hd, c₂, hfirst, hrest⟩
        exact ⟨c₂, ⟨_, c₁, hd, hfirst⟩, hrest⟩
      · rintro ⟨c₂, ⟨_, c₁, hd, hfirst⟩, hrest⟩
        exact ⟨_, c₁, hd, c₂, hfirst, hrest⟩

/-- Batches, in two parts. -/
theorem batches_append {first rest : List (List Decl)} :
    batches (first ++ rest) c = .ok ((), c') ↔
      ∃ c₁, batches first c = .ok ((), c₁) ∧ batches rest c₁ = .ok ((), c') := by
  induction first generalizing c with
  | nil => simp [batches, pure_ok]
  | cons decls first ih =>
      simp only [List.cons_append, batches, bind_ok, ih]
      constructor
      · rintro ⟨_, c₁, hd, c₂, hfirst, hrest⟩
        exact ⟨c₂, ⟨_, c₁, hd, hfirst⟩, hrest⟩
      · rintro ⟨c₂, ⟨_, c₁, hd, hfirst⟩, hrest⟩
        exact ⟨_, c₁, hd, c₂, hfirst, hrest⟩

/-- **Batch by batch, what initializes a package** is compiled from the initializers and the `init`
functions in the batches. -/
theorem batches_contain {bs : List (List Decl)} {start : Compiler}
    (hvar : ∀ decls ∈ bs, ∀ d ∈ decls, d.kind = .var → decls = [d])
    (hentry : ∀ decls ∈ bs, ∀ d ∈ decls, d.entries ≠ [] → decls = [d]) {done : List (List Decl)}
    (hdone : batches done start = .ok ((), c)) (h : Contains (Between bs start) hosts done c)
    (rest : List (List Decl)) (hbs : bs = done ++ rest) (hrun : batches rest c = .ok ((), c')) :
    Contains (Between bs start) hosts bs c' := by
  induction rest generalizing done c with
  | nil =>
      cases hrun
      rw [List.append_nil] at hbs
      exact hbs ▸ h
  | cons decls rest ih =>
      obtain ⟨_, c₁, hbatch, hrun⟩ := bind_ok.1 hrun
      have hmem : decls ∈ bs := hbs ▸ List.mem_append_right _ List.mem_cons_self
      have hsettled := (batch_matches h.settled (hvar decls hmem)).leaves () c₁ hbatch
      exact ih (batches_append.2 ⟨c, hdone, bind_ok.2 ⟨_, c₁, hbatch, rfl⟩⟩)
        (h.next ⟨done, _, hbs, hdone⟩
          (batch_adds h.settled (hvar decls hmem) (hentry decls hmem) hbatch) hsettled)
        (by rw [hbs, List.append_assoc]; rfl) hrun

end Compile

namespace Package

variable {types : TypeTable} {hosts : Hosts} {lowers : Bool} {items : List Item} {p : Package}

/-- A state between two batches in the compilation of items. -/
def Reached (types : TypeTable) (hosts : Hosts) (lowers : Bool) (items : List Item)
    (c : Compiler) : Prop :=
  ∃ s order, Scope.ofItems items = .ok s ∧ Order.ofScope s = .ok order ∧
    Compile.Between (Order.batches s order) (.start types hosts lowers) c

/-- **What initializes a package**: an instruction for each initializer of a package variable, in
some order, and a slot for each `init` function, in source order, which holds the function that its
declaration makes. -/
theorem contents (h : hosts.Numbered) (hplain : ∀ item ∈ items, item.Plain)
    (hp : ofItems types hosts lowers items = .ok p) :
    (∃ inits, inits.Perm (items.flatMap Item.initializers) ∧
      List.Forall₂ (fun e i => ∃ c, Reached types hosts lowers items c ∧ Compile.Initializes c e i)
        inits p.init.instrs.toList) ∧
    List.Forall₂ (fun decl slot => ∃ c f, Reached types hosts lowers items c ∧
      Compile.Makes c decl f ∧ p.Has hosts.count slot f)
      (items.flatMap Item.entries) p.initFuncs := by
  unfold ofItems at hp
  cases hs : Scope.ofItems items with
  | error e =>
      rw [hs] at hp
      cases hp
  | ok s =>
      rw [hs] at hp
      dsimp only at hp
      unfold ofScope at hp
      cases horder : Order.ofScope s with
      | error e =>
          rw [horder] at hp
          cases hp
      | ok order =>
          rw [horder] at hp
          dsimp only at hp
          cases hrun : Compile.batches (Order.batches s order) (.start types hosts lowers) with
          | error e =>
              rw [hrun] at hp
              cases hp
          | ok r =>
              rw [hrun] at hp
              cases hp
              obtain ⟨hentries, hentry⟩ := Order.batches_entries hs hplain horder
              have hvar : ∀ decls ∈ Order.batches s order, ∀ d ∈ decls, d.kind = .var →
                  decls = [d] := fun decls hdecls d hd hkind =>
                Order.value_alone horder hdecls hd (by rw [hkind]; rfl)
              have hempty : Compile.Contains (Compile.Between (Order.batches s order)
                  (.start types hosts lowers)) hosts [] (.start types hosts lowers) :=
                ⟨start_settled h, .nil, .nil⟩
              have hcontains := Compile.batches_contain hvar hentry rfl hempty _ rfl hrun
              have hreached : ∀ {c}, Compile.Between (Order.batches s order)
                  (.start types hosts lowers) c → Reached types hosts lowers items c :=
                fun hc => ⟨s, order, hs, horder, hc⟩
              refine ⟨⟨_, Order.batches_initializers hs horder, hcontains.initCode.imp
                fun _ _ ⟨c, hc, hi⟩ => ⟨c, hreached hc, hi⟩⟩, ?_⟩
              rw [← hentries]
              exact hcontains.initFuncs.imp
                fun _ _ ⟨c, f, hc, hf⟩ => ⟨c, f, hreached hc, hf⟩

end Package

end ScriptCore
