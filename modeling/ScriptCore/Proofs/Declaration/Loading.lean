import Mathlib.Data.List.Forall2
import ScriptCore.Declaration.Scope
import ScriptCore.Proofs.Dependencies.Occurrences

/-!
# What loading adds

Every item adds declarations to the end of the scope.  Between them they have the initializers of
the item, an `init` function is loaded under a generated name, and a name that occurs free in one of
them occurs free in the item: a line of constants without values repeats those of a line of the same
block.

Main statements: `Scope.load_adds` (one item) and `Scope.ofItems_loads`.
-/

namespace ScriptCore

/-- The `init` function that an item declares, if it declares one. -/
def Item.entries : Item → List FuncDecl
  | .func decl => if decl.recv.isNone ∧ decl.name = "init" then [decl] else []
  | _ => []

/-- The initializers of package variables in an item, as they are written. -/
def Item.initializers : Item → List Expr
  | .var specs => specs.flatMap ValueSpec.values
  | _ => []

/-- The name occurs free in an item. -/
def Item.Free (n : Name) : Item → Prop
  | .const specs | .var specs => ∃ spec ∈ specs, spec.Free n
  | .type spec => spec.type.Free n
  | .func decl | .macroDecl decl => decl.Free n
  | .importDecl _ => False

namespace Decl

/-- The `init` function that a declaration stands for, if it stands for one. -/
def entries (d : Decl) : List FuncDecl :=
  match d.kind, d.node with
  | .func, .func decl => if decl.name = "init" then [decl] else []
  | _, _ => []

/-- The initializers of package variables in a declaration. -/
def initializers (d : Decl) : List Expr :=
  match d.kind, d.node with
  | .var, .value spec => spec.values.head?.toList
  | .var, .grouped spec index => spec.values[index]?.toList
  | .var, .tuple spec => spec.values
  | _, _ => []

end Decl

/-- What an item adds to a scope. -/
structure Item.Loads (item : Item) (added : List Decl) : Prop where
  entries : added.flatMap Decl.entries = item.entries
  initializers : added.flatMap Decl.initializers = item.initializers
  free : ∀ d ∈ added, ∀ n, d.Free n → item.Free n
  /-- An `init` function belongs to no block and is bound under a generated name. -/
  generated : ∀ d ∈ added, d.entries ≠ [] → d.group = none ∧
    ∃ counter, d.boundNames = [Scope.generatedName "init" counter]

namespace Scope

variable {α β : Type}

/-- One step after another. -/
theorem run_bind (step : Load α) (next : α → Load β) (s : Scope) :
    (step >>= next).run s = match step.run s with
      | (.ok a, t) => (next a).run t
      | (.error e, t) => (.error e, t) := by
  change (ExceptT.bindCont next (step.run s).1 : StateM Scope _) (step.run s).2 = _
  rcases step.run s with ⟨a | a, t⟩ <;> rfl

/-- The step adds declarations to the end of the scope, and if it succeeds they have a property. -/
def Load.Adds (step : Load α) (Q : α → List Decl → Prop) : Prop :=
  ∀ s a s', step.run s = (.ok a, s') →
    ∃ added, s'.decls.toList = s.decls.toList ++ added ∧ Q a added

namespace Load.Adds

variable {step : Load α} {Q R : α → List Decl → Prop}

/-- Nothing is added. -/
theorem pure {a : α} (h : Q a []) : Adds (Pure.pure a) Q := by
  rintro s b s' ⟨⟩
  exact ⟨[], (List.append_nil _).symm, h⟩

/-- An error. -/
theorem throw (e : SortError) : Adds (throw e : Load α) Q := by
  rintro s a s' ⟨⟩

/-- One step after another. -/
theorem bind {step : Load β} {S : β → List Decl → Prop} {next : β → Load α} (h : Adds step S)
    (hnext : ∀ b first, S b first → Adds (next b) fun a rest => Q a (first ++ rest)) :
    Adds (step >>= next) Q := by
  intro s a s' hrun
  rw [run_bind] at hrun
  rcases hstep : step.run s with ⟨b | b, t⟩
  · rw [hstep] at hrun
    cases hrun
  · rw [hstep] at hrun
    obtain ⟨first, hfirst, hb⟩ := h s b t hstep
    obtain ⟨rest, hrest, ha⟩ := hnext b first hb t a s' hrun
    exact ⟨first ++ rest, by rw [hrest, hfirst, List.append_assoc], ha⟩

/-- A weaker property. -/
theorem imp (h : Adds step R) (hQ : ∀ a added, R a added → Q a added) : Adds step Q := by
  intro s a s' hrun
  obtain ⟨added, hadded, ha⟩ := h s a s' hrun
  exact ⟨added, hadded, hQ a added ha⟩

/-- A choice. -/
theorem ite {P : Prop} [Decidable P] {step' : Load α} (h : P → Adds step Q)
    (h' : ¬P → Adds step' Q) : Adds (if P then step else step') Q := by
  split
  · exact h ‹_›
  · exact h' ‹_›

end Load.Adds

open Load

/-- A step that starts by looking at the scope. -/
theorem run_get_bind (next : Scope → Load α) (s : Scope) :
    (get >>= next).run s = (next s).run s :=
  rfl

/-- A declaration is added as it is, but for its position. -/
theorem add_adds (d : Decl) : Adds (add d) fun _ added => ∃ seq, added = [{ d with seq }] := by
  intro s a s' hrun
  rw [add, run_get_bind] at hrun
  cases hinsert : s.insert d with
  | error e =>
      rw [hinsert] at hrun
      cases hrun
  | ok t =>
      rw [hinsert] at hrun
      cases hrun
      exact ⟨_, by rw [insert_decls hinsert, Array.toList_push], _, rfl⟩

/-- A generated name adds nothing. -/
theorem fresh_adds (base : String) : Adds (fresh base) fun name added =>
    added = [] ∧ ∃ counter, name = generatedName base counter := by
  rintro s a s' ⟨⟩
  exact ⟨[], (List.append_nil _).symm, rfl, _, rfl⟩

/-- A number for a block adds nothing. -/
theorem newBlock_adds : Adds newBlock fun _ added => added = [] := by
  rintro s a s' ⟨⟩
  exact ⟨[], (List.append_nil _).symm, rfl⟩

/-- A name adds nothing. -/
theorem nameOrFresh_adds (name : Name) : Adds (nameOrFresh name) fun _ added => added = [] :=
  .ite (fun _ => (fresh_adds blank).imp fun _ _ h => h.1) fun _ => .pure rfl

/-- Names add nothing, and they are as many as those of the line. -/
theorem namesOrFresh_adds (names : List Name) :
    Adds (namesOrFresh names) fun bound added => added = [] ∧ bound.length = names.length := by
  induction names with
  | nil => exact .pure ⟨rfl, rfl⟩
  | cons name rest ih =>
      refine .bind (nameOrFresh_adds name) ?_
      rintro n _ rfl
      refine .bind ih ?_
      rintro bound _ ⟨rfl, hlength⟩
      exact .pure ⟨rfl, congrArg (· + 1) hlength⟩

/-! ### Values -/

/-- What a value line adds.  Variables have the initializers of the line. -/
structure LineLoads (kind : DeclKind) (spec : ValueSpec) (added : List Decl) : Prop where
  kinds : ∀ d ∈ added, d.kind = kind
  free : ∀ d ∈ added, ∀ n, d.Free n → spec.Free n
  initializers : kind = .var → added.flatMap Decl.initializers = spec.values

/-- One initializer of a line. -/
theorem free_of_index {n : Name} {es : List Expr} {index : Nat}
    (h : FreeInExpr? n es[index]?) : FreeInExprs n es := by
  induction es generalizing index with
  | nil => exact h
  | cons e es ih =>
      cases index with
      | zero => exact .inl h
      | succ index => exact .inr (ih h)

/-- The names of a line, each with its own initializer. -/
theorem addGrouped_adds (kind : DeclKind) (group : Nat) (iota : Option Nat) (spec : ValueSpec)
    (names : List Name) (index : Nat) :
    Adds (addGrouped kind group iota spec index names) fun _ added =>
      (∀ d ∈ added, d.kind = kind ∧ ∀ n, d.Free n → spec.Free n) ∧
      (kind = .var → added.flatMap Decl.initializers =
        (spec.values.drop index).take names.length) := by
  induction names generalizing index with
  | nil => exact .pure ⟨by simp, by simp⟩
  | cons name rest ih =>
      refine .bind (add_adds _) ?_
      rintro _ _ ⟨seq, rfl⟩
      refine (ih (index + 1)).imp fun _ added ⟨hadded, hvalues⟩ => ⟨?_, fun hkind => ?_⟩
      · refine List.forall_mem_cons.2 ⟨⟨rfl, fun n hn => ?_⟩, hadded⟩
        obtain ⟨_, type, values, _⟩ := spec
        exact hn.imp_right free_of_index
      · subst hkind
        rw [List.cons_append, List.nil_append, List.flatMap_cons, hvalues rfl, List.length_cons]
        simp only [Decl.initializers]
        cases hvalue : spec.values[index]? with
        | none =>
            have hle := List.getElem?_eq_none_iff.1 hvalue
            rw [List.drop_eq_nil_of_le hle, List.drop_eq_nil_of_le (Nat.le_succ_of_le hle)]
            simp
        | some e =>
            obtain ⟨hlt, rfl⟩ := List.getElem?_eq_some_iff.1 hvalue
            rw [List.drop_eq_getElem_cons hlt]
            rfl

/-- **A value line** adds its names with its initializers. -/
theorem loadSpec_adds (kind : DeclKind) (group : Nat) (iota : Option Nat) (spec : ValueSpec) :
    Adds (loadSpec kind group iota spec) fun _ added => LineLoads kind spec added := by
  have hsame : ∀ (names : List Name) (n : Name),
      (ValueSpec.mk names spec.type spec.values spec.span).Free n → spec.Free n :=
    fun _ _ h => by cases spec; exact h
  refine .bind (namesOrFresh_adds spec.names) ?_
  rintro names _ ⟨rfl, -⟩
  refine .ite (fun h => ?_) fun h => ?_
  · split
    · next first rest hvalues =>
      refine (add_adds _).imp ?_
      rintro _ _ ⟨seq, rfl⟩
      refine ⟨by simp, fun d hd n hn => ?_, fun _ => by simp [Decl.initializers, ValueSpec.values]⟩
      cases List.mem_singleton.1 hd
      exact hsame (first :: rest) n hn
    · exact .throw _
  · split
    · next name =>
      refine (add_adds _).imp ?_
      rintro _ _ ⟨seq, rfl⟩
      refine ⟨by simp, fun d hd n hn => ?_, ?_⟩
      · cases List.mem_singleton.1 hd
        exact hsame [name] n hn
      · rintro rfl
        have hone : spec.values.length ≤ 1 := by
          refine Nat.le_of_not_lt fun hlt => h ⟨?_, fun heq => Nat.ne_of_gt hlt heq⟩
          exact List.ne_nil_of_length_pos (Nat.lt_of_succ_lt hlt)
        rcases hvalues : spec.values with _ | ⟨e, _ | ⟨e', es⟩⟩
        · simp [Decl.initializers, ValueSpec.values]
        · simp [Decl.initializers, ValueSpec.values]
        · simp [hvalues] at hone
    · refine (addGrouped_adds kind group iota _ names 0).imp fun _ added h => ?_
      obtain ⟨hadded, hvalues⟩ := h
      refine ⟨fun d hd => (hadded d hd).1, fun d hd n hn => hsame names n ((hadded d hd).2 n hn),
        fun hkind => ?_⟩
      rw [List.nil_append, hvalues hkind, List.drop_zero]
      refine List.take_of_length_le (Nat.le_of_not_lt fun hlt => h ⟨?_, Nat.ne_of_gt hlt⟩)
      exact List.ne_nil_of_length_pos (Nat.zero_lt_of_lt hlt)

/-- The lines of a variable block. -/
theorem loadVars_adds (group : Nat) (specs : List ValueSpec) :
    Adds (loadVars group specs) fun _ added => (Item.var specs).Loads added := by
  induction specs with
  | nil => exact .pure ⟨rfl, rfl, by simp, by simp⟩
  | cons spec rest ih =>
      refine .bind (loadSpec_adds .var group none spec) fun _ first hfirst =>
        ih.imp fun _ added hadded => ?_
      have hentry : ∀ d ∈ first, d.entries = [] := fun d hd => by
        simp only [Decl.entries, hfirst.kinds d hd]
      constructor
      · rw [List.flatMap_append, hadded.entries, List.flatMap_eq_nil_iff.2 hentry]
        rfl
      · rw [List.flatMap_append, hfirst.initializers rfl, hadded.initializers]
        rfl
      · intro d hd n hn
        rcases List.mem_append.1 hd with hd | hd
        · exact ⟨spec, List.mem_cons_self, hfirst.free d hd n hn⟩
        · obtain ⟨spec', hspec', hfree⟩ := hadded.free d hd n hn
          exact ⟨spec', List.mem_cons_of_mem _ hspec', hfree⟩
      · intro d hd hne
        rcases List.mem_append.1 hd with hd | hd
        · exact absurd (hentry d hd) hne
        · exact hadded.generated d hd hne

/-- The lines of a constant block, whose values are those of lines among `all`. -/
theorem loadConsts_adds (group : Nat) (all specs : List ValueSpec) :
    ∀ (iota : Nat) (previous : Option ValueSpec), (∀ p ∈ previous, p ∈ all) →
      (∀ spec ∈ specs, spec ∈ all) →
      Adds (loadConsts group iota previous specs) fun _ added =>
        ∀ d ∈ added, d.kind = .const ∧ ∀ n, d.Free n → ∃ spec ∈ all, spec.Free n := by
  induction specs with
  | nil => exact fun _ _ _ _ => .pure (List.forall_mem_nil _)
  | cons spec rest ih =>
      intro iota previous hprevious hspecs
      have hsource : (if spec.values.isEmpty then previous.getD spec else spec) ∈ all := by
        split
        · cases previous with
          | none => exact hspecs spec List.mem_cons_self
          | some p => exact hprevious p rfl
        · exact hspecs spec List.mem_cons_self
      unfold loadConsts
      dsimp only
      generalize (if spec.values.isEmpty then previous.getD spec else spec) = source at hsource ⊢
      have hfree : ∀ n, (ValueSpec.mk spec.names source.type source.values spec.span).Free n →
          ∃ spec ∈ all, spec.Free n := fun n hn => ⟨source, hsource, by cases source; exact hn⟩
      have hrest := ih (iota + 1) (some source) (fun p hp => Option.some.inj hp ▸ hsource)
        fun s hs => hspecs s (List.mem_cons_of_mem _ hs)
      refine .ite (fun _ => .bind (S := fun _ _ => False) (.throw _) fun _ _ h => h.elim)
        fun _ => .bind (loadSpec_adds .const group (some iota) _) fun _ first hfirst =>
          hrest.imp fun _ added hadded d hd => ?_
      rcases List.mem_append.1 hd with hd | hd
      · exact ⟨hfirst.kinds d hd, fun n hn => hfree n (hfirst.free d hd n hn)⟩
      · exact hadded d hd

/-! ### Items -/

/-- A single declaration that is no `init` function and has no initializers. -/
theorem loads_singleton {item : Item} {d : Decl} (hentry : d.entries = item.entries)
    (hinitializers : d.initializers = item.initializers) (hfree : ∀ n, d.Free n → item.Free n)
    (hgenerated : d.entries ≠ [] → d.group = none ∧
      ∃ counter, d.boundNames = [generatedName "init" counter]) : item.Loads [d] :=
  ⟨by simpa using hentry, by simpa using hinitializers, by simpa using hfree,
    by simpa using hgenerated⟩

/-- A function, method or macro. -/
theorem loadFunc_adds (decl : FuncDecl) (isMacro : Bool) :
    Adds (loadFunc decl isMacro) fun _ added =>
      (if isMacro then Item.macroDecl decl else .func decl).Loads added := by
  -- whatever the kind and the name under which it is bound
  have hadd : ∀ (kind : DeclKind) (name : Name),
      (if kind = .func ∧ decl.name = "init" then [decl] else []) =
        (if isMacro then Item.macroDecl decl else .func decl).entries →
      (kind = .func → decl.name = "init" → ∃ counter, name = generatedName "init" counter) →
      Adds (add ⟨kind, name, .func decl, decl.span, none, none, 0⟩) fun _ added =>
        (if isMacro then Item.macroDecl decl else .func decl).Loads added := by
    intro kind name hentry hname
    refine (add_adds _).imp ?_
    rintro _ _ ⟨seq, rfl⟩
    refine loads_singleton ?_ ?_ (fun n hn => by cases isMacro <;> exact hn) fun hne => ⟨rfl, ?_⟩
    · rw [← hentry]
      cases kind <;> simp [Decl.entries]
    · cases isMacro <;> cases kind <;> rfl
    · cases kind <;> simp only [Decl.entries, ne_eq, not_true_eq_false] at hne
      obtain ⟨counter, rfl⟩ := hname rfl (by simpa using hne)
      exact ⟨counter, rfl⟩
  unfold loadFunc
  cases hrecv : decl.recv with
  | some recv =>
      dsimp only
      cases receiverName recv.type with
      | none => exact .bind (S := fun _ _ => False) (.throw _) fun _ _ h => h.elim
      | some base => exact hadd .method _ (by cases isMacro <;> simp [Item.entries, hrecv]) nofun
  | none =>
      cases isMacro with
      | true =>
          refine .bind (nameOrFresh_adds decl.name) ?_
          rintro name _ rfl
          exact hadd .macroDecl name (by simp [Item.entries]) nofun
      | false =>
          simp only [Bool.false_eq_true, if_false]
          refine .ite (fun hinit => ?_) fun hinit => ?_
          · refine .bind (fresh_adds "init") ?_
            rintro name _ ⟨rfl, hname⟩
            exact hadd .func name (by simp [Item.entries, hrecv]) fun _ _ => hname
          · refine .bind (nameOrFresh_adds decl.name) ?_
            rintro name _ rfl
            exact hadd .func name (by simp [Item.entries, hinit]) fun _ h => absurd h hinit

/-- **What an item adds.** -/
theorem load_adds (item : Item) : Adds (load item) fun _ added => item.Loads added := by
  cases item with
  | const specs =>
      refine .bind newBlock_adds ?_
      rintro group _ rfl
      refine (loadConsts_adds group specs specs 0 none nofun fun _ h => h).imp
        fun _ added hadded => ?_
      refine ⟨?_, ?_, fun d hd => (hadded d hd).2, fun d hd hne => absurd ?_ hne⟩
      · refine List.flatMap_eq_nil_iff.2 fun d hd => ?_
        simp only [Decl.entries, (hadded d hd).1]
      · refine List.flatMap_eq_nil_iff.2 fun d hd => ?_
        simp only [Decl.initializers, (hadded d hd).1]
      · simp only [Decl.entries, (hadded d hd).1]
  | var specs =>
      refine .bind newBlock_adds ?_
      rintro group _ rfl
      exact loadVars_adds group specs
  | type spec =>
      refine .bind (nameOrFresh_adds spec.name) ?_
      rintro name _ rfl
      refine (add_adds _).imp ?_
      rintro _ _ ⟨seq, rfl⟩
      exact loads_singleton rfl rfl (fun _ h => h) fun h => absurd rfl h
  | func decl => exact loadFunc_adds decl false
  | macroDecl decl => exact loadFunc_adds decl true
  | importDecl spec =>
      refine (add_adds _).imp ?_
      rintro _ _ ⟨seq, rfl⟩
      exact loads_singleton rfl rfl (fun _ h => h) fun h => absurd rfl h

/-- **What items add**, one after the other. -/
theorem ofItems_loads {items : List Item} {s : Scope} (h : ofItems items = .ok s) :
    ∃ parts, List.Forall₂ Item.Loads items parts ∧ s.decls.toList = parts.flatten := by
  have hall : ∀ items, Adds (loadAll items) fun _ added =>
      ∃ parts, List.Forall₂ Item.Loads items parts ∧ added = parts.flatten := by
    intro items
    induction items with
    | nil => exact .pure ⟨[], .nil, rfl⟩
    | cons item rest ih =>
        refine .bind (load_adds item) fun _ first hfirst => ih.imp ?_
        rintro _ _ ⟨parts, hparts, rfl⟩
        exact ⟨first :: parts, .cons hfirst hparts, rfl⟩
  unfold ofItems at h
  rcases hrun : (loadAll items).run empty with ⟨e | a, t⟩
  · rw [hrun] at h
    cases h
  · rw [hrun] at h
    cases h
    obtain ⟨added, hdecls, hparts⟩ := hall items empty a _ hrun
    obtain ⟨parts, hforall, rfl⟩ := hparts
    exact ⟨parts, hforall, by simpa [empty] using hdecls⟩

end Scope

end ScriptCore
