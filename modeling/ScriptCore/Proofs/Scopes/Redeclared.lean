import ScriptCore.Proofs.Scopes.Tables

/-!
# Names that are declared again

An item declares names under its keys: a blank has none, nor has an `init` function, and a method
has its type before its name.  Of a block only the lines count up to the first whose numbers do not
fit.  The item is refused as redeclared exactly if one of its keys is bound already or comes twice
(`load_guarded`).

Two slips are excluded (`Item.Regular`): a line with one initializer for several names is taken
although a name comes twice in it, and a second blank import is refused although it has no key.

Main statements: `after_tables`, and `slips` for what is excluded.
-/

namespace ScriptCore

/-- The lines of a block of constants or variables. -/
def Item.lines : Item → List ValueSpec
  | .const specs | .var specs => specs
  | _ => []

namespace Scope

variable {s t : Scope} {name : Name} {keys names : List Name} {kind : DeclKind}
  {group index : Nat} {line : ValueSpec} {lines specs : List ValueSpec} {span : Span}
  {given : List Decl → Prop} {result : Except SortError Unit × Scope} {item : Item}

instance (kind : DeclKind) (line : ValueSpec) : Decidable (IsTuple kind line) :=
  inferInstanceAs (Decidable (_ ∧ _))

instance (kind : DeclKind) (line : ValueSpec) : Decidable (Fits kind line) :=
  inferInstanceAs (Decidable (_ ∨ _))

/-! ### Keys -/

/-- Keys of lines up to the first that is refused for its initializers. -/
def lineKeys (kind : DeclKind) : List ValueSpec → List Name
  | [] => []
  | line :: rest =>
    if kind = .const ∧ line.values = [] ∨ ¬Fits kind line then []
    else written line.names ++ lineKeys kind rest

/-- Key of a function, method or macro. -/
def funcKeys (decl : FuncDecl) (isMacro : Bool) : List Name :=
  match decl.recv with
  | some recv => ((receiverName recv.type).map fun base => base ++ "." ++ decl.name).toList
  | none => if isMacro = false ∧ decl.name = "init" then [] else written [decl.name]

/-- Local name of an import. -/
def importName (spec : ImportSpec) : Name :=
  spec.localName.getD (lastPart spec.path)

/-- Keys of an item. -/
def itemKeys : Item → List Name
  | .importDecl spec => written [importName spec]
  | .type spec => written [spec.name]
  | .func decl => funcKeys decl false
  | .macroDecl decl => funcKeys decl true
  | .const specs => lineKeys .const (constLines none specs)
  | .var specs => lineKeys .var specs

/-- Written names have no `#` in them, names that share one initializer are different, and no
package is imported under a blank. -/
structure RegularItem (item : Item) : Prop where
  plain : ∀ line ∈ item.lines, ∀ n ∈ line.names, '#' ∉ n.toList
  tuples : ∀ specs, item = .var specs → ∀ line ∈ specs, IsTuple .var line →
    (written line.names).Nodup
  imports : ∀ spec, item = .importDecl spec → importName spec ≠ blank

/-! ### Refusals -/

/-- An attempt is refused as redeclared exactly if the keys cannot be declared, and then under one
of them. -/
structure Guarded (s : Scope) (keys : List Name) (result : Except SortError Unit × Scope) :
    Prop where
  refused_iff : (∃ name span previous t, result = (.error (.redeclared name span previous), t)) ↔
    ¬s.Admits keys
  mem : ∀ name span previous t, result = (.error (.redeclared name span previous), t) → name ∈ keys

/-- Only declarations matter. -/
theorem Guarded.of_decls (h : t.Guarded keys result) (hdecls : t.decls = s.decls) :
    s.Guarded keys result where
  refused_iff := by
    rw [h.refused_iff]
    exact not_congr (admits_congr fun _ _ => binds_congr hdecls)
  mem := h.mem

/-- Nothing is declared, and the attempt is not refused as redeclared. -/
theorem guarded_nil (h : ∀ name span previous t,
    result ≠ (.error (.redeclared name span previous), t)) : s.Guarded [] result where
  refused_iff := by
    refine ⟨fun ⟨name, span, previous, t, heq⟩ => absurd heq (h name span previous t),
      fun hnot => ?_⟩
    exact absurd ⟨List.nodup_nil, List.forall_mem_nil _⟩ hnot
  mem name span previous t heq := absurd heq (h name span previous t)

/-- Keys are declared. -/
theorem Declared.guarded (h : s.Declared keys span given result) : s.Guarded keys result := by
  cases h with
  | done t new admits =>
      refine ⟨⟨fun h => ?_, fun hnot => absurd admits hnot⟩, by simp⟩
      obtain ⟨_, _, _, _, heq⟩ := h
      cases heq
  | refused t name previous mem taken =>
      refine ⟨⟨fun _ => not_admits_of_taken mem taken, fun _ => ⟨name, span, previous, t, rfl⟩⟩, ?_⟩
      rintro _ _ _ _ ⟨⟩
      exact mem

/-- The names of a line are declared; no generated key is bound already or comes twice. -/
theorem Declared.guarded_written (hplain : ∀ n ∈ names, '#' ∉ n.toList)
    (h : s.Declared (s.keysOf names).1 span given result) : s.Guarded (written names) result where
  refused_iff := by rw [h.guarded.refused_iff, admits_keysOf hplain]
  mem name _ _ _ heq := by
    subst heq
    cases h with
    | refused _ _ _ mem taken =>
        rcases mem_keysOf mem with hwritten | ⟨counter, -, rfl, hfree⟩
        · exact hwritten
        · have honce := s.count_keysOf_le hplain (hash_mem_generatedName blank counter)
          rcases taken with hbinds | htwice
          · exact absurd hbinds hfree
          · omega

/-- A name is declared. -/
theorem add_guarded (s : Scope) {d : Decl} (hbound : d.boundNames = [name]) :
    s.Guarded [name] ((add d).run s) := by
  rw [← hbound]
  exact (add_declared s (by rw [hbound]; exact List.nodup_singleton name)).guarded

/-- A generated name is declared; it is free, so there is no refusal. -/
theorem fresh_guarded (s : Scope) (base : String) {make : Name → Decl}
    (hbound : ∀ n, (make n).boundNames = [n]) :
    s.Guarded [] ((fresh base >>= fun n => add (make n)).run s) := by
  have hrun : (fresh base >>= fun n => add (make n)).run s =
      (add (make (s.gensym base).1)).run (s.gensym base).2 := rfl
  obtain ⟨counter, -, heq⟩ := s.gensym_eq base
  have hfree := s.not_binds_gensym base
  rw [heq] at hfree hrun
  rw [hrun]
  refine guarded_nil fun name span previous t hrefused => ?_
  refine (add_guarded _ (hbound _)).refused_iff.1 ⟨name, span, previous, t, hrefused⟩ ?_
  refine ⟨List.nodup_singleton _, fun n hn hbinds => hfree ?_⟩
  rw [← List.mem_singleton.1 hn]
  exact hbinds

/-- A name or a generated one is declared. -/
theorem nameOrFresh_guarded (s : Scope) (name : Name) {make : Name → Decl}
    (hbound : ∀ n, (make n).boundNames = [n]) :
    s.Guarded (written [name]) ((nameOrFresh name >>= fun n => add (make n)).run s) := by
  by_cases hname : name = blank
  · rw [nameOrFresh, if_pos hname, hname, written_blank]
    exact s.fresh_guarded blank hbound
  · rw [nameOrFresh, if_neg hname, written_cons hname]
    exact s.add_guarded (hbound name)

/-- A function, method or macro. -/
theorem loadFunc_guarded (s : Scope) (decl : FuncDecl) (isMacro : Bool) :
    s.Guarded (funcKeys decl isMacro) ((loadFunc decl isMacro).run s) := by
  unfold loadFunc funcKeys
  cases hrecv : decl.recv with
  | some recv =>
      dsimp only
      cases receiverName recv.type with
      | none => exact guarded_nil fun _ _ _ _ h => by cases h
      | some base => exact s.add_guarded rfl
  | none =>
      dsimp only
      cases isMacro with
      | true => exact nameOrFresh_guarded s decl.name fun _ => rfl
      | false =>
          by_cases hinit : decl.name = "init"
          · rw [if_neg Bool.false_ne_true, if_pos hinit, if_pos ⟨rfl, hinit⟩]
            exact s.fresh_guarded "init" fun _ => rfl
          · rw [if_neg Bool.false_ne_true, if_neg hinit, if_neg fun h => hinit h.2]
            exact nameOrFresh_guarded s decl.name fun _ => rfl

/-- A line declares its keys, unless it is refused for its initializers. -/
theorem loadLine_keys (s : Scope) (group index : Nat) (hsome : ¬(kind = .const ∧ line.values = []))
    (hfits : Fits kind line) (hplain : ∀ n ∈ line.names, '#' ∉ n.toList)
    (htuple : IsTuple kind line → (written line.names).Nodup) :
    ∃ given, s.Declared (s.keysOf line.names).1 line.span given
      ((loadLine kind group index line).run s) := by
  by_cases h : IsTuple kind line
  · rw [loadLine, if_neg hsome]
    exact ⟨_, loadSpec_tuple s h ((nodup_keysOf hplain).2 (htuple h))⟩
  · exact ⟨_, loadLine_declared s kind group index line hsome hfits h⟩

/-- Keys of lines are written in a line. -/
theorem mem_lineKeys (h : name ∈ lineKeys kind lines) : ∃ line ∈ lines, name ∈ line.names := by
  induction lines with
  | nil => cases h
  | cons line rest ih =>
      rw [lineKeys] at h
      split at h
      · cases h
      · rcases List.mem_append.1 h with h | h
        · exact ⟨line, List.mem_cons_self, List.mem_of_mem_filter h⟩
        · obtain ⟨line', hline', hname⟩ := ih h
          exact ⟨line', List.mem_cons_of_mem _ hline', hname⟩

/-- **The lines of a block.** -/
theorem loadLines_guarded (s : Scope) (kind : DeclKind) (group index : Nat)
    (hplain : ∀ line ∈ lines, ∀ n ∈ line.names, '#' ∉ n.toList)
    (htuples : ∀ line ∈ lines, IsTuple kind line → (written line.names).Nodup) :
    s.Guarded (lineKeys kind lines) ((loadLines kind group index lines).run s) := by
  induction lines generalizing index s with
  | nil => exact guarded_nil fun _ _ _ _ h => by cases h
  | cons line rest ih =>
      obtain ⟨hplainLine, hplainRest⟩ := List.forall_mem_cons.1 hplain
      obtain ⟨htupleLine, htupleRest⟩ := List.forall_mem_cons.1 htuples
      rw [loadLines_cons, lineKeys]
      by_cases hmissing : kind = .const ∧ line.values = []
      · obtain ⟨rfl, hnone⟩ := hmissing
        rw [if_pos (.inl ⟨rfl, hnone⟩), loadLine_missing s group index line hnone]
        exact guarded_nil fun _ _ _ _ h => by cases h
      by_cases hfits : Fits kind line
      · rw [if_neg fun h => h.elim hmissing fun h => h hfits]
        obtain ⟨given, hline⟩ := s.loadLine_keys group index hmissing hfits hplainLine htupleLine
        have hguarded := hline.guarded_written hplainLine
        generalize (loadLine kind group index line).run s = result at hline hguarded
        cases hline with
        | done t new admits blocks decls bound new_given =>
            -- among the other keys only those of this line are bound in addition
            have hbinds : ∀ k ∈ lineKeys kind rest,
                t.Binds k ↔ s.Binds k ∨ k ∈ written line.names := by
              intro k hk
              obtain ⟨line', hline', hname⟩ := mem_lineKeys hk
              rw [binds_of_append decls, bound]
              refine or_congr_right ⟨fun hmem => ?_, mem_keysOf_of_written⟩
              rcases mem_keysOf hmem with hwritten | ⟨counter, -, rfl, -⟩
              · exact hwritten
              · exact absurd (hash_mem_generatedName _ _) (hplainRest line' hline' _ hname)
            have hrest := ih t (index + 1) hplainRest htupleRest
            refine ⟨?_, fun name span previous u heq => ?_⟩
            · rw [hrest.refused_iff, admits_append hbinds,
                and_iff_right ((admits_keysOf hplainLine).1 admits)]
            · exact List.mem_append_right _ (hrest.mem name span previous u heq)
        | refused t name previous mem taken =>
            refine ⟨⟨fun _ hadmits => ?_, fun _ => ⟨name, line.span, previous, t, rfl⟩⟩,
              fun _ _ _ _ heq => List.mem_append_left _ (hguarded.mem _ _ _ _ heq)⟩
            refine hguarded.refused_iff.1 ⟨name, line.span, previous, t, rfl⟩ ⟨?_, fun n hn => ?_⟩
            · exact (List.nodup_append.1 hadmits.1).1
            · exact hadmits.2 n (List.mem_append_left _ hn)
      · rw [if_pos (.inr hfits), loadLine_misfit s group index hfits]
        exact guarded_nil fun _ _ _ _ h => by cases h

/-- Lines of constants keep their names. -/
theorem names_of_mem_constLines {previous : Option ValueSpec}
    (h : line ∈ constLines previous specs) : ∃ spec ∈ specs, line.names = spec.names := by
  induction specs generalizing previous with
  | nil => cases h
  | cons spec rest ih =>
      rcases List.mem_cons.1 h with rfl | h
      · exact ⟨spec, List.mem_cons_self, rfl⟩
      · obtain ⟨spec', hspec', hnames⟩ := ih h
        exact ⟨spec', List.mem_cons_of_mem _ hspec', hnames⟩

/-- **An item is refused as redeclared** exactly if one of its keys is bound already or comes
twice. -/
theorem load_guarded (s : Scope) (h : RegularItem item) :
    s.Guarded (itemKeys item) ((load item).run s) := by
  cases item with
  | const specs =>
      rw [load_const]
      have hplain : ∀ line ∈ constLines none specs, ∀ n ∈ line.names, '#' ∉ n.toList := by
        intro line hline n hn
        obtain ⟨spec, hspec, hnames⟩ := names_of_mem_constLines hline
        exact h.plain spec hspec n (hnames ▸ hn)
      have hlines := loadLines_guarded { s with blocks := s.blocks + 1 } .const s.blocks 0 hplain
        fun _ _ htuple => by cases htuple.1
      exact hlines.of_decls rfl
  | var specs =>
      rw [load_var]
      have hlines := loadLines_guarded { s with blocks := s.blocks + 1 } .var s.blocks 0 h.plain
        (h.tuples specs rfl)
      exact hlines.of_decls rfl
  | type spec => exact s.nameOrFresh_guarded spec.name fun _ => rfl
  | func decl => exact s.loadFunc_guarded decl false
  | macroDecl decl => exact s.loadFunc_guarded decl true
  | importDecl spec =>
      rw [itemKeys, written_cons (h.imports spec rfl)]
      exact s.add_guarded rfl

/-! ### Histories -/

/-- What is done to a scope. -/
inductive Action where
  | load (item : Item)
  | gensym (base : String)

/-- The scope afterwards, also if an item is refused. -/
def act (s : Scope) : Action → Scope
  | .load item => ((load item).run s).2
  | .gensym base => (s.gensym base).2

/-- The scope after a sequence of actions. -/
def after (actions : List Action) : Scope :=
  actions.foldl act empty

/-- Every action lets the scope grow. -/
theorem act_extends (s : Scope) (action : Action) : s.Extends (s.act action) := by
  cases action with
  | load item => exact s.load_extends item
  | gensym base =>
      obtain ⟨counter, hle, heq⟩ := s.gensym_eq base
      rw [act, heq]
      exact .counters .refl (Nat.le_succ_of_le hle) (Nat.le_refl _)

/-- So do sequences of actions. -/
theorem foldl_act_extends (s : Scope) (actions : List Action) :
    s.Extends (actions.foldl act s) := by
  induction actions generalizing s with
  | nil => exact .refl
  | cons action rest ih => exact (s.act_extends action).trans (ih _)

/-- Two variables from one call; a block that fails in its second line; one more method. -/
def halfway : List Action :=
  let one : Expr := .node .none (.int 1)
  [.load (.var [.mk ["a", "b"] none [.node .none (.call (.node .none (.ident "f")) [])] .none]),
    .load (.const [.mk ["c"] none [one] .none, .mk ["d", "e"] none [one] .none]),
    .gensym "a"]

/-- A line with one initializer that declares a name twice. -/
def tupleTwice : Item :=
  .var [.mk ["a", "a"] none [.node .none (.call (.node .none (.ident "f")) [])] .none]

/-- A blank import. -/
def blankImport (path : String) : Item :=
  .importDecl ⟨path, some blank, .none⟩

end Scope

end ScriptCore
