import ScriptCore.Proofs.Scopes.Tables

/-!
# Blocks of constants

A block of constants is refused for one of three reasons (`ConstRefusal`): its first line has no
initializers, a line has not as many names as its source has initializers, or a name is bound when
the turn comes to its line.  A block that is loaded declares every name of every line as a constant
with the type and the initializer of the source of the line, and with the number of its own line.

Main statements: `load_const_refused`, `load_const_fails_iff` and `load_const_declares`.
-/

namespace ScriptCore

namespace Scope

variable {s t : Scope} {group index i j : Nat} {line spec source : ValueSpec}
  {lines specs : List ValueSpec} {e : SortError} {name : Name} {names : List Name}

/-! ### Refusals -/

/-- Why a block of constants is refused. -/
inductive ConstRefusal (s : Scope) (specs : List ValueSpec) : SortError → Prop
  | missing {spec : ValueSpec} (hspec : specs[0]? = some spec) (hnone : spec.values = []) :
      ConstRefusal s specs (.missingConstValue (spec.names.headD "") spec.span)
  | count {i : Nat} {spec source : ValueSpec} (hspec : specs[i]? = some spec)
      (hsource : IsSource specs i source) (hcount : spec.names.length ≠ source.values.length) :
      ConstRefusal s specs (.valueCount spec.names.length source.values.length spec.span)
  | redeclared {i : Nat} {spec : ValueSpec} {t : Scope} {name : Name} {previous : Span}
      (hspec : specs[i]? = some spec)
      (hbefore : (load (.const (specs.take i))).run s = (.ok (), t))
      (hmem : name ∈ (t.keysOf spec.names).1)
      (htaken : t.Binds name ∨ 2 ≤ (t.keysOf spec.names).1.count name) :
      ConstRefusal s specs (.redeclared name spec.span previous)

/-- A source has initializers. -/
theorem IsSource.values_ne_nil (h : IsSource specs i source) : source.values ≠ [] := by
  obtain ⟨_, _, _, hvalues, _⟩ := h
  exact hvalues

/-- Constants are no tuples: there are as many initializers as names. -/
theorem fits_const_iff (h : IsSource specs i source) :
    Fits .const (lineFrom spec source) ↔ spec.names.length = source.values.length := by
  simp [Fits, IsTuple, h.values_ne_nil, eq_comm]

/-- A line of constants with its source. -/
theorem loadLine_constants (u : Scope) (group index : Nat) (h : IsSource specs i source)
    (hfits : Fits .const (lineFrom spec source)) :
    u.Declared (u.keysOf spec.names).1 spec.span (List.Forall₂ (fun p d =>
      d.Declares .const group (some index) (lineFrom spec source) p.1 p.2)
      (u.keysOf spec.names).1.zipIdx)
      ((loadLine .const group index (lineFrom spec source)).run u) :=
  loadLine_declared u .const group index (lineFrom spec source)
    (fun hnone => h.values_ne_nil hnone.2) hfits (by simp [IsTuple])

/-- The lines before a position, as a block of their own. -/
theorem load_const_take : (load (.const (specs.take i))).run s =
    (loadLines .const s.blocks 0 ((constLines none specs).take i)).run
      { s with blocks := s.blocks + 1 } := by
  rw [load_const, constLines_take]

/-- A block whose first line has no initializers is refused at once. -/
theorem load_const_missing (hspec : specs[0]? = some spec) (hnone : spec.values = []) :
    (load (.const specs)).run s =
      (.error (.missingConstValue (spec.names.headD "") spec.span),
        { s with blocks := s.blocks + 1 }) := by
  cases specs with
  | nil => cases hspec
  | cons first rest =>
      cases hspec
      rw [load_const, constLines, if_pos (List.isEmpty_iff.2 hnone), Option.getD_none,
        loadLines_cons, loadLine_missing _ _ _ (lineFrom spec spec) hnone]
      rfl

/-- A line of a block that is reached: it has a source, unless the block was refused for its first
line. -/
theorem exists_source (hfirst : ∀ spec : ValueSpec, specs[0]? = some spec → spec.values ≠ [])
    (hline : (constLines none specs)[i]? = some line) :
    ∃ spec source, specs[i]? = some spec ∧ IsSource specs i source ∧
      line = lineFrom spec source := by
  have hi : i < specs.length := by
    have hlt := (List.getElem?_eq_some_iff.1 hline).1
    rwa [length_constLines] at hlt
  obtain ⟨source, hsource⟩ := exists_isSource hfirst hi
  have hspec := List.getElem?_eq_getElem hi
  refine ⟨specs[i], source, hspec, hsource, ?_⟩
  rw [constLines_of_isSource hspec hsource] at hline
  exact (Option.some.inj hline).symm

/-- **A block of constants is refused for one of the reasons.** -/
theorem load_const_refused (h : (load (.const specs)).run s = (.error e, t)) :
    ConstRefusal s specs e := by
  by_cases hfirst : ∀ spec : ValueSpec, specs[0]? = some spec → spec.values ≠ []
  · rw [load_const] at h
    obtain ⟨i, line, u, hline, hbefore, hat⟩ := loadLines_error_iff.1 h
    obtain ⟨spec, source, hspec, hsource, rfl⟩ := exists_source hfirst hline
    rw [← load_const_take] at hbefore
    by_cases hfits : Fits .const (lineFrom spec source)
    · have hdeclared := loadLine_constants u s.blocks (0 + i) hsource hfits
      rw [hat] at hdeclared
      cases hdeclared with
      | refused _ name previous mem taken => exact .redeclared hspec hbefore mem taken
    · rw [loadLine_misfit u s.blocks (0 + i) hfits, lineFrom_names, lineFrom_values,
        lineFrom_span] at hat
      cases hat
      exact .count hspec hsource fun hcount => hfits ((fits_const_iff hsource).2 hcount)
  · obtain ⟨spec, hspec, hnone⟩ : ∃ spec : ValueSpec, specs[0]? = some spec ∧ spec.values = [] := by
      simpa using hfirst
    rw [load_const_missing hspec hnone] at h
    cases h
    exact .missing hspec hnone

/-- In a block that is loaded, every line declares its names. -/
theorem load_const_line (h : (load (.const specs)).run s = (.ok (), t))
    (hspec : specs[i]? = some spec) (hsource : IsSource specs i source) :
    ∃ u v, (load (.const (specs.take i))).run s = (.ok (), u) ∧
      Fits .const (lineFrom spec source) ∧
      (loadLine .const s.blocks i (lineFrom spec source)).run u = (.ok (), v) ∧
      v.decls.toList <+: t.decls.toList := by
  rw [load_const] at h
  obtain ⟨u, v, hbefore, hat, hafter⟩ := loadLines_step h (constLines_of_isSource hspec hsource)
  rw [Nat.zero_add] at hat hafter
  have hu := Load.Grows.loadLines .const s.blocks 0 ((constLines none specs).take i)
    { s with blocks := s.blocks + 1 } (by simp)
  rw [hbefore] at hu
  have hblock := Nat.lt_of_lt_of_le (Nat.lt_succ_self s.blocks) hu.blocks_le
  have hv := Load.Grows.loadLine .const s.blocks i (lineFrom spec source) u (by simpa using hblock)
  rw [hat] at hv
  have hblock' := Nat.lt_of_lt_of_le hblock hv.blocks_le
  have ht := Load.Grows.loadLines .const s.blocks (i + 1) ((constLines none specs).drop (i + 1)) v
    (by simpa using hblock')
  rw [hafter] at ht
  refine ⟨u, v, load_const_take.trans hbefore, ?_, hat, ht.isPrefix⟩
  by_contra hmisfit
  rw [loadLine_misfit u s.blocks i hmisfit] at hat
  cases hat

/-- **When a block of constants is refused.** -/
theorem load_const_fails_iff :
    (∃ e t, (load (.const specs)).run s = (.error e, t)) ↔ ∃ e, ConstRefusal s specs e := by
  constructor
  · exact fun ⟨e, t, h⟩ => ⟨e, load_const_refused h⟩
  · rintro ⟨e, hrefusal⟩
    rcases hrun : (load (.const specs)).run s with ⟨e' | a, t⟩
    · exact ⟨e', t, rfl⟩
    exfalso
    cases hrefusal with
    | missing hspec hnone =>
        rw [load_const_missing hspec hnone] at hrun
        cases hrun
    | count hspec hsource hcount =>
        obtain ⟨u, v, -, hfits, -⟩ := load_const_line hrun hspec hsource
        exact hcount ((fits_const_iff hsource).1 hfits)
    | @redeclared i spec u name previous hspec hbefore hmem htaken =>
        have hfirst : ∀ spec : ValueSpec, specs[0]? = some spec → spec.values ≠ [] := by
          intro first hget hnone
          rw [load_const_missing hget hnone] at hrun
          cases hrun
        obtain ⟨source, hsource⟩ := exists_isSource hfirst (List.getElem?_eq_some_iff.1 hspec).1
        obtain ⟨u', v, hbefore', hfits, hat, -⟩ := load_const_line hrun hspec hsource
        rw [hbefore] at hbefore'
        cases hbefore'
        have hdeclared := loadLine_constants u s.blocks i hsource hfits
        rw [hat] at hdeclared
        cases hdeclared with
        | done _ _ admits => exact not_admits_of_taken hmem htaken admits

/-- A key is the name itself unless the name is blank. -/
theorem getElem?_keysOf {key : Name} (s : Scope) (hname : names[j]? = some name)
    (hkey : (s.keysOf names).1[j]? = some key) (hne : name ≠ blank) : key = name := by
  induction names generalizing s j with
  | nil => cases hname
  | cons n rest ih =>
      rw [keysOf] at hkey
      cases j with
      | zero =>
          cases hname
          rw [if_neg hne] at hkey
          exact (Option.some.inj hkey).symm
      | succ j => exact ih _ hname hkey

/-- **A block that is loaded declares its constants**, each with the type and the initializer of the
nearest line at or before its own that has initializers, and with the number of its own line. -/
theorem load_const_declares (h : (load (.const specs)).run s = (.ok (), t))
    (hspec : specs[i]? = some spec) (hsource : IsSource specs i source)
    (hname : spec.names[j]? = some name) :
    ∃ d ∈ t.decls, d.Declares .const s.blocks (some i) (lineFrom spec source) d.name j ∧
      (name ≠ blank → d.name = name) ∧ ∃ value, source.values[j]? = some value := by
  obtain ⟨u, v, -, hfits, hat, hgrown⟩ := load_const_line h hspec hsource
  have hcount := (fits_const_iff hsource).1 hfits
  have hdeclared := loadLine_constants u s.blocks i hsource hfits
  rw [hat] at hdeclared
  have hj : j < spec.names.length := (List.getElem?_eq_some_iff.1 hname).1
  cases hdeclared with
  | done _ new _ _ decls _ given =>
      have hkeys : j < (u.keysOf spec.names).1.length := by rwa [length_keysOf]
      have hnew : j < new.length := by
        rwa [← given.length_eq, List.length_zipIdx]
      have hdeclares := given.get (by rwa [List.length_zipIdx]) hnew
      rw [List.get_eq_getElem, List.get_eq_getElem, List.getElem_zipIdx, Nat.zero_add] at hdeclares
      refine ⟨new[j], ?_, ?_, fun hne => ?_, source.values.get ⟨j, hcount ▸ hj⟩,
        List.getElem?_eq_getElem _⟩
      · refine Array.mem_toList_iff.1 (hgrown.subset ?_)
        rw [decls]
        exact List.mem_append_right _ (List.getElem_mem hnew)
      · rw [hdeclares.name]
        exact hdeclares
      · rw [hdeclares.name]
        exact u.getElem?_keysOf hname (List.getElem?_eq_getElem hkeys) hne

end Scope

end ScriptCore
