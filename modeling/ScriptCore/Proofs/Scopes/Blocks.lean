import ScriptCore.Proofs.Scopes.Lines

/-!
# Blocks of constants and variables

A block is loaded line by line up to the first line that is refused.  A constant line without
initializers is loaded with the type and the initializers of the nearest line before it that has
some, so a block of constants is a list of lines like a block of variables (`constLines`), but for
the number of the line and the check that there are initializers.

Main statements: `loadLines_error_iff`, `loadLines_step`, `load_const` and `load_var`.
-/

namespace ScriptCore

namespace Scope

variable {s t : Scope} {kind : DeclKind} {group index i : Nat} {line spec source : ValueSpec}
  {lines specs : List ValueSpec} {previous : Option ValueSpec} {e : SortError}

/-! ### Line after line -/

/-- A line of a block.  Constants have initializers and know their line. -/
def loadLine (kind : DeclKind) (group index : Nat) (line : ValueSpec) : Load Unit :=
  if kind = .const ∧ line.values = [] then
    throw (.missingConstValue (line.names.headD "") line.span)
  else loadSpec kind group (if kind = .const then some index else none) line

/-- The lines of a block. -/
def loadLines (kind : DeclKind) (group : Nat) : Nat → List ValueSpec → Load Unit
  | _, [] => pure ()
  | index, line :: rest => do
    loadLine kind group index line
    loadLines kind group (index + 1) rest

/-- The first line, and then the others. -/
theorem loadLines_cons : (loadLines kind group index (line :: lines)).run s =
    match (loadLine kind group index line).run s with
    | (.ok _, t) => (loadLines kind group (index + 1) lines).run t
    | (.error e, t) => (.error e, t) := by
  rw [loadLines, run_bind]
  rcases (loadLine kind group index line).run s with ⟨a | a, t⟩ <;> rfl

/-- Some lines, and then others. -/
theorem loadLines_append (first rest : List ValueSpec) :
    (loadLines kind group index (first ++ rest)).run s =
      match (loadLines kind group index first).run s with
      | (.ok _, t) => (loadLines kind group (index + first.length) rest).run t
      | (.error e, t) => (.error e, t) := by
  induction first generalizing index s with
  | nil => rfl
  | cons line first ih =>
      rw [List.cons_append, loadLines_cons, loadLines_cons]
      rcases (loadLine kind group index line).run s with ⟨a | a, t⟩
      · rfl
      · dsimp only
        rw [ih, List.length_cons, Nat.add_right_comm, Nat.add_assoc]

/-- A list is what comes before a position, what is there, and what comes after. -/
theorem take_append_cons (hline : lines[i]? = some line) :
    lines.take i ++ line :: lines.drop (i + 1) = lines ∧ (lines.take i).length = i := by
  obtain ⟨hlt, rfl⟩ := List.getElem?_eq_some_iff.1 hline
  rw [← List.drop_eq_getElem_cons hlt, List.take_append_drop, List.length_take]
  exact ⟨rfl, Nat.min_eq_left (Nat.le_of_lt hlt)⟩

/-- **If a block is loaded, every line is**, after the lines before it. -/
theorem loadLines_step (h : (loadLines kind group index lines).run s = (.ok (), t))
    (hline : lines[i]? = some line) :
    ∃ u v, (loadLines kind group index (lines.take i)).run s = (.ok (), u) ∧
      (loadLine kind group (index + i) line).run u = (.ok (), v) ∧
      (loadLines kind group (index + i + 1) (lines.drop (i + 1))).run v = (.ok (), t) := by
  obtain ⟨hlines, hlength⟩ := take_append_cons hline
  rw [← hlines, loadLines_append, hlength] at h
  rcases hbefore : (loadLines kind group index (lines.take i)).run s with ⟨a | a, u⟩
  · rw [hbefore] at h
    cases h
  · rw [hbefore] at h
    dsimp only at h
    rw [loadLines_cons] at h
    rcases hat : (loadLine kind group (index + i) line).run u with ⟨b | b, v⟩
    · rw [hat] at h
      cases h
    · rw [hat] at h
      exact ⟨u, v, rfl, hat, h⟩

/-- **A block is refused for the first line that is**. -/
theorem loadLines_error_iff : (loadLines kind group index lines).run s = (.error e, t) ↔
    ∃ i line u, lines[i]? = some line ∧
      (loadLines kind group index (lines.take i)).run s = (.ok (), u) ∧
      (loadLine kind group (index + i) line).run u = (.error e, t) := by
  constructor
  · intro h
    induction lines generalizing index s with
    | nil => cases h
    | cons first rest ih =>
        rw [loadLines_cons] at h
        rcases hfirst : (loadLine kind group index first).run s with ⟨a | a, u⟩
        · rw [hfirst] at h
          cases h
          exact ⟨0, first, s, rfl, rfl, hfirst⟩
        · rw [hfirst] at h
          obtain ⟨i, line, v, hline, hbefore, hat⟩ := ih h
          refine ⟨i + 1, line, v, hline, ?_, ?_⟩
          · rw [List.take_succ_cons, loadLines_cons, hfirst]
            exact hbefore
          · rwa [show index + (i + 1) = index + 1 + i by omega]
  · rintro ⟨i, line, u, hline, hbefore, hat⟩
    obtain ⟨hlines, hlength⟩ := take_append_cons hline
    rw [← hlines, loadLines_append, hbefore, hlength]
    dsimp only
    rw [loadLines_cons, hat]

/-! ### What comes of a line -/

/-- A constant without initializers. -/
theorem loadLine_missing (s : Scope) (group index : Nat) (line : ValueSpec)
    (h : line.values = []) : (loadLine .const group index line).run s =
      (.error (.missingConstValue (line.names.headD "") line.span), s) := by
  rw [loadLine, if_pos ⟨rfl, h⟩]
  rfl

/-- Numbers that do not fit. -/
theorem loadLine_misfit (s : Scope) (group index : Nat) (h : ¬Fits kind line) :
    (loadLine kind group index line).run s =
      (.error (.valueCount line.names.length line.values.length line.span),
        (s.keysOf line.names).2) := by
  rw [loadLine, if_neg fun hnone => h (.inl hnone.2), loadSpec_misfit s h]

/-- Names that are declared, or are bound already. -/
theorem loadLine_declared (s : Scope) (kind : DeclKind) (group index : Nat) (line : ValueSpec)
    (hsome : ¬(kind = .const ∧ line.values = [])) (h : Fits kind line)
    (htuple : ¬IsTuple kind line) :
    s.Declared (s.keysOf line.names).1 line.span (List.Forall₂ (fun p d =>
      d.Declares kind group (if kind = .const then some index else none) line p.1 p.2)
      (s.keysOf line.names).1.zipIdx) ((loadLine kind group index line).run s) := by
  rw [loadLine, if_neg hsome]
  exact loadSpec_declared s h htuple

/-! ### Lines of constants -/

/-- A line with the type and the initializers of another. -/
def lineFrom (spec source : ValueSpec) : ValueSpec :=
  .mk spec.names source.type source.values spec.span

@[simp] theorem lineFrom_names : (lineFrom spec source).names = spec.names := rfl

@[simp] theorem lineFrom_type : (lineFrom spec source).type = source.type := rfl

@[simp] theorem lineFrom_values : (lineFrom spec source).values = source.values := rfl

@[simp] theorem lineFrom_span : (lineFrom spec source).span = spec.span := rfl

/-- The lines of a block of constants as they are loaded, after a line with initializers. -/
def constLines : Option ValueSpec → List ValueSpec → List ValueSpec
  | _, [] => []
  | previous, spec :: rest =>
    let source := if spec.values.isEmpty then previous.getD spec else spec
    lineFrom spec source :: constLines (some source) rest

/-- The nearest line at or before a position that has initializers. -/
def IsSource (specs : List ValueSpec) (i : Nat) (source : ValueSpec) : Prop :=
  ∃ k ≤ i, specs[k]? = some source ∧ source.values ≠ [] ∧
    ∀ m spec, k < m → m ≤ i → specs[m]? = some spec → spec.values = []

/-- Loading constants is loading those lines. -/
theorem loadConsts_eq : (loadConsts group index previous specs).run s =
    (loadLines .const group index (constLines previous specs)).run s := by
  induction specs generalizing index previous s with
  | nil => rfl
  | cons spec rest ih =>
      rw [loadConsts, constLines, loadLines_cons]
      dsimp only
      generalize (if spec.values.isEmpty then previous.getD spec else spec) = source
      rw [show ValueSpec.mk spec.names source.type source.values spec.span =
        lineFrom spec source from rfl]
      by_cases hnone : source.values = []
      · rw [if_pos (List.isEmpty_iff.2 hnone), loadLine_missing s group index
          (lineFrom spec source) hnone]
        rfl
      · rw [if_neg (by simpa using hnone), loadLine, if_neg fun h => hnone h.2, if_pos rfl,
          run_bind]
        rcases (loadSpec .const group (some index) (lineFrom spec source)).run s with ⟨a | a, t⟩
        · rfl
        · exact ih

/-- Loading variables is loading their lines. -/
theorem loadVars_eq : (loadVars group specs).run s =
    (loadLines .var group index specs).run s := by
  induction specs generalizing index s with
  | nil => rfl
  | cons spec rest ih =>
      rw [loadVars, loadLines_cons, loadLine, if_neg (by simp), if_neg (by simp), run_bind]
      rcases (loadSpec .var group none spec).run s with ⟨a | a, t⟩
      · rfl
      · exact ih

/-- **A block of constants** has a number of its own. -/
theorem load_const : (load (.const specs)).run s =
    (loadLines .const s.blocks 0 (constLines none specs)).run { s with blocks := s.blocks + 1 } :=
  loadConsts_eq

/-- **A block of variables** has a number of its own. -/
theorem load_var : (load (.var specs)).run s =
    (loadLines .var s.blocks 0 specs).run { s with blocks := s.blocks + 1 } :=
  loadVars_eq

/-- There is a line for every line. -/
@[simp] theorem length_constLines : (constLines previous specs).length = specs.length := by
  induction specs generalizing previous with
  | nil => rfl
  | cons spec rest ih => rw [constLines, List.length_cons, ih, List.length_cons]

/-- Lines do not depend on what follows. -/
theorem constLines_take :
    constLines previous (specs.take i) = (constLines previous specs).take i := by
  induction specs generalizing previous i with
  | nil => simp [constLines]
  | cons spec rest ih =>
      cases i with
      | zero => rfl
      | succ i => rw [List.take_succ_cons, constLines, constLines, List.take_succ_cons, ih]

/-- Without initializers so far, a line has those of the line before. -/
theorem constLines_of_none (hspec : specs[i]? = some spec)
    (hnone : ∀ m spec, m ≤ i → specs[m]? = some spec → spec.values = []) :
    (constLines (some source) specs)[i]? = some (lineFrom spec source) := by
  induction specs generalizing i with
  | nil => cases hspec
  | cons first rest ih =>
      have hfirst : first.values = [] := hnone 0 first (Nat.zero_le _) rfl
      rw [constLines, if_pos (List.isEmpty_iff.2 hfirst), Option.getD_some]
      cases i with
      | zero =>
          cases hspec
          rfl
      | succ i =>
          exact ih hspec fun m spec hm hget => hnone (m + 1) spec (Nat.succ_le_succ hm) hget

/-- **A line has the initializers of the nearest line that has some.** -/
theorem constLines_of_isSource (hspec : specs[i]? = some spec) (h : IsSource specs i source) :
    (constLines previous specs)[i]? = some (lineFrom spec source) := by
  induction specs generalizing i previous with
  | nil => cases hspec
  | cons first rest ih =>
      obtain ⟨k, hk, hsource, hvalues, hnone⟩ := h
      rw [constLines]
      cases k with
      | zero =>
          cases hsource
          rw [if_neg (by simpa using hvalues)]
          cases i with
          | zero =>
              cases hspec
              rfl
          | succ i =>
              exact constLines_of_none hspec fun m spec hm hget =>
                hnone (m + 1) spec m.succ_pos (Nat.succ_le_succ hm) hget
      | succ k =>
          cases i with
          | zero => exact absurd hk (Nat.not_succ_le_zero k)
          | succ i =>
              refine ih hspec ⟨k, Nat.le_of_succ_le_succ hk, hsource, hvalues, ?_⟩
              exact fun m spec hkm hm hget =>
                hnone (m + 1) spec (Nat.succ_lt_succ hkm) (Nat.succ_le_succ hm) hget

/-- If the first line has initializers, every line has a source. -/
theorem exists_isSource (hfirst : ∀ spec : ValueSpec, specs[0]? = some spec → spec.values ≠ [])
    (hi : i < specs.length) : ∃ source, IsSource specs i source := by
  induction i with
  | zero =>
      refine ⟨specs[0], 0, Nat.le_refl _, List.getElem?_eq_getElem hi,
        hfirst _ (List.getElem?_eq_getElem hi), fun m spec hm hle => ?_⟩
      omega
  | succ i ih =>
      by_cases hnone : specs[i + 1].values = []
      · obtain ⟨source, k, hk, hsource, hvalues, hbetween⟩ := ih (Nat.lt_of_succ_lt hi)
        refine ⟨source, k, Nat.le_succ_of_le hk, hsource, hvalues, fun m spec hkm hm hget => ?_⟩
        rcases Nat.le_succ_iff.1 hm with hm | rfl
        · exact hbetween m spec hkm hm hget
        · rw [List.getElem?_eq_getElem hi] at hget
          cases hget
          exact hnone
      · refine ⟨specs[i + 1], i + 1, Nat.le_refl _, List.getElem?_eq_getElem hi, hnone, ?_⟩
        omega

end Scope

end ScriptCore
