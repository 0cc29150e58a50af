import Mathlib.Data.List.Forall2
import ScriptCore.Proofs.Declaration.Loading
import ScriptCore.Proofs.Scopes.Names

/-!
# Lines of blocks

What loading a line of constants or variables does.  The numbers of its names and initializers have
to fit; then its names are declared under their keys, each with its initializer, or the line is
refused under a key that is bound already.

Main statements: `loadSpec_declared`, `loadSpec_tuple` and `loadSpec_misfit`.
-/

namespace ScriptCore

/-- The declaration of the name at a position of a line, under a key. -/
structure Decl.Declares (d : Decl) (kind : DeclKind) (group : Nat) (iota : Option Nat)
    (line : ValueSpec) (key : Name) (position : Nat) : Prop where
  kind : d.kind = kind
  name : d.name = key
  group : d.group = some group
  iota : d.iota = iota
  valueType : d.valueType = line.type
  value : d.value = line.values[position]?
  boundNames : d.boundNames = [key]

namespace Scope

variable {s s' : Scope} {d : Decl} {name : Name} {names keys : List Name} {kind : DeclKind}
  {group : Nat} {iota : Option Nat} {line : ValueSpec}

/-! ### One declaration -/

/-- The scope with a declaration more. -/
def added (s : Scope) (d : Decl) : Scope :=
  { s with decls := s.decls.push { d with seq := s.decls.size } }

/-- A declaration whose names are not bound is added. -/
theorem insert_of_free (h : ∀ n ∈ d.boundNames, ¬s.Binds n) : s.insert d = .ok (s.added d) := by
  have hnone : (d.boundNames.findSome? fun n => (s.get? n).map fun p => (n, p)) = none := by
    refine List.findSome?_eq_none_iff.2 fun n hn => ?_
    rw [get?_eq_none_iff.2 (h n hn), Option.map_none]
  rw [insert, hnone]
  rfl

/-- A declaration with a bound name is refused under a name that is bound. -/
theorem insert_of_bound (h : ∃ n ∈ d.boundNames, s.Binds n) : ∃ name ∈ d.boundNames,
    ∃ previous, s.get? name = some previous ∧
      s.insert d = .error (.redeclared name d.span previous.span) := by
  cases hfind : d.boundNames.findSome? fun n => (s.get? n).map fun p => (n, p) with
  | none =>
      obtain ⟨n, hn, hbinds⟩ := h
      have hnone := List.findSome?_eq_none_iff.1 hfind n hn
      rw [Option.map_eq_none_iff, get?_eq_none_iff] at hnone
      exact absurd hbinds hnone
  | some found =>
      obtain ⟨n, hn, hmap⟩ := List.exists_of_findSome?_eq_some hfind
      obtain ⟨previous, hget, rfl⟩ := Option.map_eq_some_iff.1 hmap
      exact ⟨n, hn, previous, hget, by rw [insert, hfind]⟩

/-- Adding a declaration whose names are not bound. -/
theorem run_add_of_free (h : ∀ n ∈ d.boundNames, ¬s.Binds n) :
    (add d).run s = (.ok (), s.added d) := by
  rw [add, run_get_bind, insert_of_free h]
  rfl

/-- Adding a declaration with a bound name changes nothing. -/
theorem run_add_of_bound (h : ∃ n ∈ d.boundNames, s.Binds n) : ∃ name ∈ d.boundNames,
    ∃ previous, s.get? name = some previous ∧
      (add d).run s = (.error (.redeclared name d.span previous.span), s) := by
  obtain ⟨name, hname, previous, hget, hinsert⟩ := insert_of_bound h
  refine ⟨name, hname, previous, hget, ?_⟩
  rw [add, run_get_bind, hinsert]
  rfl

/-- Names are replaced by their keys. -/
theorem run_namesOrFresh (s : Scope) (names : List Name) :
    (namesOrFresh names).run s = (.ok (s.keysOf names).1, (s.keysOf names).2) := by
  induction names generalizing s with
  | nil => rfl
  | cons n rest ih =>
      have hfirst : (nameOrFresh n).run s =
          (.ok (if n = blank then s.gensym blank else (n, s)).1,
            (if n = blank then s.gensym blank else (n, s)).2) := by
        rw [nameOrFresh]
        split <;> rfl
      rw [namesOrFresh, run_bind, hfirst, keysOf]
      dsimp only
      rw [run_bind, ih]
      rfl

/-! ### Names that can be declared -/

/-- Names can be declared if the first ones can be, and then the others. -/
theorem admits_append (hbinds : ∀ k ∈ keys, s'.Binds k ↔ s.Binds k ∨ k ∈ names) :
    s.Admits (names ++ keys) ↔ s.Admits names ∧ s'.Admits keys := by
  simp only [Admits, List.nodup_append, List.mem_append]
  constructor
  · rintro ⟨⟨hnames, hkeys, hapart⟩, hfree⟩
    refine ⟨⟨hnames, fun n hn => hfree n (.inl hn)⟩, hkeys, fun k hk => ?_⟩
    rw [hbinds k hk, not_or]
    exact ⟨hfree k (.inr hk), fun hmem => hapart k hmem k hk rfl⟩
  · rintro ⟨⟨hnames, hfree⟩, hkeys, hfree'⟩
    refine ⟨⟨hnames, hkeys, ?_⟩, ?_⟩
    · rintro n hn k hk rfl
      exact hfree' n hk ((hbinds n hk).2 (.inr hn))
    · rintro n (hn | hn)
      · exact hfree n hn
      · exact fun hbound => hfree' n hn ((hbinds n hn).2 (.inl hbound))

/-- Only what is bound matters. -/
theorem admits_congr (hbinds : ∀ k ∈ names, s'.Binds k ↔ s.Binds k) :
    s'.Admits names ↔ s.Admits names :=
  and_congr_right fun _ => forall₂_congr fun k hk => not_congr (hbinds k hk)

/-- What comes of declaring `keys`: there are declarations for them, or one of them is bound already
or given twice, and the attempt is refused under it. -/
inductive Declared (s : Scope) (keys : List Name) (span : Span) (given : List Decl → Prop) :
    Except SortError Unit × Scope → Prop
  | done (t : Scope) (new : List Decl) (admits : s.Admits keys) (blocks : t.blocks = s.blocks)
      (decls : t.decls.toList = s.decls.toList ++ new)
      (bound : new.flatMap Decl.boundNames = keys) (new_given : given new) :
      Declared s keys span given (.ok (), t)
  | refused (t : Scope) (name : Name) (previous : Span) (mem : name ∈ keys)
      (taken : s.Binds name ∨ 2 ≤ keys.count name) :
      Declared s keys span given (.error (.redeclared name span previous), t)

/-- Names cannot be declared if one of them is bound already or given twice. -/
theorem not_admits_of_taken (hmem : name ∈ keys) (htaken : s.Binds name ∨ 2 ≤ keys.count name) :
    ¬s.Admits keys := by
  rintro ⟨hnodup, hfree⟩
  rcases htaken with hbinds | htwice
  · exact hfree name hmem hbinds
  · have honce := List.nodup_iff_count_le_one.1 hnodup name
    omega

/-- What the scope binds with declarations more. -/
theorem binds_of_append {new : List Decl} (h : s'.decls.toList = s.decls.toList ++ new) :
    s'.Binds name ↔ s.Binds name ∨ name ∈ new.flatMap Decl.boundNames := by
  simp only [← mem_bound, bound, h, List.flatMap_append, List.mem_append]

namespace Declared

variable {span : Span} {given given' : List Decl → Prop} {result : Except SortError Unit × Scope}

/-- Nothing to declare. -/
theorem nil (h : given []) : s.Declared [] span given (.ok (), s) :=
  .done s [] ⟨List.nodup_nil, List.forall_mem_nil _⟩ rfl (List.append_nil _).symm rfl h

/-- A weaker property. -/
theorem imp (h : s.Declared keys span given result) (hgiven : ∀ new, given new → given' new) :
    s.Declared keys span given' result := by
  cases h with
  | done t new admits blocks decls bound new_given =>
      exact .done t new admits blocks decls bound (hgiven new new_given)
  | refused t name previous mem taken => exact .refused t name previous mem taken

/-- Only declarations and blocks of the scope matter. -/
theorem of_scope (h : s'.Declared keys span given result) (hdecls : s'.decls = s.decls)
    (hblocks : s'.blocks = s.blocks) : s.Declared keys span given result := by
  have hadmits : s'.Admits keys ↔ s.Admits keys := admits_congr fun _ _ => binds_congr hdecls
  cases h with
  | done t new admits blocks decls bound new_given =>
      exact .done t new (hadmits.1 admits) (blocks.trans hblocks) (hdecls ▸ decls) bound new_given
  | refused t name previous mem taken =>
      exact .refused t name previous mem (taken.imp_left (binds_congr hdecls).1)

/-- Some names and then others. -/
theorem bind {step : Load Unit} {next : Unit → Load Unit}
    (h : s.Declared names span given (step.run s))
    (hnext : ∀ t : Scope, t.Declared keys span given' ((next ()).run t)) :
    s.Declared (names ++ keys) span
      (fun new => ∃ first rest, new = first ++ rest ∧ given first ∧ given' rest)
      ((step >>= next).run s) := by
  rw [run_bind]
  generalize step.run s = first at h
  cases h with
  | done t new admits blocks decls bound new_given =>
      have hbinds : ∀ k, t.Binds k ↔ s.Binds k ∨ k ∈ names := fun k => by
        rw [binds_of_append decls, bound]
      have hadmits : s.Admits (names ++ keys) ↔ s.Admits names ∧ t.Admits keys :=
        admits_append fun k _ => hbinds k
      have hlater := hnext t
      dsimp only
      generalize (next ()).run t = second at hlater
      cases hlater with
      | done t' new' admits' blocks' decls' bound' new_given' =>
          refine .done t' (new ++ new') (hadmits.2 ⟨admits, admits'⟩)
            (blocks'.trans blocks) ?_ ?_ ⟨new, new', rfl, new_given, new_given'⟩
          · rw [decls', decls, List.append_assoc]
          · rw [List.flatMap_append, bound, bound']
      | refused t' name previous mem taken =>
          refine .refused t' name previous (List.mem_append_right _ mem) ?_
          rw [List.count_append]
          rcases taken with hbound | htwice
          · refine ((hbinds name).1 hbound).imp_right fun hnames => ?_
            have hfirst := List.count_pos_iff.2 hnames
            have hsecond := List.count_pos_iff.2 mem
            omega
          · exact .inr (by omega)
  | refused t name previous mem taken =>
      refine .refused t name previous (List.mem_append_left _ mem)
        (taken.imp_right fun htwice => ?_)
      rw [List.count_append]
      omega

end Declared

/-- One declaration, whose names are different. -/
theorem add_declared (s : Scope) (hnodup : d.boundNames.Nodup) :
    s.Declared d.boundNames d.span (fun new => ∃ seq, new = [{ d with seq }]) ((add d).run s) := by
  by_cases hfree : ∀ n ∈ d.boundNames, ¬s.Binds n
  · rw [run_add_of_free hfree]
    exact .done _ [{ d with seq := s.decls.size }] ⟨hnodup, hfree⟩ rfl (Array.toList_push ..)
      (List.append_nil _) ⟨_, rfl⟩
  · obtain ⟨name, hname, previous, hget, hrun⟩ := run_add_of_bound (by simpa using hfree)
    rw [hrun]
    obtain ⟨hmem, hbound⟩ := get?_eq_some hget
    exact .refused s name previous.span hname (.inl ⟨previous, hmem, hbound⟩)

/-! ### One line -/

/-- A variable line with one initializer for several names. -/
def IsTuple (kind : DeclKind) (line : ValueSpec) : Prop :=
  kind = .var ∧ line.values.length = 1 ∧ 2 ≤ line.names.length

/-- A line without initializers, or with one for each name, or a tuple. -/
def Fits (kind : DeclKind) (line : ValueSpec) : Prop :=
  line.values = [] ∨ line.values.length = line.names.length ∨ IsTuple kind line

/-- A line whose numbers do not fit is refused for them. -/
theorem loadSpec_misfit (s : Scope) (h : ¬Fits kind line) :
    (loadSpec kind group iota line).run s =
      (.error (.valueCount line.names.length line.values.length line.span),
        (s.keysOf line.names).2) := by
  have hlength := s.length_keysOf line.names
  simp only [Fits, IsTuple, not_or, not_and] at h
  obtain ⟨hvalues, hcount, htuple⟩ := h
  rw [loadSpec, run_bind, run_namesOrFresh]
  dsimp only
  generalize (s.keysOf line.names).1 = keys at hlength ⊢
  rw [if_pos ⟨hvalues, by rwa [hlength]⟩, ← hlength]
  split
  · next first rest heq =>
    rw [heq, ← hlength] at hcount htuple
    rw [List.length_singleton, List.length_cons] at hcount htuple
    exact absurd (htuple rfl rfl) (by omega)
  · rfl

/-- The names of a line are declared one by one. -/
theorem addGrouped_declared (kind : DeclKind) (group : Nat) (iota : Option Nat) (line : ValueSpec)
    (keys : List Name) (index : Nat) (s : Scope) :
    s.Declared keys line.span (List.Forall₂ (fun p d =>
      d.Declares kind group iota line p.1 p.2) (keys.zipIdx index))
      ((addGrouped kind group iota line index keys).run s) := by
  induction keys generalizing index s with
  | nil => exact .nil .nil
  | cons key rest ih =>
      have hfirst := add_declared (d := ⟨kind, key, .grouped line index, line.span, iota,
        some group, 0⟩) s (List.nodup_singleton key)
      refine (hfirst.bind fun t => ih (index + 1) t).imp ?_
      rintro _ ⟨_, rest, rfl, ⟨seq, rfl⟩, hrest⟩
      exact .cons ⟨rfl, rfl, rfl, rfl, rfl, rfl, rfl⟩ hrest

/-- **A line with an initializer for each name, or with none**, declares its names one by one. -/
theorem loadSpec_declared (s : Scope) (h : Fits kind line) (htuple : ¬IsTuple kind line) :
    s.Declared (s.keysOf line.names).1 line.span (List.Forall₂ (fun p d =>
      d.Declares kind group iota line p.1 p.2) (s.keysOf line.names).1.zipIdx)
      ((loadSpec kind group iota line).run s) := by
  obtain ⟨hdecls, hblocks, -⟩ := s.keysOf_scope line.names
  have hlength := s.length_keysOf line.names
  rw [loadSpec, run_bind, run_namesOrFresh]
  dsimp only
  refine Declared.of_scope ?_ hdecls hblocks
  generalize (s.keysOf line.names).1 = keys at hlength ⊢
  have heven : ¬(line.values ≠ [] ∧ line.values.length ≠ keys.length) := by
    rintro ⟨hvalues, hcount⟩
    rw [hlength] at hcount
    exact h.elim hvalues fun h => h.elim hcount htuple
  rw [if_neg heven]
  split
  · next _ key =>
    refine (add_declared (d := ⟨kind, key, .value _, line.span, iota, some group, 0⟩) _
      (List.nodup_singleton key)).imp ?_
    rintro _ ⟨seq, rfl⟩
    exact .cons ⟨rfl, rfl, rfl, rfl, rfl, List.head?_eq_getElem?, rfl⟩ .nil
  · refine (addGrouped_declared kind group iota (.mk keys line.type line.values line.span)
      keys 0 (s.keysOf line.names).2).imp fun new hnew => hnew.imp ?_
    rintro ⟨key, position⟩ d ⟨hkind, hname, hgroup, hiota, htype, hvalue, hbound⟩
    exact ⟨hkind, hname, hgroup, hiota, htype, hvalue, hbound⟩

/-- **A line with one initializer for several names** declares them together, and does not notice
when one of them is written twice. -/
theorem loadSpec_tuple (s : Scope) (h : IsTuple kind line)
    (hnodup : (s.keysOf line.names).1.Nodup) :
    s.Declared (s.keysOf line.names).1 line.span (fun new => ∃ d, new = [d] ∧ d.kind = kind ∧
      d.group = some group ∧ d.iota = iota ∧ d.valueType = line.type)
      ((loadSpec kind group iota line).run s) := by
  obtain ⟨hdecls, hblocks, -⟩ := s.keysOf_scope line.names
  have hlength := s.length_keysOf line.names
  obtain ⟨rfl, hone, htwo⟩ := h
  rw [loadSpec, run_bind, run_namesOrFresh]
  dsimp only
  refine Declared.of_scope ?_ hdecls hblocks
  generalize (s.keysOf line.names).1 = keys at hlength hnodup ⊢
  obtain ⟨value, hvalue⟩ := List.length_eq_one_iff.1 hone
  obtain ⟨first, rest, rfl⟩ := List.exists_cons_of_length_pos (l := keys) (by omega)
  rw [if_pos ⟨by simp [hvalue], by omega⟩, hvalue]
  refine (add_declared (d := ⟨.var, first, .tuple (.mk (first :: rest) line.type [value] line.span),
    line.span, iota, some group, 0⟩) _ hnodup).imp ?_
  rintro _ ⟨seq, rfl⟩
  exact ⟨_, rfl, rfl, rfl, rfl, rfl⟩

end Scope

end ScriptCore
