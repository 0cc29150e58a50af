import ScriptCore.Proofs.Types.Lockstep

/-!
# What an operation on types can do

An operation that is given types which the table holds either changes nothing, or builds one type,
or declares, defines or extends one named type (`TypeOp.Step`).  Every invariant of tables is a case
analysis of this list, carried through a run of operations by `TypeOp.FitsAll.invariant`.

Main statements: `TypeOp.outcome_step` and `TypeOp.FitsAll.invariant`.
-/

namespace ScriptCore

namespace TypeTable

instance (t : TypeTable) (r : TypeRef) : Decidable (t.Held r) :=
  inferInstanceAs (Decidable (_ = true))

/-- The table with one more named type that stands for nothing yet. -/
def declare (t : TypeTable) : TypeTable :=
  { t with named := t.named ++ [⟨none, none, []⟩] }

/-- The table with the entry of one named type changed. -/
def revise (t : TypeTable) (id : Nat) (f : Definition → Definition) : TypeTable :=
  { t with named := t.named.modify id f }

/-- A type is held if an entry is for it. -/
theorem held_iff {t : TypeTable} {r : TypeRef} : t.Held r ↔ ∃ i ∈ t.instances, i.ref = r := by
  rw [Held, rtype?, Option.isSome_map, instance?, List.find?_isSome]
  simp only [beq_iff_eq]

/-- The entry of a type is an entry for it. -/
theorem instance?_mem {t : TypeTable} {r : TypeRef} {i : Instance} (h : t.instance? r = some i) :
    i ∈ t.instances ∧ i.ref = r :=
  ⟨List.mem_of_find?_eq_some h, by simpa using List.find?_some h⟩

/-- An entry is added only for a type that is not held. -/
theorem mem_intern {t : TypeTable} {i j : Instance} (h : j ∈ (t.intern i).instances) :
    j ∈ t.instances ∨ ¬t.Held i.ref ∧ j = i := by
  rw [intern] at h
  by_cases hi : (t.instance? i.ref).isSome = true
  · rw [if_pos hi] at h
    exact .inl h
  · rw [if_neg hi] at h
    rcases List.mem_append.1 h with h | h
    · exact .inl h
    · refine .inr ⟨?_, List.mem_singleton.1 h⟩
      rwa [Held, rtype?, Option.isSome_map]

/-- A type that is held after another was built is that one or was held before. -/
theorem held_intern_iff {t : TypeTable} {i : Instance} {r : TypeRef} :
    (t.intern i).Held r ↔ t.Held r ∨ r = i.ref := by
  constructor
  · intro h
    obtain ⟨j, hj, rfl⟩ := held_iff.1 h
    rcases mem_intern hj with hj | ⟨-, rfl⟩
    · exact .inl (held_iff.2 ⟨j, hj, rfl⟩)
    · exact .inr rfl
  · rintro (h | rfl)
    · exact h.intern i
    · exact t.intern_held i

/-- Building a type literal does not change the named types. -/
theorem intern_named (t : TypeTable) (i : Instance) : (t.intern i).named = t.named := by
  rw [intern]
  split <;> rfl

end TypeTable

namespace TypeOp

/-- The types that an operation is given. -/
def arguments : TypeOp → List TypeRef
  | basic .. | named .. => []
  | slice _ elem | array _ _ elem | pointer _ elem => [elem]
  | map _ key value => [key, value]
  | struct _ fields => fields.map FieldOf.type
  | interface _ methods => methods.map MethodOf.type
  | func _ recv ins outs _ | owned _ recv ins outs _ => recv.toList ++ ins ++ outs
  | setUnderlying type underlying => [type, underlying]
  | addMethod type _ method => [type, method]

/-- An operation is given types that the table holds. -/
def Fits (t : TypeTable) (op : TypeOp) : Prop :=
  ∀ r ∈ op.arguments, t.Held r

instance (t : TypeTable) (op : TypeOp) : Decidable (op.Fits t) :=
  inferInstanceAs (Decidable (∀ r ∈ op.arguments, t.Held r))

/-- Operations one after the other, each of which is given types that are held by then. -/
def FitsAll : List TypeOp → TypeTable → Prop
  | [], _ => True
  | op :: ops, t => op.Fits t ∧ FitsAll ops (op.outcome t).2

instance FitsAll.decidable : (ops : List TypeOp) → (t : TypeTable) → Decidable (FitsAll ops t)
  | [], _ => inferInstanceAs (Decidable True)
  | op :: ops, t =>
    have := FitsAll.decidable ops (op.outcome t).2
    inferInstanceAs (Decidable (_ ∧ _))

/-- The table after operations that start without types. -/
abbrev tableAfter (ops : List TypeOp) : TypeTable :=
  (performAll ops .empty).2

/-- The entry that an operation makes for the type literal it builds. -/
def product? (t : TypeTable) : TypeOp → Option Instance
  | basic home kind =>
    let kind := if kind.isBasic then kind else .invalid
    some ⟨⟨home, .basic kind⟩, .basic kind, true, []⟩
  | slice home elem => some ⟨⟨home, .slice elem.type⟩, .slice (t.rtype elem), false, []⟩
  | array home len elem =>
    some ⟨⟨home, .array len elem.type⟩, .array len (t.rtype elem), t.isComparable elem, [elem.home]⟩
  | map home key value =>
    some ⟨⟨home, .map key.type value.type⟩, .map (t.rtype key) (t.rtype value), false, []⟩
  | pointer home elem => some ⟨⟨home, .pointer elem.type⟩, .pointer (t.rtype elem), true, []⟩
  | struct home fields =>
    some ⟨⟨home, .struct (fields.map fun f => ⟨f.name, f.type.type, f.embedded⟩)⟩,
      .struct (fields.map fun f => (f.name, t.rtype f.type)),
      fields.all fun f => t.isComparable f.type, fields.map fun f => f.type.home⟩
  | interface home methods =>
    let sorted := methods.mergeSort fun a b => decide (a.name ≤ b.name)
    some ⟨⟨home, .interface (sorted.map fun m => ⟨m.name, m.type.type⟩)⟩,
      .interface (sorted.map fun m => (m.name, t.rtype m.type)), true, []⟩
  | func home recv ins outs variadic => some (signature home recv ins outs variadic)
  | owned default recv ins outs variadic =>
    some (signature (Universe.owner default recv ins outs) recv ins outs variadic)
  | named .. | setUnderlying .. | addMethod .. => none
where
  /-- The entry of a function type. -/
  signature (home : Nat) (recv : Option TypeRef) (ins outs : List TypeRef) (variadic : Bool) :
      Instance :=
    ⟨⟨home, .func (recv.map TypeRef.type) (ins.map TypeRef.type) (outs.map TypeRef.type) variadic⟩,
      .func ((recv.toList ++ ins).map t.rtype) (outs.map t.rtype) variadic, false, []⟩

/-- What an operation can do to a table. -/
inductive Step (t : TypeTable) : TypeOp → TypeTable → Prop where
  | refused (op : TypeOp) : Step t op t
  | built {op : TypeOp} {i : Instance} (hentry : op.product? t = some i)
      (hkey : ∀ home key value, op = .map home key value → t.isComparable key = true) :
      Step t op (t.intern i)
  | declared (home : Nat) (name : Name) (package : Option String) :
      Step t (.named home name package)
        (t.declare.intern ⟨⟨home, .named t.named.length name package⟩,
          .named t.named.length name, true, []⟩)
  | defined (home id : Nat) (name : Name) (package : Option String) (u : TypeRef)
      (hopen : t.definition? id = none) (hliteral : (t.resolve u).type.isNamed = false) :
      Step t (.setUnderlying ⟨home, .named id name package⟩ u)
        (t.revise id fun d => d.define (t.resolve u) (t.rtype (t.resolve u)))
  | extended (home id : Nat) (owner name : Name) (package : Option String) (m : TypeRef) :
      Step t (.addMethod ⟨home, .named id owner package⟩ name m)
        (t.revise id fun d => { d with methods := d.methods.concat ⟨name, m.type⟩ })

end TypeOp

/-- What a step leaves behind, whether it fails or not, satisfies `P`. -/
def Build.Leaves {α : Type} (t : TypeTable) (step : Build α) (P : TypeTable → Prop) : Prop :=
  P (step.run.run t).2

namespace Build.Leaves

variable {α β : Type} {t : TypeTable} {P : TypeTable → Prop}

/-- Failing leaves the table alone. -/
theorem throw {e : TypeError} (h : P t) : Leaves t (throw e : Build α) P :=
  h

/-- Reading the table first. -/
theorem get {step : TypeTable → Build α} (h : Leaves t (step t) P) :
    Leaves t (do step (← get)) P :=
  h

/-- A step whose result is turned into another. -/
theorem map {step : Build α} (f : α → β) (h : Leaves t step P) : Leaves t (f <$> step) P := by
  simp only [Leaves, ExceptT.run_map, StateT.run_map] at h ⊢
  exact h

/-- One of two steps. -/
theorem ite {c : Prop} [Decidable c] {yes no : Build α} (hyes : c → Leaves t yes P)
    (hno : ¬c → Leaves t no P) : Leaves t (if c then yes else no) P := by
  by_cases h : c
  · rw [if_pos h]
    exact hyes h
  · rw [if_neg h]
    exact hno h

/-- Building a type. -/
theorem intern {home : Nat} {ty : Ty} {d : Descriptor} {comparable : Bool} {partHomes : List Nat}
    (h : P (t.intern ⟨⟨home, ty⟩, d, comparable, partHomes⟩)) :
    Leaves t (Universe.intern home ty d comparable partHomes) P :=
  h

end Build.Leaves

namespace TypeOp

/-- Building a function type. -/
theorem func_leaves {t : TypeTable} {P : TypeTable → Prop} {recv : Option TypeRef}
    {ins outs : List TypeRef} {variadic : Bool} (home : Nat) (hrefused : P t)
    (hbuilt : P (t.intern (product?.signature t home recv ins outs variadic))) :
    Build.Leaves t (Universe.func home recv ins outs variadic) P :=
  .get (.ite (fun _ => .throw hrefused) fun _ => .intern hbuilt)

/-- Building a struct type. -/
theorem struct_leaves (t : TypeTable) (home : Nat) (fields : List (FieldOf TypeRef)) :
    Build.Leaves t (Universe.struct home fields) (Step t (.struct home fields)) := by
  rw [Universe.struct]
  split
  · exact .throw (.refused _)
  · exact .get (.intern (.built rfl (by intro _ _ _ h; cases h)))

/-- Building an interface type. -/
theorem interface_leaves (t : TypeTable) (home : Nat) (methods : List (MethodOf TypeRef)) :
    Build.Leaves t (Universe.interface home methods) (Step t (.interface home methods)) := by
  refine .get ?_
  split
  · exact .throw (.refused _)
  · dsimp only
    split
    · exact .throw (.refused _)
    · exact .intern (.built rfl fun _ _ _ h => nomatch h)

/-- Defining a named type. -/
theorem setUnderlying_leaves (t : TypeTable) (r u : TypeRef) :
    Build.Leaves t (Universe.setUnderlying r u) (Step t (.setUnderlying r u)) := by
  obtain ⟨home, ty⟩ := r
  cases ty with
  | named id name package =>
      refine .get (.ite (fun _ => .throw (.refused _)) fun hrec => ?_)
      refine .ite (fun _ => .throw (.refused _)) fun hopen => ?_
      have hliteral : (t.resolve u).type.isNamed = false :=
        Bool.eq_false_iff.2 fun hnamed => hrec (by rw [hnamed, Bool.true_or])
      have hnone : t.definition? id = none := by simpa using hopen
      exact .defined home id name package u hnone hliteral
  | _ => exact .throw (.refused _)

/-- Declaring a method. -/
theorem addMethod_leaves (t : TypeTable) (r : TypeRef) (name : Name) (m : TypeRef) :
    Build.Leaves t (Universe.addMethod r name m) (Step t (.addMethod r name m)) := by
  obtain ⟨home, ty⟩ := r
  cases ty with
  | named id owner package =>
      refine .get (.ite (fun _ => .throw (.refused _)) fun _ => ?_)
      refine .ite (fun _ => .throw (.refused _)) fun _ => ?_
      exact .extended home id owner name package m
  | _ => exact .throw (.refused _)

/-- An operation leaves behind one of the listed tables. -/
theorem perform_leaves (t : TypeTable) (op : TypeOp) : Build.Leaves t op.perform (Step t op) := by
  cases op with
  | map home key value =>
      refine .map _ (.get (.ite (fun hkey => .intern (.built rfl ?_)) fun _ => .throw (.refused _)))
      rintro _ _ _ ⟨⟩
      exact hkey
  | struct home fields => exact .map _ (struct_leaves t home fields)
  | interface home methods => exact .map _ (interface_leaves t home methods)
  | func home recv ins outs variadic =>
      exact .map _ (func_leaves home (.refused _) (.built rfl fun _ _ _ h => nomatch h))
  | owned default recv ins outs variadic =>
      exact .map _ (func_leaves _ (.refused _) (.built rfl fun _ _ _ h => nomatch h))
  | named home name package => exact .map _ (.declared home name package)
  | setUnderlying type underlying => exact .map _ (setUnderlying_leaves t type underlying)
  | addMethod type name method => exact .map _ (addMethod_leaves t type name method)
  | _ => exact .map _ (.built rfl fun _ _ _ h => nomatch h)

/-- An operation changes nothing, builds one type, or changes one named type. -/
theorem outcome_step (t : TypeTable) (op : TypeOp) : Step t op (op.outcome t).2 := by
  have hleaves := perform_leaves t op
  rw [Build.Leaves] at hleaves
  rw [outcome]
  cases hrun : op.perform.run.run t with
  | mk r t' =>
      rw [hrun] at hleaves
      cases r with
      | ok r => exact hleaves
      | error e => exact hleaves

/-- What holds of a table and is kept by every operation on types that are held holds after any run
of such operations. -/
theorem FitsAll.invariant {P : TypeTable → Prop}
    (hstep : ∀ t t' op, Fits t op → Step t op t' → P t → P t') {ops : List TypeOp} {t : TypeTable}
    (hops : FitsAll ops t) (ht : P t) : P (performAll ops t).2 := by
  induction ops generalizing t with
  | nil => exact ht
  | cons op ops ih => exact ih hops.2 (hstep t _ op hops.1 (outcome_step t op) ht)

end TypeOp

end ScriptCore
