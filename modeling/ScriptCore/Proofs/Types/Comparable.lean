import Mathlib.Data.Nat.Find
import Mathlib.Logic.Relation
import ScriptCore.Proofs.Types.Steps

/-!
# Which types can be compared

The values of a type can be compared if none of the types inside them is a slice, a map or a
function (`TypeTable.Incomparable` is the opposite).  A table answers this question from marks that
array and struct types get when they are built, and a named type that stands for nothing then counts
as comparable.

1. A type that is not marked comparable does hold a slice, a map or a function.  This is an
   invariant of tables (`TypeTable.Marked`): what a type holds inside is only ever added to.
2. The converse depends on the order of operations.  It is right if no array or struct type was
   built while a named type in it, which cannot be compared in the end, still stood for nothing
   (`TypeOp.Timely`).  The proof goes to the moment at which a type was built
   (`TypeOp.FitsAll.built`), and from there up the path from a type to the slice, map or function
   inside.
3. A struct type that is built too early stays comparable and can even be the key of a map
   (`TypeOp.early_comparable`).

Main statement: `TypeOp.performAll_comparable`.
-/

namespace ScriptCore

/-- Slices, maps and functions, whose values cannot be compared. -/
def Ty.lacksEquality : Ty → Bool
  | .slice _ | .map _ _ | .func .. => true
  | _ => false

/-- The types of the values stored inside the values of a type literal. -/
def Ty.inner : Ty → List Ty
  | .array _ e => [e]
  | .struct fs => fs.map FieldOf.type
  | _ => []

/-- Array and struct types. -/
def Ty.isAggregate : Ty → Bool
  | .array _ _ | .struct _ => true
  | _ => false

namespace TypeTable

/-- The types of the values stored inside the values of a type; those of a named type are the
values of what it stands for. -/
def parts (t : TypeTable) : Ty → List Ty
  | .named id _ _ => ((t.definition? id).map TypeRef.type).toList
  | ty => ty.inner

/-- A named type has the type that it stands for as its part. -/
theorem mem_parts_named {t : TypeTable} {id : Nat} {name : Name} {package : Option String}
    {ty : Ty} :
    ty ∈ t.parts (.named id name package) ↔ ∃ u, t.definition? id = some u ∧ u.type = ty := by
  rw [parts, Option.mem_toList, Option.map_eq_some_iff]

/-- A type literal has the parts that are written in it. -/
theorem parts_of_not_named {t : TypeTable} {ty : Ty} (h : ty.isNamed = false) :
    t.parts ty = ty.inner := by
  cases ty <;> first | rfl | cases h

/-- The second type is the first or a part of it, through any number of parts. -/
def Component (t : TypeTable) : Ty → Ty → Prop :=
  Relation.ReflTransGen fun a b => b ∈ t.parts a

/-- The values of a type hold a slice, a map or a function. -/
def Incomparable (t : TypeTable) (ty : Ty) : Prop :=
  ∃ c, t.Component ty c ∧ c.lacksEquality = true

/-- A named type stands for something; every other type stands for itself. -/
def Defined (t : TypeTable) (ty : Ty) : Prop :=
  (t.underlying ty).isNamed = false

instance (t : TypeTable) (ty : Ty) : Decidable (t.Defined ty) :=
  inferInstanceAs (Decidable (_ = false))

/-- A list of types that holds the parts of its members holds their components. -/
theorem Component.mem {t : TypeTable} {tys : List Ty} {a c : Ty}
    (hclosed : ∀ x ∈ tys, ∀ y ∈ t.parts x, y ∈ tys) (ha : a ∈ tys) (h : t.Component a c) :
    c ∈ tys := by
  induction h with
  | refl => exact ha
  | tail _ hpart ih => exact hclosed _ ih _ hpart

/-- A type with a part that cannot be compared cannot be compared. -/
theorem Incomparable.of_part {t : TypeTable} {a b : Ty} (h : t.Incomparable b)
    (hb : b ∈ t.parts a) : t.Incomparable a := by
  obtain ⟨c, hc, hlacks⟩ := h
  exact ⟨c, .head hb hc, hlacks⟩

/-! ### Growing tables -/

/-- What the first table holds and defines the second holds and defines in the same way. -/
structure Grows (t t' : TypeTable) : Prop where
  kept : ∀ r i, t.instance? r = some i → t'.instance? r = some i
  defined : ∀ id u, t.definition? id = some u → t'.definition? id = some u

namespace Grows

variable {t t' t'' : TypeTable}

/-- A table grows into itself. -/
theorem refl (t : TypeTable) : t.Grows t :=
  ⟨fun _ _ h => h, fun _ _ h => h⟩

/-- Growing twice. -/
theorem trans (h : t.Grows t') (h' : t'.Grows t'') : t.Grows t'' :=
  ⟨fun r i hi => h'.kept r i (h.kept r i hi), fun id u hu => h'.defined id u (h.defined id u hu)⟩

/-- Building a type. -/
theorem intern (t : TypeTable) (i : Instance) : t.Grows (t.intern i) := by
  constructor
  · intro r j hj
    rw [TypeTable.intern]
    split
    · exact hj
    · rw [instance?, List.find?_append, ← instance?, hj, Option.some_or]
  · intro id u hu
    rwa [definition?, intern_named]

/-- Declaring a named type. -/
theorem declare (t : TypeTable) : t.Grows t.declare := by
  refine ⟨fun _ _ h => h, fun id u hu => ?_⟩
  obtain ⟨d, hd, hu⟩ := Option.bind_eq_some_iff.1 hu
  have hlt := (List.getElem?_eq_some_iff.1 hd).1
  rw [definition?, TypeTable.declare, List.getElem?_append_left hlt, hd]
  exact hu

/-- Changing the entry of a named type without touching what it stands for. -/
theorem revise (t : TypeTable) (id : Nat) {f : Definition → Definition}
    (hf : ∀ d u, d.underlying = some u → (f d).underlying = some u) : t.Grows (t.revise id f) := by
  refine ⟨fun _ _ h => h, fun id' u hu => ?_⟩
  obtain ⟨d, hd, hu⟩ := Option.bind_eq_some_iff.1 hu
  rw [definition?, TypeTable.revise, List.getElem?_modify, hd]
  by_cases hid : id = id'
  · simp [hid, hf d u hu]
  · simp [hid, hu]

/-- Every operation lets the table grow. -/
theorem step {op : TypeOp} (h : TypeOp.Step t op t') : t.Grows t' := by
  cases h with
  | refused => exact refl t
  | built => exact intern t _
  | declared => exact (declare t).trans (intern _ _)
  | defined =>
      refine revise t _ fun d u hu => ?_
      rw [Definition.define, hu, Option.some_or]
  | extended => exact revise t _ fun _ _ hu => hu

/-- So do operations one after the other. -/
theorem performAll (ops : List TypeOp) (t : TypeTable) :
    t.Grows (TypeOp.performAll ops t).2 := by
  induction ops generalizing t with
  | nil => exact refl t
  | cons op ops ih => exact (step (TypeOp.outcome_step t op)).trans (ih _)

/-- What is held stays held. -/
theorem held (h : t.Grows t') {r : TypeRef} (hr : t.Held r) : t'.Held r := by
  rw [Held, rtype?, Option.isSome_map] at hr ⊢
  obtain ⟨i, hi⟩ := Option.isSome_iff_exists.1 hr
  rw [h.kept r i hi]
  rfl

/-- Parts stay parts. -/
theorem parts (h : t.Grows t') {a b : Ty} (hb : b ∈ t.parts a) : b ∈ t'.parts a := by
  cases a with
  | named id name package =>
      obtain ⟨u, hu, rfl⟩ := mem_parts_named.1 hb
      exact mem_parts_named.2 ⟨u, h.defined id u hu, rfl⟩
  | _ => exact hb

/-- A type that cannot be compared stays so. -/
theorem incomparable (h : t.Grows t') {ty : Ty} (hty : t.Incomparable ty) :
    t'.Incomparable ty := by
  obtain ⟨c, hc, hlacks⟩ := hty
  exact ⟨c, Relation.ReflTransGen.mono (fun _ _ => h.parts) _ _ hc, hlacks⟩

/-- The mark of a type literal that is held does not change. -/
theorem isLiteralComparable (h : t.Grows t') {r : TypeRef} (hr : t.Held r) :
    t'.isLiteralComparable r = t.isLiteralComparable r := by
  rw [Held, rtype?, Option.isSome_map] at hr
  obtain ⟨i, hi⟩ := Option.isSome_iff_exists.1 hr
  rw [TypeTable.isLiteralComparable, TypeTable.isLiteralComparable, hi, h.kept r i hi]

end Grows

/-! ### Marks -/

/-- Type literals other than arrays and structs can be compared unless they are slices, maps or
functions. -/
theorem isLiteralComparable_of_not_aggregate {t : TypeTable} {r : TypeRef}
    (hr : r.type.isAggregate = false) (hnamed : r.type.isNamed = false) :
    t.isLiteralComparable r = !r.type.lacksEquality := by
  obtain ⟨home, ty⟩ := r
  cases ty <;> first | rfl | exact absurd hr Bool.noConfusion | exact absurd hnamed Bool.noConfusion

/-- Array and struct types can be compared if they are marked so. -/
theorem isLiteralComparable_of_aggregate {t : TypeTable} {r : TypeRef} {i : Instance}
    (hr : r.type.isAggregate = true) (hi : t.instance? r = some i) :
    t.isLiteralComparable r = i.comparable := by
  obtain ⟨home, ty⟩ := r
  cases ty with
  | array | struct => rw [isLiteralComparable, hi, Option.any_some]
  | _ => cases hr

/-- A type literal that was built can be compared if it is marked so. -/
theorem isComparable_of_not_named {t : TypeTable} {r : TypeRef} (hr : t.Held r)
    (h : r.type.isNamed = false) : t.isComparable r = t.isLiteralComparable r := by
  obtain ⟨home, ty⟩ := r
  rw [Held, rtype?, Option.isSome_map] at hr
  obtain ⟨i, hi⟩ := Option.isSome_iff_exists.1 hr
  cases ty with
  | array | struct => rw [isComparable, comparableIn, isLiteralComparable, hi, Option.any_some]
  | named => cases h
  | _ => rw [isComparable, comparableIn, isLiteralComparable]

/-- A named type can be compared unless it stands for a literal that cannot. -/
theorem isComparable_named (t : TypeTable) (home id : Nat) (name : Name)
    (package : Option String) :
    t.isComparable ⟨home, .named id name package⟩ =
      (t.definition? id).all t.isLiteralComparable := by
  rw [isComparable, comparableIn]

/-- Building a type literal does not change what types stand for. -/
theorem underlying_intern (t : TypeTable) (i : Instance) (ty : Ty) :
    (t.intern i).underlying ty = t.underlying ty := by
  cases ty <;> simp only [underlying, definition?, intern_named]

/-- A type that was not held before has the entry it was built with. -/
theorem instance?_intern_self {t : TypeTable} {i : Instance} (h : ¬t.Held i.ref) :
    (t.intern i).instance? i.ref = some i := by
  rw [Held, rtype?, Option.isSome_map] at h
  rw [intern, if_neg h, instance?, List.find?_append, ← instance?,
    Option.not_isSome_iff_eq_none.1 h]
  simp

end TypeTable

/-- The mark of an array or struct type is made from the types that the operation was given. -/
theorem TypeOp.mark_of_product? {t : TypeTable} {op : TypeOp} {i : Instance}
    (hi : op.product? t = some i) (hagg : i.ref.type.isAggregate = true) :
    ∃ rs : List TypeRef, (∀ r ∈ rs, r ∈ op.arguments) ∧ rs.map TypeRef.type = i.ref.type.inner ∧
      i.comparable = rs.all t.isComparable := by
  cases op with
  | array home len elem =>
      cases hi
      exact ⟨[elem], fun _ h => h, rfl, (Bool.and_true _).symm⟩
  | struct home fields =>
      cases hi
      refine ⟨fields.map FieldOf.type, fun _ h => h, ?_, ?_⟩
      · simp only [Ty.inner, List.map_map, Function.comp_def]
      · simp only [List.all_map, Function.comp_def]
  | _ => first | cases hi; done | (cases hi; cases hagg)

namespace TypeTable

/-- What named types stand for is held and not named, and a type literal that is not marked
comparable does hold a slice, a map or a function. -/
structure Marked (t : TypeTable) : Prop where
  held : ∀ id u, t.definition? id = some u → t.Held u ∧ u.type.isNamed = false
  marked : ∀ r, t.Held r → r.type.isNamed = false → t.isLiteralComparable r = false →
    t.Incomparable r.type

namespace Marked

variable {t t' : TypeTable}

/-- A type that counts as not comparable holds a slice, a map or a function. -/
theorem incomparable (h : t.Marked) {r : TypeRef} (hr : t.Held r)
    (hno : t.isComparable r = false) : t.Incomparable r.type := by
  by_cases hnamed : r.type.isNamed = true
  · obtain ⟨home, ty⟩ := r
    cases ty with
    | named id name package =>
        rw [isComparable_named, Option.all_eq_false] at hno
        obtain ⟨u, hu, hno⟩ := hno
        obtain ⟨hheld, hliteral⟩ := h.held id u hu
        have hpart : u.type ∈ t.parts (.named id name package) := by
          rw [parts, hu]
          exact List.mem_singleton.2 rfl
        exact (h.marked u hheld hliteral (by simpa using hno)).of_part hpart
    | _ => cases hnamed
  · have hliteral := Bool.eq_false_iff.2 hnamed
    exact h.marked r hr hliteral (isComparable_of_not_named hr hliteral ▸ hno)

/-- The empty table. -/
theorem empty : TypeTable.empty.Marked :=
  ⟨fun id u hu => by simp [TypeTable.empty, definition?] at hu, fun r hr => by cases hr⟩

/-- Building a type literal. -/
theorem built (h : t.Marked) {op : TypeOp} {i : Instance} (hfits : op.Fits t)
    (hi : op.product? t = some i) : (t.intern i).Marked := by
  have hgrows := Grows.intern t i
  refine ⟨fun id u hu => ?_, fun r hr hliteral hno => ?_⟩
  · rw [definition?, intern_named] at hu
    obtain ⟨hheld, hnamed⟩ := h.held id u hu
    exact ⟨hgrows.held hheld, hnamed⟩
  · by_cases hbefore : t.Held r
    · rw [hgrows.isLiteralComparable hbefore] at hno
      exact hgrows.incomparable (h.marked r hbefore hliteral hno)
    · obtain rfl := (held_intern_iff.1 hr).resolve_left hbefore
      by_cases hagg : i.ref.type.isAggregate = true
      · obtain ⟨rs, hrs, hinner, hmark⟩ := TypeOp.mark_of_product? hi hagg
        rw [isLiteralComparable_of_aggregate hagg (instance?_intern_self hbefore), hmark,
          List.all_eq_false] at hno
        obtain ⟨s, hs, hno⟩ := hno
        have hpart := h.incomparable (hfits s (hrs s hs)) (Bool.eq_false_iff.2 hno)
        refine (hgrows.incomparable hpart).of_part (hgrows.parts ?_)
        rw [parts_of_not_named hliteral, ← hinner]
        exact List.mem_map_of_mem hs
      · rw [isLiteralComparable_of_not_aggregate (Bool.eq_false_iff.2 hagg) hliteral] at hno
        exact ⟨_, .refl, by simpa using hno⟩

/-- Defining a named type. -/
theorem defined (h : t.Marked) {id : Nat} {u : TypeRef} (hu : t.Held u)
    (hliteral : (t.resolve u).type.isNamed = false) (d : Descriptor)
    (hgrows : t.Grows (t.revise id fun e => e.define (t.resolve u) d)) :
    (t.revise id fun e => e.define (t.resolve u) d).Marked := by
  have hresolved : t.Held (t.resolve u) := by
    rw [resolve]
    split
    · rename_i id' name package _
      cases hd : t.definition? id' with
      | none => exact hu
      | some v => exact (h.held id' v hd).1
    · exact hu
  refine ⟨fun id' v hv => ?_, fun r hr hr' hno => hgrows.incomparable (h.marked r hr hr' hno)⟩
  obtain ⟨e, he, hv⟩ := Option.bind_eq_some_iff.1 hv
  rw [revise, List.getElem?_modify] at he
  obtain ⟨e', he', rfl⟩ := Option.map_eq_some_iff.1 he
  have hold : e'.underlying = some v → t.Held v ∧ v.type.isNamed = false := by
    intro hv
    refine h.held id' v ?_
    rw [definition?, he']
    exact hv
  by_cases hid : id = id'
  · rw [if_pos hid, Definition.define] at hv
    cases hunder : e'.underlying with
    | none =>
        simp only [hunder, Option.none_or, Option.some.injEq] at hv
        exact hv ▸ ⟨hresolved, hliteral⟩
    | some w => exact hold (by rw [← hv, hunder, Option.some_or])
  · rw [if_neg hid] at hv
    exact hold hv

/-- Declaring a method. -/
theorem extended (h : t.Marked) {id : Nat} {f : Definition → Definition}
    (hf : ∀ d, (f d).underlying = d.underlying) : (t.revise id f).Marked := by
  have hgrows : t.Grows (t.revise id f) := Grows.revise t id fun d u hu => by rw [hf, hu]
  refine ⟨fun id' v hv => ?_, fun r hr hr' hno => hgrows.incomparable (h.marked r hr hr' hno)⟩
  obtain ⟨e, he, hv⟩ := Option.bind_eq_some_iff.1 hv
  rw [revise, List.getElem?_modify] at he
  obtain ⟨e', he', rfl⟩ := Option.map_eq_some_iff.1 he
  refine h.held id' v ?_
  rw [definition?, he', Option.bind_some, ← hv]
  by_cases hid : id = id'
  · rw [if_pos hid, hf]
  · rw [if_neg hid]

/-- Declaring a named type. -/
theorem declared (h : t.Marked) (home : Nat) (name : Name) (package : Option String)
    (d : Descriptor) (comparable : Bool) :
    (t.declare.intern ⟨⟨home, .named t.named.length name package⟩, d, comparable, []⟩).Marked := by
  have hgrows := (Grows.declare t).trans
    (Grows.intern t.declare ⟨⟨home, .named t.named.length name package⟩, d, comparable, []⟩)
  refine ⟨fun id u hu => ?_, fun r hr hliteral hno => ?_⟩
  · rw [definition?, intern_named, declare] at hu
    obtain ⟨e, he, hu⟩ := Option.bind_eq_some_iff.1 hu
    by_cases hlt : id < t.named.length
    · rw [List.getElem?_append_left hlt] at he
      obtain ⟨hheld, hnamed⟩ := h.held id u (by rw [definition?, he]; exact hu)
      exact ⟨hgrows.held hheld, hnamed⟩
    · rw [List.getElem?_append_right (Nat.le_of_not_lt hlt)] at he
      cases List.mem_singleton.1 (List.mem_of_getElem? he)
      cases hu
  · rcases held_intern_iff.1 hr with hbefore | rfl
    · have hsame : t.isLiteralComparable r = false := hgrows.isLiteralComparable hbefore ▸ hno
      exact hgrows.incomparable (h.marked r hbefore hliteral hsame)
    · cases hliteral

/-- Every operation on types that are held keeps the marks right. -/
theorem step (h : t.Marked) {op : TypeOp} (hfits : op.Fits t) (hstep : TypeOp.Step t op t') :
    t'.Marked := by
  have hgrows := Grows.step hstep
  cases hstep with
  | refused => exact h
  | built hentry => exact h.built hfits hentry
  | declared home name package => exact h.declared home name package _ _
  | defined home id name package u hopen hliteral =>
      have hu : t.Held u := hfits u (List.mem_cons_of_mem _ (List.mem_singleton.2 rfl))
      exact h.defined hu hliteral _ hgrows
  | extended => exact h.extended fun _ => rfl

end Marked

/-- Whether a type counts as comparable does not change while the table grows, if the type stood for
something before. -/
theorem Grows.isComparable {t t' : TypeTable} (h : t.Grows t') (ht : t.Marked) {r : TypeRef}
    (hr : t.Held r) (hdefined : t.Defined r.type) : t'.isComparable r = t.isComparable r := by
  by_cases hnamed : r.type.isNamed = true
  · obtain ⟨home, ty⟩ := r
    cases ty with
    | named id name package =>
        cases hu : t.definition? id with
        | none =>
            rw [Defined, underlying, hu] at hdefined
            cases hdefined
        | some u =>
            rw [isComparable_named, isComparable_named, hu, h.defined id u hu, Option.all_some,
              Option.all_some, h.isLiteralComparable (ht.held id u hu).1]
    | _ => cases hnamed
  · have hliteral := Bool.eq_false_iff.2 hnamed
    rw [isComparable_of_not_named hr hliteral, isComparable_of_not_named (h.held hr) hliteral,
      h.isLiteralComparable hr]

end TypeTable

/-! ### The moment at which a type is built -/

namespace TypeOp

/-- The table after the first `n` operations. -/
abbrev tableAt (ops : List TypeOp) (n : Nat) : TypeTable :=
  tableAfter (ops.take n)

/-- Operations one after the other, in two parts. -/
theorem performAll_append (ops₁ ops₂ : List TypeOp) (t : TypeTable) :
    (performAll (ops₁ ++ ops₂) t).2 = (performAll ops₂ (performAll ops₁ t).2).2 := by
  induction ops₁ generalizing t with
  | nil => rfl
  | cons op ops₁ ih => exact ih (op.outcome t).2

/-- Parts of operations on types that are held are such operations. -/
theorem FitsAll.append {ops₁ ops₂ : List TypeOp} {t : TypeTable} (h : FitsAll (ops₁ ++ ops₂) t) :
    FitsAll ops₁ t ∧ FitsAll ops₂ (performAll ops₁ t).2 := by
  induction ops₁ generalizing t with
  | nil => exact ⟨trivial, h⟩
  | cons op ops₁ ih =>
      obtain ⟨hop, hops⟩ := h
      obtain ⟨hfirst, hsecond⟩ := ih hops
      exact ⟨⟨hop, hfirst⟩, hsecond⟩

/-- The table at any moment grows into the last one. -/
theorem tableAt_grows (ops : List TypeOp) (n : Nat) : (tableAt ops n).Grows (tableAfter ops) := by
  have hafter : tableAfter ops = (performAll (ops.drop n) (tableAt ops n)).2 := by
    rw [← performAll_append, List.take_append_drop]
  rw [hafter]
  exact TypeTable.Grows.performAll _ _

/-- At every moment the marks are right. -/
theorem FitsAll.marked {ops : List TypeOp} (hops : FitsAll ops .empty) (n : Nat) :
    (tableAt ops n).Marked := by
  rw [← List.take_append_drop n ops] at hops
  exact hops.append.1.invariant (fun _ _ _ hfits hstep ht => ht.step hfits hstep)
    TypeTable.Marked.empty

/-- How a type came to be held: after `n` operations it was not, and then `op` built it. -/
structure BuiltAt (ops : List TypeOp) (r : TypeRef) (n : Nat) (op : TypeOp) (i : Instance) :
    Prop where
  fits : op.Fits (tableAt ops n)
  entry : op.product? (tableAt ops n) = some i
  ref : i.ref = r
  absent : ¬(tableAt ops n).Held r
  table : tableAt ops (n + 1) = (tableAt ops n).intern i
  key : ∀ home key value, op = .map home key value → (tableAt ops n).isComparable key = true

/-- A type literal that is held was built by one of the operations. -/
theorem FitsAll.built {ops : List TypeOp} (hops : FitsAll ops .empty) {r : TypeRef}
    (hr : (tableAfter ops).Held r) (hliteral : r.type.isNamed = false) :
    ∃ n op i, BuiltAt ops r n op i := by
  classical
  have hexists : ∃ n, (tableAt ops n).Held r := ⟨ops.length, by rwa [tableAt, List.take_length]⟩
  have hheld := Nat.find_spec hexists
  obtain ⟨n, hn⟩ : ∃ n, Nat.find hexists = n + 1 := by
    refine Nat.exists_eq_succ_of_ne_zero fun hzero => ?_
    rw [hzero] at hheld
    cases hheld
  have habsent : ¬(tableAt ops n).Held r := Nat.find_min hexists (by omega)
  rw [hn] at hheld
  have hlt : n < ops.length := by
    by_contra hge
    rw [tableAt, List.take_of_length_le (by omega)] at habsent
    exact habsent hr
  have hafter : tableAt ops (n + 1) = (ops[n].outcome (tableAt ops n)).2 := by
    rw [tableAt, List.take_succ_eq_append_getElem hlt, tableAfter, performAll_append]
    rfl
  have hfits : ops[n].Fits (tableAt ops n) := by
    rw [← List.take_append_drop n ops, ← List.getElem_cons_drop hlt] at hops
    exact hops.append.2.1
  have hstep := outcome_step (tableAt ops n) ops[n]
  rw [← hafter] at hstep
  generalize hop : ops[n] = op at hfits hstep
  generalize htable : tableAt ops (n + 1) = t' at hheld hstep
  cases hstep with
  | refused => exact absurd hheld habsent
  | built hentry hkey =>
      rename_i i
      have href : r = i.ref :=
        (TypeTable.held_intern_iff.1 hheld).resolve_left habsent
      exact ⟨n, op, i, hfits, hentry, href.symm, habsent, htable, hkey⟩
  | declared home name package =>
      rcases TypeTable.held_intern_iff.1 hheld with hheld | rfl
      · exact absurd hheld habsent
      · cases hliteral
  | defined => exact absurd hheld habsent
  | extended => exact absurd hheld habsent

/-! ### Marks that say yes -/

/-- If `p` cannot be compared after all operations, it stood for something whenever the table held
`c`. -/
def Timely (ops : List TypeOp) (c p : Ty) : Prop :=
  (tableAfter ops).Incomparable p →
    ∀ n home, (tableAt ops n).Held ⟨home, c⟩ → (tableAt ops n).Defined p

/-- A part that can be compared is always in time. -/
theorem Timely.of_comparable {ops : List TypeOp} {c p : Ty}
    (h : ∀ d, (tableAfter ops).Component p d → d.lacksEquality = false) : Timely ops c p := by
  rintro ⟨d, hd, hlacks⟩
  rw [h d hd] at hlacks
  cases hlacks

/-- Whether a part is in time shows at finitely many moments. -/
theorem Timely.of_moments {ops : List TypeOp} {c p : Ty}
    (h : ∀ n < ops.length + 1, ∀ i ∈ (tableAt ops n).instances, i.ref.type = c →
      (tableAt ops n).Defined p) : Timely ops c p := by
  intro _ n home hheld
  by_cases hn : n < ops.length + 1
  · obtain ⟨i, hi, href⟩ := TypeTable.held_iff.1 hheld
    exact h n hn i hi (by rw [href])
  · have hend : tableAt ops n = tableAt ops ops.length := by
      rw [tableAt, tableAt, List.take_of_length_le (by omega), List.take_length]
    rw [hend] at hheld ⊢
    obtain ⟨i, hi, href⟩ := TypeTable.held_iff.1 hheld
    exact h ops.length (by omega) i hi (by rw [href])

/-- The types to which `op` gave a type as a part counted then as they count in the end, if the
type is built in time. -/
theorem BuiltAt.isComparable {ops : List TypeOp} (hops : FitsAll ops .empty) {r s : TypeRef}
    {n : Nat} {op : TypeOp} {i : Instance} (hbuilt : BuiltAt ops r n op i)
    (hs : s ∈ op.arguments) (htimely : Timely ops r.type s.type)
    (hbad : (tableAfter ops).Incomparable s.type) :
    (tableAt ops n).isComparable s = (tableAfter ops).isComparable s := by
  have hheld : (tableAt ops (n + 1)).Held r := by
    rw [hbuilt.table, ← hbuilt.ref]
    exact TypeTable.intern_held _ i
  have hdefined := htimely hbad (n + 1) r.home hheld
  rw [hbuilt.table, TypeTable.Defined, TypeTable.underlying_intern] at hdefined
  exact ((tableAt_grows ops n).isComparable (hops.marked n) (hbuilt.fits s hs) hdefined).symm

/-- A type that is held, whose parts were all there in time, does not count as comparable if it
holds a slice, a map or a function. -/
theorem FitsAll.not_isComparable {ops : List TypeOp} (hops : FitsAll ops .empty) {a c : Ty}
    (hpath : (tableAfter ops).Component a c) (hlacks : c.lacksEquality = true)
    (htimely : ∀ b, (tableAfter ops).Component a b → ∀ p ∈ b.inner, Timely ops b p) (home : Nat)
    (hheld : (tableAfter ops).Held ⟨home, a⟩) :
    (tableAfter ops).isComparable ⟨home, a⟩ = false := by
  have hmarked : (tableAfter ops).Marked := by
    have hlast := hops.marked ops.length
    rwa [tableAt, List.take_length] at hlast
  -- Induction on the path from the type to the slice, map or function, at every type on it.
  induction hpath using Relation.ReflTransGen.head_induction_on generalizing home with
  | refl => cases c <;> first | rfl | cases hlacks
  | @head a b hpart hrest ih =>
      have hbelow : ∀ home, (tableAfter ops).Held ⟨home, b⟩ →
          (tableAfter ops).isComparable ⟨home, b⟩ = false :=
        ih fun x hx => htimely x (.head hpart hx)
      by_cases hnamed : a.isNamed = true
      · cases a with
        | named id name package =>
            obtain ⟨u, hu, rfl⟩ := TypeTable.mem_parts_named.1 hpart
            obtain ⟨hheldu, hliteral⟩ := hmarked.held id u hu
            have hno := hbelow u.home hheldu
            rw [TypeTable.isComparable_of_not_named hheldu hliteral] at hno
            rw [TypeTable.isComparable_named, hu, Option.all_some, hno]
        | _ => cases hnamed
      · have hliteral := Bool.eq_false_iff.2 hnamed
        have hinner : b ∈ a.inner := TypeTable.parts_of_not_named hliteral ▸ hpart
        have hagg : a.isAggregate = true := by
          cases a <;> first | rfl | cases hinner
        obtain ⟨n, op, i, hbuilt⟩ := hops.built hheld hliteral
        have href := hbuilt.ref
        obtain ⟨rs, hrs, hparts, hmark⟩ := mark_of_product? hbuilt.entry (by rw [href]; exact hagg)
        rw [href] at hparts
        obtain ⟨s, hs, rfl⟩ := List.mem_map.1 (hparts ▸ hinner)
        have hthen := hbuilt.isComparable hops (hrs s hs) (htimely a .refl s.type hinner)
          ⟨c, hrest, hlacks⟩
        have hnow := hbelow s.home ((tableAt_grows ops n).held (hbuilt.fits s (hrs s hs)))
        have hentry : (tableAfter ops).instance? ⟨home, a⟩ = some i := by
          refine (tableAt_grows ops (n + 1)).kept _ _ ?_
          rw [hbuilt.table, ← href]
          exact TypeTable.instance?_intern_self (href ▸ hbuilt.absent)
        rw [TypeTable.isComparable_of_not_named hheld hliteral,
          TypeTable.isLiteralComparable_of_aggregate hagg hentry, hmark, List.all_eq_false]
        exact ⟨s, hs, by rw [hthen, hnow]; exact Bool.false_ne_true⟩

/-- A map type that is held was built with a key that counted as comparable. -/
theorem FitsAll.map_built {ops : List TypeOp} (hops : FitsAll ops .empty) {home : Nat} {k v : Ty}
    (hheld : (tableAfter ops).Held ⟨home, .map k v⟩) :
    ∃ n op i key, BuiltAt ops ⟨home, .map k v⟩ n op i ∧ key.type = k ∧ key ∈ op.arguments ∧
      (tableAt ops n).isComparable key = true := by
  obtain ⟨n, op, i, hbuilt⟩ := hops.built hheld rfl
  have hentry := hbuilt.entry
  have href := hbuilt.ref
  cases op with
  | map _ key value =>
      cases hentry
      cases href
      exact ⟨n, _, _, key, hbuilt, rfl, List.mem_cons_self, hbuilt.key _ key value rfl⟩
  | _ => first | cases hentry; done | (cases hentry; cases href)

/-- **Comparability.**  After any operations in any universes, a type counts as comparable if it
holds no slice, map or function, and it counts as comparable only then if every array and struct
type inside it was built in time, when those of its parts that cannot be compared stood for
something.  In the same way, a map type that was built in time has keys that can be compared. -/
theorem performAll_comparable (ops : List TypeOp) (hops : FitsAll ops .empty) :
    (∀ r, (tableAfter ops).Held r →
      (∀ c, (tableAfter ops).Component r.type c → c.lacksEquality = false) →
      (tableAfter ops).isComparable r = true) ∧
    (∀ r, (tableAfter ops).Held r →
      (∀ b, (tableAfter ops).Component r.type b → ∀ p ∈ b.inner, Timely ops b p) →
      ((tableAfter ops).isComparable r = true ↔
        ∀ c, (tableAfter ops).Component r.type c → c.lacksEquality = false)) ∧
    ∀ home k v, (tableAfter ops).Held ⟨home, .map k v⟩ → Timely ops (.map k v) k →
      (∀ b, (tableAfter ops).Component k b → ∀ p ∈ b.inner, Timely ops b p) →
      (∀ c, (tableAfter ops).Component k c → c.lacksEquality = false) ∧
        ∃ key, key.type = k ∧ (tableAfter ops).Held key ∧
          (tableAfter ops).isComparable key = true := by
  have hmarked : (tableAfter ops).Marked := by
    have hlast := hops.marked ops.length
    rwa [tableAt, List.take_length] at hlast
  have hyes : ∀ r, (tableAfter ops).Held r →
      (∀ c, (tableAfter ops).Component r.type c → c.lacksEquality = false) →
      (tableAfter ops).isComparable r = true := by
    intro r hr hnone
    by_contra hno
    obtain ⟨c, hc, hlacks⟩ := hmarked.incomparable hr (Bool.eq_false_iff.2 hno)
    rw [hnone c hc] at hlacks
    cases hlacks
  refine ⟨hyes, fun r hr htimely => ⟨fun hcomp c hc => ?_, hyes r hr⟩,
    fun home k v hheld hkey htimely => ?_⟩
  · by_contra hlacks
    have hno := hops.not_isComparable hc (Bool.not_eq_false _ ▸ hlacks) htimely r.home hr
    rw [hno] at hcomp
    cases hcomp
  · obtain ⟨n, op, i, key, hbuilt, rfl, harg, hcomp⟩ := hops.map_built hheld
    have hheldkey := (tableAt_grows ops n).held (hbuilt.fits key harg)
    have hnone : ∀ c, (tableAfter ops).Component key.type c → c.lacksEquality = false := by
      intro c hc
      by_contra hlacks
      have hyes : c.lacksEquality = true := Bool.not_eq_false _ ▸ hlacks
      have hthen := hbuilt.isComparable hops harg hkey ⟨c, hc, hyes⟩
      rw [hcomp, hops.not_isComparable hc hyes htimely key.home hheldkey] at hthen
      cases hthen
    exact ⟨hnone, key, rfl, hheldkey, hyes key hheldkey hnone⟩

/-- A named type for lists of numbers. -/
def numbers : TypeRef := ⟨0, .named 0 "Numbers" none⟩

/-- A struct with a list of numbers in it. -/
def series : TypeRef := ⟨0, .struct [⟨"values", numbers.type, false⟩]⟩

/-- A named type for numbers. -/
def number : TypeRef := ⟨0, .named 1 "Number" none⟩

/-- A struct with a number in it. -/
def record : TypeRef := ⟨0, .struct [⟨"number", number.type, false⟩]⟩

/-- The lists are defined before the struct around them is built, the numbers after. -/
def catalogue : List TypeOp :=
  [.named 0 "Numbers" none, .basic 0 .int, .slice 0 ⟨0, .basic .int⟩,
    .setUnderlying numbers ⟨0, .slice (.basic .int)⟩, .struct 0 [⟨"values", numbers, false⟩],
    .named 0 "Number" none, .struct 0 [⟨"number", number, false⟩],
    .setUnderlying number ⟨0, .basic .int⟩, .map 1 record ⟨0, .basic .int⟩]

/-- Structs with lists in them do not count as comparable, those with numbers do and can be the keys
of a map. -/
theorem catalogue_comparable :
    FitsAll catalogue .empty ∧ (tableAfter catalogue).isComparable series = false ∧
    (tableAfter catalogue).isComparable record = true ∧
    ∃ key, key.type = record.type ∧ (tableAfter catalogue).Held key ∧
      (tableAfter catalogue).isComparable key = true := by
  have hops : FitsAll catalogue .empty := by decide +kernel
  obtain ⟨-, hiff, hmap⟩ := performAll_comparable catalogue hops
  -- The components of the two structs.
  have hseries : ∀ c, (tableAfter catalogue).Component series.type c →
      c ∈ [series.type, numbers.type, .slice (.basic .int)] := fun c hc =>
    hc.mem (by decide +kernel) List.mem_cons_self
  have hrecord : ∀ c, (tableAfter catalogue).Component record.type c →
      c ∈ [record.type, number.type, .basic .int] := fun c hc =>
    hc.mem (by decide +kernel) List.mem_cons_self
  have hfine : ∀ c, (tableAfter catalogue).Component record.type c → c.lacksEquality = false := by
    intro c hc
    have hall : ∀ c ∈ [record.type, number.type, .basic .int], c.lacksEquality = false := by decide
    exact hall c (hrecord c hc)
  have hslice : (tableAfter catalogue).Component series.type (.slice (.basic .int)) := by
    refine .head (b := numbers.type) (by decide +kernel) (.single (by decide +kernel))
  have hearly : Timely catalogue series.type numbers.type := .of_moments (by decide +kernel)
  have hlate : ∀ c p, (tableAfter catalogue).Component record.type p → Timely catalogue c p :=
    fun c p hp => .of_comparable fun d hd => hfine d (hp.trans hd)
  have hparts : ∀ b, (tableAfter catalogue).Component record.type b → ∀ p ∈ b.inner,
      Timely catalogue b p := by
    intro b hb p hp
    refine hlate b p (hb.tail ?_)
    rcases List.mem_cons.1 (hrecord b hb) with rfl | hb
    · exact hp
    · rcases List.mem_cons.1 hb with rfl | hb
      · cases hp
      · cases List.mem_singleton.1 hb
        cases hp
  refine ⟨hops, Bool.eq_false_iff.2 fun hcomp => ?_,
    (hiff record (by decide +kernel) hparts).2 hfine,
    (hmap 1 record.type (.basic .int) (by decide +kernel) (hlate _ _ .refl) hparts).2⟩
  have hnone := (hiff series (by decide +kernel) fun b hb p hp => ?_).1 hcomp _ hslice
  · cases hnone
  · rcases List.mem_cons.1 (hseries b hb) with rfl | hb
    · exact List.mem_singleton.1 hp ▸ hearly
    · rcases List.mem_cons.1 hb with rfl | hb
      · cases hp
      · cases List.mem_singleton.1 hb
        cases hp

/-- A struct that was built while its part stood for nothing counts as comparable, though the part
is a slice in the end, and is taken as the key of a map. -/
theorem early_comparable :
    let part : TypeRef := ⟨0, .named 0 "A" none⟩
    let slice : TypeRef := ⟨0, .slice (.basic .int)⟩
    let whole : TypeRef := ⟨0, .struct [⟨"a", part.type, false⟩]⟩
    let ops : List TypeOp := [.named 0 "A" none, .struct 0 [⟨"a", part, false⟩],
      .basic 0 .int, .slice 0 ⟨0, .basic .int⟩, .setUnderlying part slice,
      .map 0 whole ⟨0, .basic .int⟩]
    FitsAll ops .empty ∧ (tableAfter ops).Held whole ∧
      (∀ c, (tableAfter ops).Component whole.type c → (tableAfter ops).Defined c) ∧
      (tableAfter ops).isComparable whole = true ∧
      (tableAfter ops).Held ⟨0, .map whole.type (.basic .int)⟩ ∧
      (tableAfter ops).Component whole.type slice.type ∧ slice.type.lacksEquality = true := by
  intro part slice whole ops
  have hdefined : ∀ c ∈ [whole.type, part.type, slice.type], (tableAfter ops).Defined c := by
    decide +kernel
  refine ⟨by decide +kernel, by decide +kernel, fun c hc => ?_, by decide +kernel,
    by decide +kernel, ?_, rfl⟩
  · exact hdefined c (hc.mem (by decide +kernel) List.mem_cons_self)
  · exact .head (b := part.type) (by decide +kernel) (.single (by decide +kernel))

end TypeOp

end ScriptCore
