import Mathlib.Data.String.Basic
import ScriptCore.Proofs.Types.Comparable

/-!
# Interface satisfaction

A type implements an interface if it has every method that the interface asks for.  What an
interface asks for is what stands in its type literal.  What a type has includes the methods that
were declared for it, and methods can be declared for a named interface type too.

So there is one step in a chain `T`, `I`, `J` that can fail: `I` may implement `J` through methods
that were declared for `I` itself, which nobody asks of `T`.  Without them a chain is transitive.
The condition that is left is exact: the interface literal that `I` stands for is a type as well, it
implements `I`, and if it does not implement `J` then it is the end of a chain that is broken.

Main statement: `TypeOp.performAll_satisfaction`.
-/

namespace ScriptCore

namespace TypeTable

variable {t t' : TypeTable} {a b c T I J : Ty} {ms : List Method} {name : Name}

/-- None of the methods that the interface `iface` asks for was declared for the type. -/
def Unextended (t : TypeTable) (ty iface : Ty) : Prop :=
  ∀ m ∈ (t.interfaceMethods? iface).getD [], ∀ d ∈ (t.methods? ty).getD [], d.name ≠ m.name

instance (t : TypeTable) (ty iface : Ty) : Decidable (t.Unextended ty iface) :=
  inferInstanceAs (Decidable (∀ m ∈ (t.interfaceMethods? iface).getD [],
    ∀ d ∈ (t.methods? ty).getD [], d.name ≠ m.name))

/-- The method with a name in a list. -/
def methodIn? (ms : List Method) (name : Name) : Option Ty :=
  (ms.find? fun m => m.name == name).map MethodOf.type

/-! ### Signatures and methods -/

/-- Function types agree if they have the same parameters and results. -/
theorem sameSignature_iff :
    t.sameSignature a b = true ↔
      ∃ s s', t.signature? a = some s ∧ t.signature? b = some s' ∧ s.params = s'.params ∧
        s.results = s'.results ∧ s.variadic = s'.variadic := by
  rw [sameSignature, signature?, signature?]
  cases t.underlying a <;> cases t.underlying b <;> simp [and_assoc]

/-- Agreeing with a type that agrees with a third. -/
theorem sameSignature_trans (hab : t.sameSignature a b = true) (hbc : t.sameSignature b c = true) :
    t.sameSignature a c = true := by
  obtain ⟨s, s', ha, hb, hparams, hresults, hvariadic⟩ := sameSignature_iff.1 hab
  obtain ⟨s₂, s'', hb', hc, hparams', hresults', hvariadic'⟩ := sameSignature_iff.1 hbc
  obtain rfl := Option.some.inj (hb.symm.trans hb')
  exact sameSignature_iff.2 ⟨s, s'', ha, hc, hparams.trans hparams', hresults.trans hresults',
    hvariadic.trans hvariadic'⟩

/-- A function type agrees with itself. -/
theorem sameSignature_self (h : (t.signature? a).isSome = true) :
    t.sameSignature a a = true := by
  obtain ⟨s, hs⟩ := Option.isSome_iff_exists.1 h
  exact sameSignature_iff.2 ⟨s, s, hs, hs, rfl, rfl, rfl⟩

/-- What an interface asks for is written in the literal that it stands for. -/
theorem interfaceMethods?_eq_some :
    t.interfaceMethods? I = some ms ↔ t.underlying I = .interface ms := by
  rw [interfaceMethods?]
  cases t.underlying I <;> simp

/-- Implementing an interface means to have each of its methods. -/
theorem implements_iff :
    t.implements T I = true ↔
      ∃ ms, t.interfaceMethods? I = some ms ∧
        ∀ m ∈ ms, ∃ found, t.method? T m.name = some found ∧
          t.sameSignature found m.type = true := by
  rw [implements]
  cases t.interfaceMethods? I <;> simp [Option.any_eq_true]

/-- A type has the methods that were declared for it, and an interface has those of its literal. -/
theorem method?_eq : t.method? T name =
    ((t.methods? T).bind (methodIn? · name)).or
      ((t.interfaceMethods? T).bind (methodIn? · name)) := by
  unfold method? methodIn?
  dsimp only
  cases (t.methods? T).bind fun ms => (ms.find? fun m => m.name == name).map MethodOf.type <;> rfl

/-- An interface literal has the methods that are written in it. -/
theorem method?_interface : t.method? (.interface ms) name = methodIn? ms name :=
  rfl

/-- A named interface has them too, if no method of that name was declared for it. -/
theorem method?_of_not_declared (hI : t.underlying I = .interface ms)
    (hname : ∀ d ∈ (t.methods? I).getD [], d.name ≠ name) :
    t.method? I name = methodIn? ms name := by
  have hnone : (t.methods? I).bind (methodIn? · name) = none := by
    cases hdeclared : t.methods? I with
    | none => rfl
    | some ds =>
        rw [hdeclared] at hname
        have hfind : ds.find? (fun d => d.name == name) = none :=
          List.find?_eq_none.2 fun d hd => by simpa using hname d hd
        rw [Option.bind_some, methodIn?, hfind, Option.map_none]
  rw [method?_eq, hnone, Option.none_or, interfaceMethods?_eq_some.2 hI, Option.bind_some]

/-- A method that is found in a list stands there under its name. -/
theorem methodIn?_eq_some {found : Ty} (h : methodIn? ms name = some found) :
    ∃ m ∈ ms, m.name = name ∧ m.type = found := by
  obtain ⟨m, hm, rfl⟩ := Option.map_eq_some_iff.1 h
  exact ⟨m, List.mem_of_find?_eq_some hm, by simpa using List.find?_some hm, rfl⟩

/-- In a list in which every name stands once, each method is found. -/
theorem methodIn?_of_mem {m : Method} (hdistinct : (ms.map MethodOf.name).Nodup) (hm : m ∈ ms) :
    methodIn? ms m.name = some m.type := by
  have hfind : ms.find? (fun d => d.name == m.name) = some m := by
    rw [List.find?_eq_some_iff_append]
    obtain ⟨before, after, rfl⟩ := List.append_of_mem hm
    refine ⟨beq_self_eq_true _, before, after, rfl, fun d hd => ?_⟩
    rw [List.map_append, List.nodup_append] at hdistinct
    simpa using hdistinct.2.2 _ (List.mem_map_of_mem hd) _ List.mem_cons_self
  rw [methodIn?, hfind, Option.map_some]

/-! ### Chains -/

/-- **What implements an interface implements everything that the literal of that interface
implements.** -/
theorem implements_trans (hTI : t.implements T I = true)
    (hIJ : t.implements (t.underlying I) J = true) : t.implements T J = true := by
  obtain ⟨ms, hms, hT⟩ := implements_iff.1 hTI
  obtain ⟨required, hrequired, hI⟩ := implements_iff.1 hIJ
  rw [interfaceMethods?_eq_some.1 hms] at hI
  refine implements_iff.2 ⟨required, hrequired, fun m hm => ?_⟩
  obtain ⟨found, hfound, hagree⟩ := hI m hm
  rw [method?_interface] at hfound
  obtain ⟨m', hm', hname, rfl⟩ := methodIn?_eq_some hfound
  obtain ⟨own, hown, hagree'⟩ := hT m' hm'
  exact ⟨own, hname ▸ hown, sameSignature_trans hagree' hagree⟩

/-- An interface implements through its literal what it implements without methods of its own. -/
theorem Unextended.implements_underlying (hI : t.isInterface I = true)
    (hIJ : t.implements I J = true) (h : t.Unextended I J) :
    t.implements (t.underlying I) J = true := by
  obtain ⟨ms, hms⟩ := Option.isSome_iff_exists.1 hI
  obtain ⟨required, hrequired, hmethods⟩ := implements_iff.1 hIJ
  have hliteral := interfaceMethods?_eq_some.1 hms
  refine implements_iff.2 ⟨required, hrequired, fun m hm => ?_⟩
  rw [Unextended, hrequired] at h
  rw [hliteral, method?_interface, ← method?_of_not_declared hliteral (h m hm)]
  exact hmethods m hm

/-- A type that implements an interface is used with a type that is an interface. -/
theorem isInterface_of_implements (h : t.implements T I = true) : t.isInterface I = true := by
  obtain ⟨ms, hms, -⟩ := implements_iff.1 h
  rw [isInterface, hms, Option.isSome_some]

/-- A value may be used as an interface if its type is this interface or implements it. -/
theorem assignable_interface_iff (hI : t.isInterface I = true) :
    t.assignable T I = true ↔ T = I ∨ t.implements T I = true := by
  rw [assignable, if_pos hI, Bool.or_eq_true, beq_iff_eq]

/-! ### Interface literals in a table -/

/-- Interface literals ask for functions, each under a name of its own. -/
structure Interfacing (t : TypeTable) : Prop where
  marked : t.Marked
  plain : ∀ r, t.Held r → r.type ≠ .basic .func
  distinct : ∀ home ms, t.Held ⟨home, .interface ms⟩ → (ms.map MethodOf.name).Nodup
  callable : ∀ home ms, t.Held ⟨home, .interface ms⟩ →
    ∀ m ∈ ms, (t.signature? m.type).isSome = true

/-- Function types keep their signature while the table grows. -/
theorem Grows.signature? (h : t.Grows t') (ha : (t.signature? a).isSome = true) :
    (t'.signature? a).isSome = true := by
  have hsame : t'.underlying a = t.underlying a := by
    cases a with
    | named id name package =>
        cases hu : t.definition? id with
        | none =>
            rw [TypeTable.signature?, underlying, hu, Option.elim_none] at ha
            cases ha
        | some u =>
            rw [underlying, underlying, hu, h.defined id u hu]
    | _ => rfl
  rwa [TypeTable.signature?, hsame]

/-- In a table with held types only, a type of the kind of functions has a signature. -/
theorem Interfacing.signature? (h : t.Interfacing) {r : TypeRef} (hr : t.Held r)
    (hkind : t.kind r.type = .func) : (t.signature? r.type).isSome = true := by
  have hheld : ∃ home, t.Held ⟨home, t.underlying r.type⟩ := by
    obtain ⟨home, ty⟩ := r
    cases ty with
    | named id name package =>
        cases hu : t.definition? id with
        | none => exact ⟨home, by rwa [underlying, hu, Option.elim_none]⟩
        | some u => exact ⟨u.home, by rw [underlying, hu]; exact (h.marked.held id u hu).1⟩
    | _ => exact ⟨home, hr⟩
  obtain ⟨home, hheld⟩ := hheld
  have hplain := h.plain _ hheld
  rw [kind] at hkind
  rw [TypeTable.signature?]
  cases hu : t.underlying r.type with
  | func => rfl
  | basic k =>
      rw [hu] at hkind hplain
      exact absurd (congrArg Ty.basic hkind) hplain
  | _ => rw [hu] at hkind; cases hkind

/-- The literal that an interface type of the table stands for is a type of the table. -/
theorem Marked.literal_held (h : t.Marked) {r : TypeRef} (hr : t.Held r)
    (hliteral : t.underlying r.type = .interface ms) :
    ∃ home, t.Held ⟨home, .interface ms⟩ := by
  obtain ⟨home, ty⟩ := r
  cases ty with
  | named id name package =>
      cases hu : t.definition? id with
      | none =>
          rw [underlying, hu, Option.elim_none] at hliteral
          cases hliteral
      | some u =>
          rw [underlying, hu, Option.elim_some] at hliteral
          exact ⟨u.home, hliteral ▸ (h.held id u hu).1⟩
  | _ => exact ⟨home, hliteral ▸ hr⟩

/-- The literal that an interface stands for implements the interface. -/
theorem Interfacing.literal_implements (h : t.Interfacing) {home : Nat}
    (hheld : t.Held ⟨home, .interface ms⟩) (hI : t.interfaceMethods? I = some ms) :
    t.implements (.interface ms) I = true := by
  refine implements_iff.2 ⟨ms, hI, fun m hm => ⟨m.type, ?_, ?_⟩⟩
  · rw [method?_interface, methodIn?_of_mem (h.distinct home ms hheld) hm]
  · exact sameSignature_self (h.callable home ms hheld m hm)

/-- **The exact condition**: whatever implements an interface of the table implements `J` just if
the literal of the interface does. -/
theorem Interfacing.chains_iff (h : t.Interfacing) {r : TypeRef} (hr : t.Held r)
    (hI : t.isInterface r.type = true) :
    (∀ s, t.Held s → t.implements s.type r.type = true → t.implements s.type J = true) ↔
      t.implements (t.underlying r.type) J = true := by
  refine ⟨fun hchains => ?_, fun hliteral s _ hs => implements_trans hs hliteral⟩
  obtain ⟨ms, hms⟩ := Option.isSome_iff_exists.1 hI
  have hunderlying := interfaceMethods?_eq_some.1 hms
  obtain ⟨home, hheld⟩ := h.marked.literal_held hr hunderlying
  rw [hunderlying]
  exact hchains ⟨home, .interface ms⟩ hheld (h.literal_implements hheld hms)

/-- The empty table. -/
theorem Interfacing.empty : TypeTable.empty.Interfacing where
  marked := .empty
  plain r hr := by cases hr
  distinct home ms hr := by cases hr
  callable home ms hr := by cases hr

/-- A step that adds no interface literal. -/
theorem Interfacing.step (h : t.Interfacing) {op : TypeOp} (hfits : op.Fits t)
    (hstep : TypeOp.Step t op t') (hop : ∀ home methods, op ≠ .interface home methods) :
    t'.Interfacing := by
  have hgrows := Grows.step hstep
  have hold : ∀ r, t'.Held r →
      t.Held r ∨ r.type ≠ .basic .func ∧ ∀ ms, r.type ≠ .interface ms := by
    intro r hr
    cases hstep with
    | refused => exact .inl hr
    | @built _ i hentry =>
        rcases held_intern_iff.1 hr with hr | rfl
        · exact .inl hr
        · refine .inr ⟨fun hplain => ?_, fun ms hms => ?_⟩
          · cases op with
            | basic home k =>
                cases hentry
                cases k <;> cases hplain
            | _ => cases hentry <;> cases hplain
          · cases op with
            | interface home methods => exact hop home methods rfl
            | _ => cases hentry <;> cases hms
    | declared =>
        rcases held_intern_iff.1 hr with hr | rfl
        · exact .inl hr
        · exact .inr ⟨Ty.noConfusion, fun _ => Ty.noConfusion⟩
    | defined => exact .inl hr
    | extended => exact .inl hr
  refine ⟨h.marked.step hfits hstep, fun r hr => ?_, fun home ms hr => ?_,
    fun home ms hr m hm => ?_⟩
  · exact (hold r hr).elim (h.plain r) And.left
  · exact (hold _ hr).elim (h.distinct home ms) fun hnew => absurd rfl (hnew.2 ms)
  · rcases hold _ hr with hr | hnew
    · exact hgrows.signature? (h.callable home ms hr m hm)
    · exact absurd rfl (hnew.2 ms)

end TypeTable

namespace Universe

/-- Sorted methods without two of one name in a row have distinct names. -/
theorem distinct_of_repeatedMethod? {α : Type} {ms : List (MethodOf α)}
    (hsorted : ms.Pairwise fun a b => a.name ≤ b.name) (h : repeatedMethod? ms = none) :
    (ms.map MethodOf.name).Nodup := by
  induction ms with
  | nil => exact List.nodup_nil
  | cons a ms ih =>
      cases ms with
      | nil => exact List.nodup_cons.2 ⟨List.not_mem_nil, List.nodup_nil⟩
      | cons b ms =>
          rw [repeatedMethod?] at h
          split at h
          · cases h
          · rename_i hne
            obtain ⟨hfirst, hrest⟩ := List.pairwise_cons.1 hsorted
            have hlt : a.name < b.name := lt_of_le_of_ne (hfirst b List.mem_cons_self) hne
            refine List.nodup_cons.2 ⟨fun hmem => ?_, ih hrest h⟩
            obtain ⟨c, hc, hname⟩ := List.mem_map.1 hmem
            have hle : b.name ≤ c.name := by
              rcases List.mem_cons.1 hc with rfl | hc
              · exact le_refl _
              · exact (List.pairwise_cons.1 hrest).1 c hc
            exact absurd hname (hlt.trans_le hle).ne'

/-- Sorting methods by name. -/
theorem sorted_by_name {α : Type} (ms : List (MethodOf α)) :
    (ms.mergeSort fun a b => decide (a.name ≤ b.name)).Pairwise fun a b => a.name ≤ b.name := by
  refine (List.pairwise_mergeSort (fun a b c hab hbc => ?_) (fun a b => ?_) ms).imp
    of_decide_eq_true
  · exact decide_eq_true ((of_decide_eq_true hab).trans (of_decide_eq_true hbc))
  · rw [Bool.or_eq_true, decide_eq_true_iff, decide_eq_true_iff]
    exact le_total a.name b.name

end Universe

namespace TypeOp

/-- An operation leaves behind what building leaves behind. -/
theorem outcome_of_leaves {t : TypeTable} (op : TypeOp) {P : TypeTable → Prop}
    (h : Build.Leaves t op.perform P) : P (op.outcome t).2 := by
  rw [Build.Leaves] at h
  rw [outcome]
  cases hrun : op.perform.run.run t with
  | mk r t' =>
      rw [hrun] at h
      cases r with
      | ok r => exact h
      | error e => exact h

/-- An interface literal is built if its methods are functions with names of their own. -/
theorem interface_outcome (t : TypeTable) (home : Nat) (methods : List (MethodOf TypeRef)) :
    ((interface home methods).outcome t).2 = t ∨
      (∀ m ∈ methods, t.kind m.type.type = .func) ∧
        Universe.repeatedMethod? (methods.mergeSort fun a b => decide (a.name ≤ b.name)) = none ∧
        ∃ i, (interface home methods).product? t = some i ∧
          ((interface home methods).outcome t).2 = t.intern i := by
  have hleaves : Build.Leaves t (Universe.interface home methods) fun t' => t' = t ∨
      (∀ m ∈ methods, t.kind m.type.type = .func) ∧
        Universe.repeatedMethod? (methods.mergeSort fun a b => decide (a.name ≤ b.name)) = none ∧
        ∃ i, (interface home methods).product? t = some i ∧ t' = t.intern i := by
    refine .get ?_
    split
    · exact .throw (.inl rfl)
    · rename_i hnone
      dsimp only
      split
      · exact .throw (.inl rfl)
      · rename_i hdistinct
        refine .intern (.inr ⟨fun m hm => ?_, hdistinct, _, rfl, rfl⟩)
        simpa using List.find?_eq_none.1 hnone m hm
  exact outcome_of_leaves (.interface home methods) (.map _ hleaves)

/-- Every operation on types that are held keeps interface literals in order. -/
theorem outcome_interfacing {t : TypeTable} (h : t.Interfacing) {op : TypeOp} (hfits : op.Fits t) :
    (op.outcome t).2.Interfacing := by
  have hstep := outcome_step t op
  cases op with
  | interface home methods =>
      rcases interface_outcome t home methods with hsame | ⟨hkind, hrepeated, i, hentry, hbuilt⟩
      · rwa [hsame]
      · have hmarked := h.marked.step hfits hstep
        rw [hbuilt] at hmarked ⊢
        have hgrows := TypeTable.Grows.intern t i
        refine ⟨hmarked, fun r hr => ?_, fun home' ms hr => ?_, fun home' ms hr m hm => ?_⟩
        · rcases TypeTable.held_intern_iff.1 hr with hr | rfl
          · exact h.plain r hr
          · cases hentry
            exact Ty.noConfusion
        · rcases TypeTable.held_intern_iff.1 hr with hr | hnew
          · exact h.distinct home' ms hr
          · cases hentry
            cases hnew
            rw [List.map_map]
            exact Universe.distinct_of_repeatedMethod? (Universe.sorted_by_name methods) hrepeated
        · rcases TypeTable.held_intern_iff.1 hr with hr | hnew
          · exact hgrows.signature? (h.callable home' ms hr m hm)
          · cases hentry
            cases hnew
            obtain ⟨given, hgiven, rfl⟩ := List.mem_map.1 hm
            have hmem : given ∈ methods := List.mem_mergeSort.1 hgiven
            have hheld : t.Held given.type := hfits _ (List.mem_map_of_mem hmem)
            exact hgrows.signature? (h.signature? hheld (hkind given hmem))
  | _ => exact h.step hfits hstep fun _ _ => TypeOp.noConfusion

/-- After any operations interface literals are in order. -/
theorem FitsAll.interfacing {ops : List TypeOp} {t : TypeTable} (hops : FitsAll ops t)
    (h : t.Interfacing) : (performAll ops t).2.Interfacing := by
  induction ops generalizing t with
  | nil => exact h
  | cons op ops ih => exact ih hops.2 (outcome_interfacing h hops.1)

/-- **Interface satisfaction is transitive** where no named interface got methods of its own.  After
any operations in any universes, if `T` implements the interface `I`, and `I` implements `J` without
methods that were declared for `I` itself, then `T` implements `J`, and a value that may be used as
one of `I` and then as one of `J` may be used as one of `J` at once.  For an interface `I` that
implements `J` by any methods, all types that implement `I` implement `J` exactly if the literal
that `I` stands for does. -/
theorem performAll_satisfaction (ops : List TypeOp) (hops : FitsAll ops .empty) :
    (∀ T I J, (tableAfter ops).Unextended I J → (tableAfter ops).implements T I = true →
      (tableAfter ops).implements I J = true → (tableAfter ops).implements T J = true) ∧
    (∀ T I J, (tableAfter ops).isInterface I = true → (tableAfter ops).isInterface J = true →
      (tableAfter ops).Unextended I J → (tableAfter ops).assignable T I = true →
      (tableAfter ops).assignable I J = true → (tableAfter ops).assignable T J = true) ∧
    ∀ r, (tableAfter ops).Held r → (tableAfter ops).isInterface r.type = true →
      ∀ J, (tableAfter ops).implements r.type J = true →
        ((∀ s, (tableAfter ops).Held s → (tableAfter ops).implements s.type r.type = true →
            (tableAfter ops).implements s.type J = true) ↔
          (tableAfter ops).implements ((tableAfter ops).underlying r.type) J = true) := by
  have htrans : ∀ T I J, (tableAfter ops).Unextended I J →
      (tableAfter ops).implements T I = true → (tableAfter ops).implements I J = true →
      (tableAfter ops).implements T J = true := by
    intro T I J hown hTI hIJ
    have hI := TypeTable.isInterface_of_implements hTI
    exact TypeTable.implements_trans hTI (hown.implements_underlying hI hIJ)
  refine ⟨htrans, fun T I J hI hJ hown hTI hIJ => ?_, fun r hr hI J _ => ?_⟩
  · rcases (TypeTable.assignable_interface_iff hI).1 hTI with rfl | hTI
    · exact hIJ
    · rcases (TypeTable.assignable_interface_iff hJ).1 hIJ with rfl | hIJ
      · exact (TypeTable.assignable_interface_iff hJ).2 (.inr hTI)
      · exact (TypeTable.assignable_interface_iff hJ).2 (.inr (htrans T I J hown hTI hIJ))
  · exact (hops.interfacing .empty).chains_iff hr hI

/-- A named type for names. -/
def label : TypeRef := ⟨0, .named 0 "Label" none⟩

/-- Functions that give a number. -/
def gauge : TypeRef := ⟨0, .func none [] [.basic .int] false⟩

/-- A named interface of types with a length. -/
def sized : TypeRef := ⟨1, .named 1 "Sized" none⟩

/-- The interface literal of types with a length. -/
def measured : TypeRef := ⟨0, .interface [⟨"Len", gauge.type⟩]⟩

/-- Names get a length, and the named interface, which asks for one, gets a weight of its own. -/
def sizes : List TypeOp :=
  [.named 0 "Label" none, .basic 0 .int, .setUnderlying label ⟨0, .basic .int⟩,
    .func 0 (some label) [] [⟨0, .basic .int⟩] false,
    .addMethod label "Len" ⟨0, .func (some label.type) [] [.basic .int] false⟩,
    .func 0 none [] [⟨0, .basic .int⟩] false, .interface 0 [⟨"Len", gauge⟩],
    .named 1 "Sized" none, .setUnderlying sized measured,
    .func 1 (some sized) [] [⟨0, .basic .int⟩] false,
    .addMethod sized "Weight" ⟨1, .func (some sized.type) [] [.basic .int] false⟩]

/-- Names implement the named interface, hence the literal, and so do all types that implement the
named interface. -/
theorem sizes_satisfaction :
    FitsAll sizes .empty ∧ (tableAfter sizes).implements label.type measured.type = true ∧
    (tableAfter sizes).assignable label.type measured.type = true ∧
    ∀ s, (tableAfter sizes).Held s → (tableAfter sizes).implements s.type sized.type = true →
      (tableAfter sizes).implements s.type measured.type = true := by
  have hops : FitsAll sizes .empty := by decide +kernel
  obtain ⟨htrans, hassign, hiff⟩ := performAll_satisfaction sizes hops
  have hown : (tableAfter sizes).Unextended sized.type measured.type := by decide +kernel
  exact ⟨hops, htrans _ _ _ hown (by decide +kernel) (by decide +kernel),
    hassign _ sized.type _ (by decide +kernel) (by decide +kernel) hown (by decide +kernel)
      (by decide +kernel),
    (hiff sized (by decide +kernel) (by decide +kernel) measured.type (by decide +kernel)).2
      (by decide +kernel)⟩

/-- A named interface that asks for nothing gets a method: every type still implements it, it
implements the interface that asks for this method, and numbers do not. -/
theorem extended_interface_intransitive :
    let owner : TypeRef := ⟨0, .named 0 "I" none⟩
    let method : TypeRef := ⟨0, .func none [] [] false⟩
    let asking : TypeRef := ⟨0, .interface [⟨"M", method.type⟩]⟩
    let ops : List TypeOp := [.named 0 "I" none, .interface 0 [],
      .setUnderlying owner ⟨0, .interface []⟩, .func 0 (some owner) [] [] false,
      .addMethod owner "M" ⟨0, .func (some owner.type) [] [] false⟩, .func 0 none [] [] false,
      .interface 0 [⟨"M", method⟩], .basic 0 .int]
    FitsAll ops .empty ∧ (tableAfter ops).implements (.basic .int) owner.type = true ∧
      (tableAfter ops).implements owner.type asking.type = true ∧
      (tableAfter ops).implements (.basic .int) asking.type = false ∧
      (tableAfter ops).assignable (.basic .int) owner.type = true ∧
      (tableAfter ops).assignable owner.type asking.type = true ∧
      (tableAfter ops).assignable (.basic .int) asking.type = false := by
  decide +kernel

end TypeOp

end ScriptCore
