import Mathlib
import ScriptCore.Proofs.Types.Steps

/-!
# What a descriptor tells about its type

A descriptor forgets three things about a type: which parameter of a method was its receiver, which
fields of a struct are embedded, and the package of a named type.  The last is no loss, since a
number belongs to one named type.  What is left can be read back (`Descriptor.restore`): with the
marks of the embedded fields at hand, the descriptor gives the type in which every method is the
plain function that takes its receiver first (`Descriptor.restore_descriptor`).

So two types have one descriptor and the same marks exactly when they become the same type once
their methods are plain functions.  Without the marks this fails: the struct with an embedded field
and the struct with a field of the same name and type share their descriptor
(`TypeOp.embedding_shared`).

Main statement: `TypeOp.performAll_identity`.
-/

namespace ScriptCore

/-! ### Methods as functions -/

namespace Ty

mutual

/-- The type in which every method is the plain function that takes its receiver first. -/
def plain : Ty → Ty
  | slice e => slice e.plain
  | array n e => array n e.plain
  | map k v => map k.plain v.plain
  | pointer e => pointer e.plain
  | struct fs => struct (plainFields fs)
  | interface ms => interface (plainMethods ms)
  | func none ps rs v => func none (plainAll ps) (plainAll rs) v
  | func (some r) ps rs v => func none (r.plain :: plainAll ps) (plainAll rs) v
  | ty => ty

/-- The same for a list of types. -/
def plainAll : List Ty → List Ty
  | [] => []
  | ty :: tys => ty.plain :: plainAll tys

/-- The same for the types of fields. -/
def plainFields : List Field → List Field
  | [] => []
  | ⟨n, ty, e⟩ :: fs => ⟨n, ty.plain, e⟩ :: plainFields fs

/-- The same for the types of methods. -/
def plainMethods : List Method → List Method
  | [] => []
  | ⟨n, ty⟩ :: ms => ⟨n, ty.plain⟩ :: plainMethods ms

end

mutual

/-- For every field inside a type, in the order in which they are written, whether it is
embedded. -/
def marks : Ty → List Bool
  | slice e | array _ e | pointer e => e.marks
  | map k v => k.marks ++ v.marks
  | struct fs => fieldMarks fs
  | interface ms => methodMarks ms
  | func none ps rs _ => allMarks ps ++ allMarks rs
  | func (some r) ps rs _ => r.marks ++ allMarks ps ++ allMarks rs
  | basic _ | named .. => []

/-- The marks of a list of types. -/
def allMarks : List Ty → List Bool
  | [] => []
  | ty :: tys => ty.marks ++ allMarks tys

/-- The marks of fields, each before those of its type. -/
def fieldMarks : List Field → List Bool
  | [] => []
  | ⟨_, ty, e⟩ :: fs => e :: ty.marks ++ fieldMarks fs

/-- The marks of the types of methods. -/
def methodMarks : List Method → List Bool
  | [] => []
  | ⟨_, ty⟩ :: ms => ty.marks ++ methodMarks ms

end

mutual

/-- The numbers and packages of the named types inside a type. -/
def mentions : Ty → List (Nat × Option String)
  | slice e | array _ e | pointer e => e.mentions
  | map k v => k.mentions ++ v.mentions
  | struct fs => fieldMentions fs
  | interface ms => methodMentions ms
  | func none ps rs _ => allMentions ps ++ allMentions rs
  | func (some r) ps rs _ => r.mentions ++ allMentions ps ++ allMentions rs
  | named id _ package => [(id, package)]
  | basic _ => []

/-- The named types inside a list of types. -/
def allMentions : List Ty → List (Nat × Option String)
  | [] => []
  | ty :: tys => ty.mentions ++ allMentions tys

/-- The named types inside the types of fields. -/
def fieldMentions : List Field → List (Nat × Option String)
  | [] => []
  | ⟨_, ty, _⟩ :: fs => ty.mentions ++ fieldMentions fs

/-- The named types inside the types of methods. -/
def methodMentions : List Method → List (Nat × Option String)
  | [] => []
  | ⟨_, ty⟩ :: ms => ty.mentions ++ methodMentions ms

end

/-- Every named type inside the type has the package that its number stands for. -/
def Packaged (packages : List (Option String)) (ty : Ty) : Prop :=
  ∀ e ∈ ty.mentions, packages[e.1]? = some e.2

mutual

/-- Making methods functions changes neither the descriptor nor the marks. -/
theorem plain_keeps (a : Ty) : a.plain.descriptor = a.descriptor ∧ a.plain.marks = a.marks := by
  match a with
  | slice e => simpa [plain, descriptor, marks] using plain_keeps e
  | array n e => simpa [plain, descriptor, marks] using plain_keeps e
  | map k v => simp [plain, descriptor, marks, plain_keeps k, plain_keeps v]
  | pointer e => simpa [plain, descriptor, marks] using plain_keeps e
  | struct fs => simpa [plain, descriptor, marks] using plainFields_keeps fs
  | interface ms => simpa [plain, descriptor, marks] using plainMethods_keeps ms
  | func none ps rs v =>
      simp [plain, descriptor, marks, plainAll_keeps ps, plainAll_keeps rs]
  | func (some r) ps rs v =>
      simp [plain, descriptor, marks, descriptors, allMarks, plain_keeps r, plainAll_keeps ps,
        plainAll_keeps rs]
  | basic _ => simp [plain]
  | named .. => simp [plain]

/-- The same for a list of types. -/
theorem plainAll_keeps (tys : List Ty) :
    descriptors (plainAll tys) = descriptors tys ∧ allMarks (plainAll tys) = allMarks tys := by
  match tys with
  | [] => simp [plainAll]
  | ty :: tys => simp [plainAll, descriptors, allMarks, plain_keeps ty, plainAll_keeps tys]

/-- The same for fields. -/
theorem plainFields_keeps (fs : List Field) :
    fieldDescriptors (plainFields fs) = fieldDescriptors fs ∧
      fieldMarks (plainFields fs) = fieldMarks fs := by
  match fs with
  | [] => simp [plainFields]
  | ⟨_, ty, _⟩ :: fs =>
      simp [plainFields, fieldDescriptors, fieldMarks, plain_keeps ty, plainFields_keeps fs]

/-- The same for methods. -/
theorem plainMethods_keeps (ms : List Method) :
    methodDescriptors (plainMethods ms) = methodDescriptors ms ∧
      methodMarks (plainMethods ms) = methodMarks ms := by
  match ms with
  | [] => simp [plainMethods]
  | ⟨_, ty⟩ :: ms =>
      simp [plainMethods, methodDescriptors, methodMarks, plain_keeps ty, plainMethods_keeps ms]

end

end Ty

/-! ### Reading a descriptor back -/

namespace Descriptor

/-- Take the next mark. -/
def nextMark : StateM (List Bool) Bool :=
  modifyGet fun ms => (ms.headD false, ms.tail)

variable (packages : List (Option String))

mutual

/-- The type without methods that has a descriptor, given the marks of its fields. -/
def restore : Descriptor → StateM (List Bool) Ty
  | basic k => return .basic k
  | slice e => return .slice (← restore e)
  | array n e => return .array n (← restore e)
  | map k v => return .map (← restore k) (← restore v)
  | pointer e => return .pointer (← restore e)
  | struct fs => return .struct (← restoreFields fs)
  | interface ms => return .interface (← restoreMethods ms)
  | func is os v => return .func none (← restoreAll is) (← restoreAll os) v
  | named id n => return .named id n (packages[id]?.getD none)

/-- The same for a list of descriptors. -/
def restoreAll : List Descriptor → StateM (List Bool) (List Ty)
  | [] => return []
  | d :: ds => return (← restore d) :: (← restoreAll ds)

/-- The same for fields. -/
def restoreFields : List (Name × Descriptor) → StateM (List Bool) (List Field)
  | [] => return []
  | (n, d) :: fs => do
    let mark ← nextMark
    return ⟨n, ← restore d, mark⟩ :: (← restoreFields fs)

/-- The same for methods. -/
def restoreMethods : List (Name × Descriptor) → StateM (List Bool) (List Method)
  | [] => return []
  | (n, d) :: ms => return ⟨n, ← restore d⟩ :: (← restoreMethods ms)

end

variable {packages}

mutual

/-- A type whose methods are made functions is read back from its descriptor and its marks. -/
theorem restore_descriptor (a : Ty) (ha : ∀ e ∈ a.mentions, packages[e.1]? = some e.2)
    (rest : List Bool) : restore packages a.descriptor (a.marks ++ rest) = (a.plain, rest) := by
  match a with
  | .basic k => rfl
  | .slice e | .array n e | .pointer e =>
      have he := restore_descriptor e ha
      simp only [Ty.descriptor, Ty.marks, Ty.plain, restore, bind, StateT.bind, pure, StateT.pure,
        he]
  | .map k v =>
      obtain ⟨hk, hv⟩ := List.forall_mem_append.1 ha
      simp only [Ty.descriptor, Ty.marks, Ty.plain, restore, bind, StateT.bind, pure, StateT.pure,
        List.append_assoc, restore_descriptor k hk, restore_descriptor v hv]
  | .struct fs =>
      have hfs := restore_fieldDescriptors fs ha
      simp only [Ty.descriptor, Ty.marks, Ty.plain, restore, bind, StateT.bind, pure, StateT.pure,
        hfs]
  | .interface ms =>
      have hms := restore_methodDescriptors ms ha
      simp only [Ty.descriptor, Ty.marks, Ty.plain, restore, bind, StateT.bind, pure, StateT.pure,
        hms]
  | .func none ps rs v =>
      obtain ⟨hps, hrs⟩ := List.forall_mem_append.1 ha
      simp only [Ty.descriptor, Ty.marks, Ty.plain, restore, bind, StateT.bind, pure, StateT.pure,
        List.append_assoc, restore_descriptors ps hps, restore_descriptors rs hrs]
  | .func (some r) ps rs v =>
      obtain ⟨hrp, hrs⟩ := List.forall_mem_append.1 ha
      obtain ⟨hr, hps⟩ := List.forall_mem_append.1 hrp
      simp only [Ty.descriptor, Ty.marks, Ty.plain, restore, restoreAll, bind, StateT.bind, pure,
        StateT.pure, List.append_assoc, restore_descriptor r hr, restore_descriptors ps hps,
        restore_descriptors rs hrs]
  | .named id n p =>
      have hp : packages[id]? = some p := ha (id, p) (List.mem_singleton.2 rfl)
      simp only [Ty.descriptor, Ty.marks, Ty.plain, restore, pure, StateT.pure, hp,
        Option.getD_some, List.nil_append]

/-- The same for a list of types. -/
theorem restore_descriptors (as : List Ty)
    (has : ∀ e ∈ Ty.allMentions as, packages[e.1]? = some e.2) (rest : List Bool) :
    restoreAll packages (Ty.descriptors as) (Ty.allMarks as ++ rest) = (Ty.plainAll as, rest) := by
  match as with
  | [] => rfl
  | a :: as =>
      obtain ⟨ha, has⟩ := List.forall_mem_append.1 has
      simp only [Ty.descriptors, Ty.allMarks, Ty.plainAll, restoreAll, bind, StateT.bind, pure,
        StateT.pure, List.append_assoc, restore_descriptor a ha, restore_descriptors as has]

/-- The same for fields. -/
theorem restore_fieldDescriptors (fs : List Field)
    (hfs : ∀ e ∈ Ty.fieldMentions fs, packages[e.1]? = some e.2) (rest : List Bool) :
    restoreFields packages (Ty.fieldDescriptors fs) (Ty.fieldMarks fs ++ rest) =
      (Ty.plainFields fs, rest) := by
  match fs with
  | [] => rfl
  | ⟨n, a, mark⟩ :: fs =>
      obtain ⟨ha, hfs⟩ := List.forall_mem_append.1 hfs
      simp only [Ty.fieldDescriptors, Ty.fieldMarks, Ty.plainFields, restoreFields, nextMark, bind,
        StateT.bind, pure, StateT.pure, modifyGet, MonadStateOf.modifyGet, StateT.modifyGet,
        List.cons_append, List.headD_cons, List.tail_cons, List.append_assoc,
        restore_descriptor a ha, restore_fieldDescriptors fs hfs]

/-- The same for methods. -/
theorem restore_methodDescriptors (ms : List Method)
    (hms : ∀ e ∈ Ty.methodMentions ms, packages[e.1]? = some e.2) (rest : List Bool) :
    restoreMethods packages (Ty.methodDescriptors ms) (Ty.methodMarks ms ++ rest) =
      (Ty.plainMethods ms, rest) := by
  match ms with
  | [] => rfl
  | ⟨n, a⟩ :: ms =>
      obtain ⟨ha, hms⟩ := List.forall_mem_append.1 hms
      simp only [Ty.methodDescriptors, Ty.methodMarks, Ty.plainMethods, restoreMethods, bind,
        StateT.bind, pure, StateT.pure, List.append_assoc, restore_descriptor a ha,
        restore_methodDescriptors ms hms]

end

end Descriptor

/-- Types whose named types have the packages of their numbers become the same type, once their
methods are functions, exactly if their descriptors and their marks are the same. -/
theorem Ty.plain_eq_iff {packages : List (Option String)} {a b : Ty} (ha : a.Packaged packages)
    (hb : b.Packaged packages) :
    a.plain = b.plain ↔ a.descriptor = b.descriptor ∧ a.marks = b.marks := by
  constructor
  · intro h
    obtain ⟨hda, hma⟩ := a.plain_keeps
    obtain ⟨hdb, hmb⟩ := b.plain_keeps
    exact ⟨by rw [← hda, h, hdb], by rw [← hma, h, hmb]⟩
  · rintro ⟨hd, hm⟩
    have hreada := Descriptor.restore_descriptor a ha []
    have hreadb := Descriptor.restore_descriptor b hb []
    rw [hd, hm, hreadb] at hreada
    exact (congrArg Prod.fst hreada).symm

/-! ### Packages in tables -/

namespace Ty

/-- The named types inside types one by one. -/
theorem mem_allMentions {tys : List Ty} {e : Nat × Option String} :
    e ∈ allMentions tys ↔ ∃ ty ∈ tys, e ∈ ty.mentions := by
  induction tys with
  | nil => simp [allMentions]
  | cons ty tys ih => simp [allMentions, ih]

/-- The named types inside fields one by one. -/
theorem mem_fieldMentions {fs : List Field} {e : Nat × Option String} :
    e ∈ fieldMentions fs ↔ ∃ f ∈ fs, e ∈ f.type.mentions := by
  induction fs with
  | nil => simp [fieldMentions]
  | cons f fs ih => simp [fieldMentions, ih]

/-- The named types inside methods one by one. -/
theorem mem_methodMentions {ms : List Method} {e : Nat × Option String} :
    e ∈ methodMentions ms ↔ ∃ m ∈ ms, e ∈ m.type.mentions := by
  induction ms with
  | nil => simp [methodMentions]
  | cons m ms ih => simp [methodMentions, ih]

/-- The named types inside a function type are those inside its parts. -/
theorem mem_mentions_func {recv : Option Ty} {ps rs : List Ty} {v : Bool}
    {e : Nat × Option String} (he : e ∈ (func recv ps rs v).mentions) :
    ∃ ty ∈ recv.toList ++ ps ++ rs, e ∈ ty.mentions := by
  rw [← mem_allMentions]
  cases recv with
  | none => simpa [mentions, mem_allMentions, or_and_right, exists_or] using he
  | some r => simpa [mentions, allMentions, mem_allMentions, or_and_right, exists_or] using he

end Ty

namespace TypeOp

/-- The type that an operation builds mentions no named types but those of its arguments. -/
theorem mentions_of_product? {t : TypeTable} {op : TypeOp} {i : Instance}
    (hi : op.product? t = some i) {e : Nat × Option String} (he : e ∈ i.ref.type.mentions) :
    ∃ r ∈ op.arguments, e ∈ r.type.mentions := by
  have hsignature : ∀ home recv ins outs variadic,
      e ∈ (product?.signature t home recv ins outs variadic).ref.type.mentions →
        ∃ r ∈ recv.toList ++ ins ++ outs, e ∈ r.type.mentions := by
    intro home recv ins outs variadic he
    obtain ⟨ty, hty, hety⟩ := Ty.mem_mentions_func he
    have hmap : ty ∈ (recv.toList ++ ins ++ outs).map TypeRef.type := by
      cases recv <;> simpa using hty
    obtain ⟨r, hr, rfl⟩ := List.mem_map.1 hmap
    exact ⟨r, hr, hety⟩
  cases op with
  | basic home kind =>
      cases hi
      exact absurd he List.not_mem_nil
  | slice home elem | array home len elem | pointer home elem =>
      cases hi
      exact ⟨elem, List.mem_singleton.2 rfl, he⟩
  | map home key value =>
      cases hi
      rcases List.mem_append.1 he with he | he
      · exact ⟨key, by simp [arguments], he⟩
      · exact ⟨value, by simp [arguments], he⟩
  | struct home fields =>
      cases hi
      obtain ⟨f, hf, hef⟩ := Ty.mem_fieldMentions.1 he
      obtain ⟨g, hg, rfl⟩ := List.mem_map.1 hf
      exact ⟨g.type, List.mem_map.2 ⟨g, hg, rfl⟩, hef⟩
  | interface home methods =>
      cases hi
      obtain ⟨m, hm, hem⟩ := Ty.mem_methodMentions.1 he
      obtain ⟨n, hn, rfl⟩ := List.mem_map.1 hm
      exact ⟨n.type, List.mem_map.2 ⟨n, List.mem_mergeSort.1 hn, rfl⟩, hem⟩
  | func home recv ins outs variadic | owned home recv ins outs variadic =>
      cases hi
      exact hsignature _ _ _ _ _ he
  | named home name package | setUnderlying type underlying | addMethod type name method =>
      cases hi

end TypeOp

/-- Every number of a named type stands for one package, and the types that are held mention named
types under their packages. -/
def TypeTable.Packaged (t : TypeTable) : Prop :=
  ∃ packages : List (Option String),
    packages.length = t.named.length ∧ ∀ r, t.Held r → r.type.Packaged packages

namespace TypeTable

/-- The empty table holds nothing. -/
theorem empty_packaged : empty.Packaged :=
  ⟨[], rfl, fun r hr => by cases hr⟩

/-- Operations keep named types apart from one another by their numbers. -/
theorem Packaged.step {t t' : TypeTable} {op : TypeOp} (hfits : op.Fits t)
    (hstep : TypeOp.Step t op t') (ht : t.Packaged) : t'.Packaged := by
  obtain ⟨packages, hlength, hheld⟩ := ht
  cases hstep with
  | refused => exact ⟨packages, hlength, hheld⟩
  | built hentry =>
      rename_i i _
      refine ⟨packages, (t.intern_named i).symm ▸ hlength, fun r hr => ?_⟩
      rcases held_intern_iff.1 hr with hr | rfl
      · exact hheld r hr
      · intro e he
        obtain ⟨s, hs, hes⟩ := TypeOp.mentions_of_product? hentry he
        exact hheld s (hfits s hs) e hes
  | declared home name package =>
      refine ⟨packages ++ [package], ?_, fun r hr => ?_⟩
      · rw [intern_named, declare, List.length_append, List.length_append, hlength]
        rfl
      · rcases held_intern_iff.1 hr with hr | rfl
        · intro e he
          have hpackage := hheld r hr e he
          rw [List.getElem?_append_left (List.getElem?_eq_some_iff.1 hpackage).1]
          exact hpackage
        · intro e he
          rw [List.mem_singleton.1 he, ← hlength]
          exact List.getElem?_concat_length
  | defined => exact ⟨packages, hlength.trans (List.length_modify _ _ _).symm, hheld⟩
  | extended => exact ⟨packages, hlength.trans (List.length_modify _ _ _).symm, hheld⟩

/-- The reverse map finds a type if there is one with the descriptor, and gives such a type. -/
theorem InStep.ofDescriptor?_rtype {t : TypeTable} (ht : t.InStep) {a : TypeRef} (ha : t.Held a) :
    ∃ b, t.ofDescriptor? a.home (t.rtype a) = some b ∧ t.Held b ∧ b.home = a.home ∧
      t.rtype b = t.rtype a := by
  obtain ⟨i, hi, rfl⟩ := held_iff.1 ha
  have hfound : (t.instances.find? fun j =>
      j.ref.home == i.ref.home && j.descriptor == t.rtype i.ref).isSome = true := by
    refine List.find?_isSome.2 ⟨i, hi, ?_⟩
    simp [ht.rtype_eq, ht.built i hi]
  obtain ⟨j, hj⟩ := Option.isSome_iff_exists.1 hfound
  have hmem := List.mem_of_find?_eq_some hj
  have hsame := List.find?_some hj
  simp only [Bool.and_eq_true, beq_iff_eq] at hsame
  refine ⟨j.ref, by rw [ofDescriptor?, hj, Option.map_some], held_iff.2 ⟨j, hmem, rfl⟩, hsame.1, ?_⟩
  rw [← hsame.2, ht.built j hmem, ht.rtype_eq]

end TypeTable

namespace TypeOp

/-- **Descriptors tell types apart.**  After any operations in any universes, two types become the
same once every method inside them is made the plain function that takes its receiver first exactly
if they have the same descriptor and embed the same of their fields.  So types without methods that
embed the same fields have different descriptors unless they are the same, and the reverse map
gives such a type back, if no other kind of type of its universe shares the descriptor. -/
theorem performAll_identity (ops : List TypeOp) (hops : FitsAll ops .empty) :
    (∀ a b, (tableAfter ops).Held a → (tableAfter ops).Held b →
      (a.type.plain = b.type.plain ↔
        (tableAfter ops).rtype a = (tableAfter ops).rtype b ∧ a.type.marks = b.type.marks)) ∧
    (∀ a b, (tableAfter ops).Held a → (tableAfter ops).Held b →
      a.type.plain = a.type → b.type.plain = b.type → a.type.marks = b.type.marks →
      a.type ≠ b.type → (tableAfter ops).rtype a ≠ (tableAfter ops).rtype b) ∧
    ∀ a, (tableAfter ops).Held a →
      (∀ b, (tableAfter ops).Held b → b.home = a.home →
        (tableAfter ops).rtype b = (tableAfter ops).rtype a →
        b.type.plain = b.type ∧ b.type.marks = a.type.marks) →
      (tableAfter ops).ofDescriptor? a.home ((tableAfter ops).rtype a) = some a := by
  have hin : (tableAfter ops).InStep := (performAll_inStep TypeTable.empty_inStep ops).1
  obtain ⟨packages, -, hpackages⟩ : (tableAfter ops).Packaged :=
    hops.invariant (fun _ _ _ hfits hstep => TypeTable.Packaged.step hfits hstep)
      TypeTable.empty_packaged
  have hiff : ∀ a b, (tableAfter ops).Held a → (tableAfter ops).Held b →
      (a.type.plain = b.type.plain ↔
        (tableAfter ops).rtype a = (tableAfter ops).rtype b ∧ a.type.marks = b.type.marks) := by
    intro a b ha hb
    rw [hin.rtype_eq, hin.rtype_eq]
    exact Ty.plain_eq_iff (hpackages a ha) (hpackages b hb)
  refine ⟨hiff, fun a b ha hb hpa hpb hmarks hne hsame => ?_, fun a ha hshared => ?_⟩
  · have hplain := (hiff a b ha hb).2 ⟨hsame, hmarks⟩
    rw [hpa, hpb] at hplain
    exact hne hplain
  · obtain ⟨b, hfound, hb, hhome, hsame⟩ := hin.ofDescriptor?_rtype ha
    obtain ⟨hpb, hmarks⟩ := hshared b hb hhome hsame
    have hpa := (hshared a ha rfl rfl).1
    have hplain := (hiff b a hb ha).2 ⟨hsame, hmarks⟩
    rw [hpa, hpb] at hplain
    have heq : b = a := by
      obtain ⟨home, ty⟩ := b
      cases hhome
      cases hplain
      rfl
    rw [hfound, heq]

/-- A named type. -/
def counter : TypeRef := ⟨0, .named 0 "Counter" (some "main")⟩

/-- A method of the named type. -/
def counterMethod : TypeRef := ⟨0, .func (some counter.type) [.basic .int] [] false⟩

/-- The plain function that takes the receiver first. -/
def counterFunction : TypeRef := ⟨1, .func none [counter.type, .basic .int] [] false⟩

/-- Pointers to the named type. -/
def counterPointer : TypeRef := ⟨1, .pointer counter.type⟩

/-- A struct that embeds the named type. -/
def counterStruct : TypeRef := ⟨0, .struct [⟨"Counter", counter.type, true⟩]⟩

/-- Building these types in two universes. -/
def counters : List TypeOp :=
  [.named 0 "Counter" (some "main"), .basic 1 .int, .func 0 (some counter) [⟨1, .basic .int⟩] [] false,
    .func 1 none [counter, ⟨1, .basic .int⟩] [] false, .pointer 1 counter,
    .struct 0 [⟨"Counter", counter, true⟩]]

/-- The method and the function are different types with one descriptor; the named type and its
pointers have different descriptors, and the struct is found under its own. -/
theorem counters_identity :
    FitsAll counters .empty ∧ counterMethod.type ≠ counterFunction.type ∧
    (tableAfter counters).rtype counterMethod = (tableAfter counters).rtype counterFunction ∧
    (tableAfter counters).rtype counter ≠ (tableAfter counters).rtype counterPointer ∧
    (tableAfter counters).ofDescriptor? 0 ((tableAfter counters).rtype counterStruct) =
      some counterStruct := by
  have hops : FitsAll counters .empty := by decide +kernel
  obtain ⟨hiff, hdistinct, hreverse⟩ := performAll_identity counters hops
  have hmethod : (tableAfter counters).Held counterMethod := by decide +kernel
  have hfunction : (tableAfter counters).Held counterFunction := by decide +kernel
  have hstruct : (tableAfter counters).Held counterStruct := by decide +kernel
  have hpointer : (tableAfter counters).Held counterPointer := by decide +kernel
  have hnamed : (tableAfter counters).Held counter := by decide +kernel
  have halone : ∀ i ∈ (tableAfter counters).instances, i.ref.home = counterStruct.home →
      (tableAfter counters).rtype i.ref = (tableAfter counters).rtype counterStruct →
      i.ref.type.plain = i.ref.type ∧ i.ref.type.marks = counterStruct.type.marks := by
    decide +kernel
  refine ⟨hops, by decide +kernel, ((hiff _ _ hmethod hfunction).1 (by decide +kernel)).1,
    hdistinct _ _ hnamed hpointer (by decide +kernel) (by decide +kernel) (by decide +kernel)
      (by decide +kernel), hreverse _ hstruct fun b hb => ?_⟩
  obtain ⟨i, hi, rfl⟩ := TypeTable.held_iff.1 hb
  exact halone i hi

/-- A struct that embeds a named type and a struct with a field of the same name and type are
different types without methods, yet they share a descriptor, under which the second is not
found. -/
theorem embedding_shared :
    let embedded : TypeRef := ⟨0, .struct [⟨"A", .named 0 "A" none, true⟩]⟩
    let plain : TypeRef := ⟨0, .struct [⟨"A", .named 0 "A" none, false⟩]⟩
    let ops : List TypeOp := [.named 0 "A" none, .struct 0 [⟨"A", ⟨0, .named 0 "A" none⟩, true⟩],
      .struct 0 [⟨"A", ⟨0, .named 0 "A" none⟩, false⟩]]
    FitsAll ops .empty ∧ (tableAfter ops).Held embedded ∧ (tableAfter ops).Held plain ∧
      embedded.type.plain ≠ plain.type.plain ∧
      (tableAfter ops).rtype embedded = (tableAfter ops).rtype plain ∧
      (tableAfter ops).ofDescriptor? 0 ((tableAfter ops).rtype plain) = some embedded := by
  decide +kernel

end TypeOp

end ScriptCore
