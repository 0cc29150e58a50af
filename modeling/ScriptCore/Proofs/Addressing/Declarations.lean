import ScriptCore.Proofs.Addressing.Elaboration
import ScriptCore.Proofs.Declaration.Loading

/-!
# Declarations with checked addresses

The declarations of a batch, one after the other: whatever is declared or defined gets its place
behind what was there before the batch, and its code keeps to the slots of the package and to the
functions of the host.

`Since` says how a state of the compilation comes from the state before the batch.  Functions are
declared before any of them is defined, so a definition only fills a slot of its own batch.

Main statements: `declareDecl_matches`, `defineRoutine_matches` and `defineBody_matches`.
-/

namespace ScriptCore

open Code

/-- The world around all functions: constants may be functions of the host, and names stand for
slots of the package other than those of `entries`. -/
def World.outside (hosts slots : Nat) (entries : List Nat) : World :=
  ⟨[], slots, (· < hosts), fun s => s < slots ∧ s ∉ entries⟩

/-- The world outside of all functions, in which nothing is declared but for the package. -/
def World.package (hosts slots : Nat) (entries : List Nat) : World :=
  (World.outside hosts slots entries).push .empty

/-- Records of the package only grow. -/
theorem Code.Roomier.package {n n' : Nat} (h : n ≤ n') : Roomier [n] [n'] :=
  .cons h (.refl [])

/-- What a name stands for stays where it is. -/
theorem Entity.Within.mono {w w' : World} {e : Entity} (h : e.Within w) (hle : w.Le w') :
    e.Within w' := by
  cases e with
  | var b => exact World.Covers.mono (a := b) h hle
  | func b => exact World.Covers.mono (a := b) h hle
  | package p => exact World.Covers.mono (a := p.members) h hle
  | const _ _ => exact trivial
  | type _ => exact trivial

namespace World

variable {hosts n n' : Nat} {entries entries' : List Nat}

/-- More slots of the package, and names stand for those that they stood for. -/
theorem outside_le (h : n ≤ n') (hentries : ∀ s < n, s ∈ entries' → s ∈ entries) :
    (World.outside hosts n entries).Le (.outside hosts n' entries') :=
  ⟨.package h, h, fun _ h => h,
    fun s hs => ⟨Nat.lt_of_lt_of_le hs.1 h, fun hmem => hs.2 (hentries s hs.1 hmem)⟩, rfl⟩

/-- More slots of the package, and names stand for those that they stood for. -/
theorem package_le (h : n ≤ n') (hentries : ∀ s < n, s ∈ entries' → s ∈ entries) :
    (World.package hosts n entries).Le (.package hosts n' entries') := by
  have houtside : (World.outside hosts n entries).Le (.outside hosts n' entries') :=
    outside_le h hentries
  obtain ⟨hshape, hglobals, hallowed, hnamed, -⟩ := houtside
  exact ⟨.cons (Nat.le_refl _) hshape, hglobals, hallowed, hnamed, rfl⟩

end World

/-- A slot of the package holds a function of the package or of the host, which has so many
functions. -/
inductive Package.Has (p : Package) (hosts slot : Nat) : Function → Prop
  | closure {k : Nat} {name : Name} {body : Body}
      (value : p.globals[slot]? = some (.func (hosts + k) name))
      (function : p.functions[k]? = some (name, body)) :
      Has p hosts slot (.closure body Machine.globals)
  | host {number : Nat} {name : Name} (value : p.globals[slot]? = some (.func number name))
      (lt : number < hosts) : Has p hosts slot (.host number)

/-- There is such a slot. -/
theorem Package.Has.lt_size {p : Package} {hosts slot : Nat} {f : Function}
    (h : p.Has hosts slot f) : slot < p.globals.size := by
  cases h with
  | closure value _ | host value _ => exact (Array.getElem?_eq_some_iff.1 value).1

/-- Functions and slots that were there are still there. -/
theorem Package.Has.mono {p p' : Package} {hosts slot : Nat} {f : Function}
    (h : p.Has hosts slot f) (hslot : p'.globals[slot]? = p.globals[slot]?)
    (hfunctions : ∀ k < p.functions.size, p'.functions[k]? = p.functions[k]?) :
    p'.Has hosts slot f := by
  cases h with
  | closure value function =>
      exact .closure (hslot.trans value)
        ((hfunctions _ (Array.getElem?_eq_some_iff.1 function).1).trans function)
  | host value lt => exact .host (hslot.trans value) lt

namespace Compile

variable {α β : Type} {c c' : Compiler}

/-- Two steps do the same on a state, and what they leave has a property. -/
structure Matches (c : Compiler) (p q : Compile α) (Q : α → Compiler → Prop) : Prop where
  same : p c = q c
  leaves : ∀ a c', p c = .ok (a, c') → Q a c'

namespace Matches

variable {p q : Compile α} {Q R : α → Compiler → Prop} {S : β → Compiler → Prop}

/-- A result. -/
theorem pure {a : α} (h : Q a c) : Matches c (Pure.pure a) (Pure.pure a) Q := by
  refine ⟨rfl, ?_⟩
  rintro b c' ⟨⟩
  exact h

/-- A failure. -/
theorem fail (f : Fault) : Matches c (Compile.fail f : Compile α) (Compile.fail f) Q := by
  refine ⟨rfl, ?_⟩
  rintro b c' ⟨⟩

/-- One step after another. -/
theorem bind {p q : Compile β} {f g : β → Compile α} (h : Matches c p q S)
    (hf : ∀ b c', S b c' → Matches c' (f b) (g b) Q) : Matches c (p >>= f) (q >>= g) Q := by
  have hbind : ∀ (p : Compile β) (f : β → Compile α),
      (p >>= f) c = (p c).bind fun r => f r.1 r.2 := fun _ _ => rfl
  obtain ⟨hsame, hleaves⟩ := h
  cases hp : p c with
  | error e => exact ⟨by rw [hbind, hbind, ← hsame, hp]; rfl, by rw [hbind, hp]; rintro _ _ ⟨⟩⟩
  | ok r =>
      obtain ⟨hnext, hlast⟩ := hf r.1 r.2 (hleaves r.1 r.2 hp)
      exact ⟨by rw [hbind, hbind, ← hsame, hp]; exact hnext, by rw [hbind, hp]; exact hlast⟩

/-- A weaker property. -/
theorem imp (h : Matches c p q R) (hQ : ∀ a c', R a c' → Q a c') : Matches c p q Q :=
  ⟨h.same, fun a c' ha => hQ a c' (h.leaves a c' ha)⟩

/-- What the steps gave is known besides. -/
theorem known (h : Matches c p q Q) : Matches c p q fun a c' => p c = .ok (a, c') ∧ Q a c' :=
  ⟨h.same, fun a c' ha => ⟨ha, h.leaves a c' ha⟩⟩

/-- Errors that get a place. -/
theorem at' (span : Span) (h : Matches c p q Q) :
    Matches c (Compile.at' span p) (Compile.at' span q) Q := by
  refine ⟨by simp only [Compile.at', h.same], fun a c' ha => h.leaves a c' ?_⟩
  unfold Compile.at' at ha
  cases hp : p c with
  | error e => rw [hp] at ha; cases ha
  | ok r => rw [hp] at ha; exact ha

/-- A choice. -/
theorem ite {P : Prop} [Decidable P] {p' q' : Compile α} (hp : P → Matches c p q Q)
    (hp' : ¬P → Matches c p' q' Q) : Matches c (if P then p else p') (if P then q else q') Q := by
  by_cases h : P
  · rw [if_pos h, if_pos h]
    exact hp h
  · rw [if_neg h, if_neg h]
    exact hp' h

/-- A look at the state. -/
theorem get {f g : Compiler → Compile α} (h : Matches c (f c) (g c) Q) :
    Matches c (MonadState.get >>= f) (MonadState.get >>= g) Q :=
  ⟨h.same, h.leaves⟩

/-- A look at the types. -/
theorem types {f g : TypeTable → Compile α} (h : Matches c (f c.types) (g c.types) Q) :
    Matches c (Compile.types >>= f) (Compile.types >>= g) Q :=
  ⟨h.same, h.leaves⟩

/-- A change of the state. -/
theorem modify {f : Compiler → Compiler} {Q : Unit → Compiler → Prop} (h : Q () (f c)) :
    Matches c (MonadState.modifyGet fun c => ((), f c) : Compile Unit)
      (MonadState.modifyGet fun c => ((), f c)) Q := by
  refine ⟨rfl, ?_⟩
  rintro a c' ⟨⟩
  exact h

/-- Steps that agree. -/
theorem of_agrees {w w' : World} {T : α → Prop} (hc : c.Fits w) (h : Agrees w p q w' T) :
    Matches c p q fun a c' => c.Alike c' ∧ c'.Fits w' ∧ T a :=
  ⟨(h c hc).same, fun a c' ha =>
    ⟨(h c hc).alike a c' ha, ((h c hc).leaves a c' ha).1, ((h c hc).leaves a c' ha).2⟩⟩

/-- A rule that needs nothing but what it is given. -/
theorem rule {f : TypeTable → Except Fault α} {T : α → Prop} (h : ∀ t, Yields T (f t)) :
    Matches c (Compile.rule f) (Compile.rule f) fun a c' => c' = c ∧ T a := by
  refine .types ?_
  cases hf : f c.types with
  | error e => exact .fail e
  | ok a => exact .pure ⟨rfl, h _ a hf⟩

end Matches

/-! ### States since the beginning of a batch -/

/-- How a state comes from the state before a batch.  What was there is still there, the slots
`added` are those of `init` functions that were declared since, and `known` names are those of
functions that have a slot in this batch. -/
structure Since (before : Compiler) (known : Name → Prop) (added : List Nat) (c : Compiler) :
    Prop where
  hosts : c.hosts = before.hosts
  fits : c.Fits (.package before.hosts.count c.globals.size c.initFuncs)
  size : before.globals.size ≤ c.globals.size
  globals : ∀ s < before.globals.size, c.globals[s]? = before.globals[s]?
  functions : ∀ k < before.functions.size, c.functions[k]? = before.functions[k]?
  initCode : c.initCode = before.initCode
  initFuncs : c.initFuncs = before.initFuncs ++ added
  newer : ∀ s ∈ added, before.globals.size ≤ s
  entries : ∀ s ∈ c.initFuncs, s < c.globals.size
  bodies : ∀ f ∈ c.functions,
    (World.outside before.hosts.count c.globals.size c.initFuncs).Holds (.literal f.2)
  values : ∀ v ∈ c.globals, v.Only (· < before.hosts.count + c.functions.size)
  recent : ∀ name, known name → ∀ b, c.bindings.lookup name = some b →
    before.globals.size ≤ b.slot

namespace Since

variable {before : Compiler} {known : Name → Prop} {added : List Nat}

/-- Types and frames do not matter. -/
theorem alike (h : Since before known added c) (hc : c.Alike c')
    (hfits : c'.Fits (.package before.hosts.count c.globals.size c.initFuncs)) :
    Since before known added c' := by
  rw [Compiler.Alike] at hc
  rw [hc] at hfits ⊢
  exact ⟨h.hosts, hfits, h.size, h.globals, h.functions, h.initCode, h.initFuncs, h.newer,
    h.entries, h.bodies, h.values, h.recent⟩

/-- A step that agrees outside of all functions. -/
theorem step {p q : Compile α} {Q : α → Prop} (h : Since before known added c)
    (hp : Agrees (.package before.hosts.count c.globals.size c.initFuncs) p q
      (.package before.hosts.count c.globals.size c.initFuncs) Q) :
    Matches c p q fun a c' => Since before known added c' ∧ c.Alike c' ∧ Q a :=
  (Matches.of_agrees h.fits hp).imp fun _ _ ⟨hc, hfits, ha⟩ => ⟨h.alike hc hfits, hc, ha⟩

/-- Nothing that matters here changes. -/
theorem congr (h : Since before known added c) (hhosts : c'.hosts = c.hosts)
    (hfits : c'.Fits (.package before.hosts.count c.globals.size c.initFuncs))
    (hglobals : c'.globals = c.globals) (hfunctions : c'.functions = c.functions)
    (hcode : c'.initCode = c.initCode) (hentries : c'.initFuncs = c.initFuncs)
    (hbindings : c'.bindings = c.bindings) : Since before known added c' := by
  constructor
  · rw [hhosts, h.hosts]
  · rw [hglobals, hentries]
    exact hfits
  · rw [hglobals]
    exact h.size
  · rw [hglobals]
    exact h.globals
  · rw [hfunctions]
    exact h.functions
  · rw [hcode, h.initCode]
  · rw [hentries, h.initFuncs]
  · exact h.newer
  · rw [hentries, hglobals]
    exact h.entries
  · rw [hfunctions, hglobals, hentries]
    exact h.bodies
  · rw [hglobals, hfunctions]
    exact h.values
  · rw [hbindings]
    exact h.recent

/-- More names are known. -/
theorem knows {more : Name → Prop} (h : Since before known added c)
    (hmore : ∀ n, more n → known n) : Since before more added c :=
  { h with recent := fun name hname => h.recent name (hmore name hname) }

/-- Names may still stand for the slots for which they stood. -/
theorem named (h : Since before known added c) (s : Nat)
    (hs : s < before.globals.size ∧ s ∉ before.initFuncs) :
    s < c.globals.size ∧ s ∉ c.initFuncs := by
  refine ⟨Nat.lt_of_lt_of_le hs.1 h.size, fun hmem => ?_⟩
  rw [h.initFuncs] at hmem
  rcases List.mem_append.1 hmem with hmem | hmem
  · exact hs.2 hmem
  · exact Nat.not_lt_of_le (h.newer s hmem) hs.1

/-- The slot of an `init` function exists. -/
theorem lt_of_added (h : Since before known added c) {s : Nat} (hs : s ∈ added) :
    s < c.globals.size :=
  h.entries s (by rw [h.initFuncs]; exact List.mem_append_right _ hs)

/-- A new slot is none of an `init` function. -/
theorem covers_new (h : Since before known added c) {n : Nat} (hn : c.globals.size < n) (ty : Ty) :
    (World.package before.hosts.count n c.initFuncs).Covers (⟨c.globals.size, ty⟩ : Binding) :=
  ⟨hn, hn, fun hmem => Nat.lt_irrefl _ (h.entries _ hmem)⟩

end Since

variable {before : Compiler} {known : Name → Prop} {added : List Nat}

/-! ### Names and slots of the package -/

/-- A name stands for something that lies in the package. -/
theorem bindEntity_matches (h : Since before known added c) (name : Name) {e : Entity}
    (he : e.Within (.package before.hosts.count c.globals.size c.initFuncs)) :
    Matches c (bindEntity name e) (bindEntity name e) fun _ c' =>
      Since before known added c' ∧ c'.globals = c.globals ∧ c'.functions = c.functions := by
  refine .modify ⟨h.congr rfl ⟨h.fits.frames, h.fits.globals, ?_, h.fits.methods, h.fits.hosts⟩
    rfl rfl rfl rfl rfl, rfl, rfl⟩
  intro x hx
  rcases List.mem_cons.1 hx with rfl | hx
  · exact he
  · exact h.fits.names x hx

/-- A state whose package has more slots fits. -/
theorem fits_globals {hosts : Nat} {gs : Array Value} {entries : List Nat}
    (h : c.Fits (.package hosts c.globals.size c.initFuncs)) (hle : c.globals.size ≤ gs.size)
    (hentries : ∀ s < c.globals.size, s ∈ entries → s ∈ c.initFuncs) :
    ({ c with globals := gs, initFuncs := entries } : Compiler).Fits
      (.package hosts gs.size entries) := by
  have hmore : (World.package hosts c.globals.size c.initFuncs).Le
      (.package hosts gs.size entries) := World.package_le hle hentries
  exact ⟨h.frames, rfl, fun e he => (h.names e he).mono hmore,
    fun e he => (h.methods e he).mono hmore,
    fun f hf => h.hosts.funcs f hf, fun p hp f hf => h.hosts.packages p hp f hf⟩

/-- A new slot of the package comes last. -/
theorem newGlobal_matches (h : Since before known added c) {v : Value}
    (hv : v.Only (· < before.hosts.count + c.functions.size)) :
    Matches c (newGlobal v) (newGlobal v) fun slot c' =>
      Since before known added c' ∧ slot = c.globals.size ∧ c'.globals = c.globals.push v ∧
        c'.functions = c.functions ∧ c'.bindings = c.bindings ∧ c'.initFuncs = c.initFuncs := by
  refine ⟨rfl, ?_⟩
  rintro slot c' ⟨⟩
  have hsize : (c.globals.push v).size = c.globals.size + 1 := Array.size_push v
  have hle : c.globals.size ≤ (c.globals.push v).size := by omega
  refine ⟨⟨h.hosts, fits_globals h.fits hle fun _ _ h => h, Nat.le_trans h.size hle,
    fun s hs => ?_, h.functions, h.initCode, h.initFuncs, h.newer,
    fun s hs => Nat.lt_of_lt_of_le (h.entries s hs) hle,
    fun f hf => (h.bodies f hf).mono (World.outside_le hle fun _ _ h => h), fun x hx => ?_,
    h.recent⟩, rfl, rfl, rfl, rfl, rfl⟩
  · rw [← h.globals s hs, Array.getElem?_push, if_neg (by have := h.size; omega)]
  · rcases Array.mem_push.1 hx with hx | rfl
    · exact h.values x hx
    · exact hv

/-- A slot of this batch is filled. -/
theorem setGlobal_matches (h : Since before known added c) {slot : Nat} {v : Value}
    (hslot : before.globals.size ≤ slot)
    (hv : v.Only (· < before.hosts.count + c.functions.size)) :
    Matches c (setGlobal slot v) (setGlobal slot v) fun _ c' => Since before known added c' := by
  have hsize : (c.globals.setIfInBounds slot v).size = c.globals.size := Array.size_setIfInBounds
  refine .modify ⟨h.hosts, fits_globals h.fits (by omega) fun _ _ h => h, ?_, fun s hs => ?_,
    h.functions, h.initCode, h.initFuncs, h.newer, fun s hs => ?_, fun f hf => ?_,
    fun x hx => ?_, h.recent⟩
  · exact hsize.symm ▸ h.size
  · rw [← h.globals s hs]
    exact Array.getElem?_setIfInBounds_ne (by omega)
  · exact hsize.symm ▸ h.entries s hs
  · exact hsize.symm ▸ h.bodies f hf
  · rcases Array.mem_or_eq_of_mem_setIfInBounds hx with hx | rfl
    · exact h.values x hx
    · exact hv

/-- A function gets a slot.  It may be one of an `init` function, since no name stands for it. -/
theorem Since.newSlot (h : Since before known added c) (name : Name) (ty : Ty) {more : List Nat}
    (hmore : ∀ s ∈ more, s = c.globals.size) :
    Since before (fun n => known n ∨ n = name) (added ++ more) { c with
      globals := c.globals.push .nil
      bindings := (name, ⟨c.globals.size, ty⟩) :: c.bindings
      initFuncs := c.initFuncs ++ more } := by
  have hsize : (c.globals.push .nil).size = c.globals.size + 1 := Array.size_push _
  have hle : c.globals.size ≤ (c.globals.push .nil).size := by omega
  have hentries : ∀ s < c.globals.size, s ∈ c.initFuncs ++ more → s ∈ c.initFuncs :=
    fun s hs hmem => (List.mem_append.1 hmem).resolve_right fun h => Nat.ne_of_lt hs (hmore s h)
  obtain ⟨hframes, hglobals, hnames, hmethods, hhosts⟩ := fits_globals h.fits hle hentries
  refine ⟨h.hosts, ⟨hframes, hglobals, hnames, hmethods, hhosts.1, hhosts.2⟩,
    Nat.le_trans h.size hle, fun s hs => ?_, h.functions, h.initCode, ?_,
    List.forall_mem_append.2 ⟨h.newer, fun s hs => hmore s hs ▸ h.size⟩, fun s hs => ?_,
    fun f hf => (h.bodies f hf).mono (World.outside_le hle hentries), fun x hx => ?_,
    fun n hn b hb => ?_⟩
  · rw [← h.globals s hs, Array.getElem?_push, if_neg (by have := h.size; omega)]
  · simp only [h.initFuncs, List.append_assoc]
  · rw [hsize]
    rcases List.mem_append.1 hs with hs | hs
    · exact Nat.lt_succ_of_lt (h.entries s hs)
    · exact Nat.lt_succ_of_le (Nat.le_of_eq (hmore s hs))
  · rcases Array.mem_push.1 hx with hx | rfl
    · exact h.values x hx
    · trivial
  · rw [List.lookup_cons] at hb
    split at hb
    · cases hb
      exact h.size
    · next hne => exact h.recent n (hn.resolve_right (by simpa using hne)) b hb

/-- A function gets a slot before it is known by name. -/
theorem newFuncSlot_matches (h : Since before known added c) (name : Name) (ty : Ty) :
    Matches c (newFuncSlot name ty) (newFuncSlot name ty) fun b c' =>
      Since before (fun n => known n ∨ n = name) added c' ∧
        (World.package before.hosts.count c'.globals.size c'.initFuncs).Covers b ∧
        c'.bindings.lookup name = some b ∧
        Since before (fun n => known n ∨ n = name) (added ++ [b.slot])
          { c' with initFuncs := c'.initFuncs ++ [b.slot] } := by
  refine ⟨rfl, ?_⟩
  rintro b c' ⟨⟩
  have hnew := h.newSlot name ty (List.forall_mem_nil _)
  simp only [List.append_nil] at hnew
  exact ⟨hnew, h.covers_new (by rw [Array.size_push]; exact Nat.lt_succ_self _) ty,
    by rw [List.lookup_cons_self], h.newSlot name ty (by simp)⟩

/-! ### Declaring -/

/-- Name of the function or method that a declaration makes. -/
def routineName? (d : Decl) : Option Name :=
  match d.kind, d.node with
  | .func, .func _ | .method, .func _ => some d.name
  | _, _ => none

/-- A type expression outside of all functions. -/
theorem topType_matches (h : Since before known added c) (ty : TypeExpr) :
    Matches c (typeExpr ty) (Checked.typeExpr Checked.top ty) fun _ c' =>
      Since before known added c' ∧ c.Alike c' :=
  (h.step (typeExpr_keeps ty (.package before.hosts.count c.globals.size c.initFuncs))).imp
    fun _ _ ⟨h', hc, _⟩ => ⟨h', hc⟩

/-- A signature outside of all functions. -/
theorem topHeading_matches (h : Since before known added c) (sig : Sig) :
    Matches c (heading sig) (Checked.heading Checked.top sig) fun hd c' =>
      Since before known added c' ∧ Names none sig none hd :=
  (h.step (heading_agrees sig (.package before.hosts.count c.globals.size c.initFuncs))).imp
    fun _ _ ⟨h', _, hn⟩ => ⟨h', hn⟩

/-- A type is built. -/
theorem built_matches (h : Since before known added c) (b : Build TypeRef) :
    Matches c (build b) (build b) fun _ c' => Since before known added c' :=
  (h.step (build_agrees b)).imp fun _ _ ⟨h', _⟩ => h'

/-- A type is completed. -/
theorem completed_matches (h : Since before known added c) (b : Build Unit) :
    Matches c (complete b) (complete b) fun _ c' => Since before known added c' :=
  (h.step (complete_agrees b)).imp fun _ _ ⟨h', _⟩ => h'

/-- A new named type. -/
theorem namedEntity_matches (h : Since before known added c) (name : Name) :
    Matches c (do let ty ← newNamedType name; bindEntity name (.type ty); return ty)
      (do let ty ← newNamedType name; bindEntity name (.type ty); return ty)
      fun _ c' => Since before known added c' :=
  .bind (built_matches h _) fun ty _ h' =>
    .bind (bindEntity_matches h' name (e := .type ty) trivial) fun _ _ ⟨h'', _⟩ => .pure h''

/-- A type under a name of its own. -/
theorem declaredType_matches (h : Since before known added c) (name : Name) :
    Matches c (declaredType name) (declaredType name) fun _ c' => Since before known added c' := by
  refine .get ?_
  split
  · exact .pure h
  · exact namedEntity_matches h name

/-- A type declaration. -/
theorem declareType_matches (h : Since before known added c) (name : Name) (spec : TypeSpec) :
    Matches c (declareType name spec) (Checked.declareType name spec)
      fun _ c' => Since before known added c' := by
  refine .ite (fun _ => ?_) fun _ => ?_
  · exact .bind (topType_matches h spec.type) fun ty _ ⟨h', _⟩ =>
      (bindEntity_matches h' name (e := .type ty) trivial).imp fun _ _ h'' => h''.1
  · exact .bind (declaredType_matches h name) fun _ c' h' =>
      .bind (topType_matches h' spec.type) fun _ c'' ⟨h'', _⟩ => completed_matches h'' _

/-- A function declaration. -/
theorem declareFunc_matches (h : Since before known added c) (name : Name) (decl : FuncDecl) :
    Matches c (declareFunc name decl) (Checked.declareFunc name decl) fun _ c' =>
      ∃ more, (decl.name ≠ "init" → more = []) ∧
        (decl.name = "init" → ∃ b, c'.bindings.lookup name = some b ∧ more = [b.slot]) ∧
        Since before (fun n => known n ∨ n = name) (added ++ more) c' := by
  refine .bind (topHeading_matches h decl.sig) fun hd c₁ ⟨h₁, _⟩ =>
    .bind (built_matches h₁ _) fun ty c₂ h₂ => .bind (newFuncSlot_matches h₂ name ty)
      fun b c₃ ⟨h₃, hb, hlookup, hentry⟩ => .ite (fun hinit => ?_) fun hne => ?_
  · exact .modify ⟨_, fun hne => absurd hinit hne, fun _ => ⟨b, hlookup, rfl⟩, hentry⟩
  · refine .bind (S := fun _ c' => Since before (fun n => known n ∨ n = name) added c' ∧
      c'.globals = c₃.globals ∧ c'.initFuncs = c₃.initFuncs) (.modify ⟨?_, rfl, rfl⟩)
      fun _ c₄ ⟨h₄, hglobals, hentries⟩ => (bindEntity_matches h₄ name ?_).imp
        fun _ _ h₅ => ⟨[], fun _ => rfl, fun hinit => absurd hinit hne,
          by rw [List.append_nil]; exact h₅.1⟩
    · exact h₃.congr rfl ⟨h₃.fits.frames, h₃.fits.globals, h₃.fits.names, h₃.fits.methods,
        h₃.fits.hosts⟩ rfl rfl rfl rfl rfl
    · rw [hglobals, hentries]
      exact hb

/-- A method declaration. -/
theorem declareMethod_matches (h : Since before known added c) (name : Name) (decl : FuncDecl) :
    Matches c (declareMethod name decl) (Checked.declareMethod name decl)
      fun _ c' => Since before (fun n => known n ∨ n = name) added c' := by
  unfold declareMethod Checked.declareMethod
  cases decl.recv with
  | none => exact .fail _
  | some recv =>
      refine .bind (topType_matches h recv.type) fun recvType c₁ ⟨h₁, _⟩ => ?_
      generalize Compiler.pointed recvType = base
      cases base with
      | named id owner package =>
        refine .bind (topHeading_matches h₁ decl.sig) fun hd c₂ ⟨h₂, _⟩ =>
          .bind (built_matches h₂ _) fun ty c₃ h₃ => .bind (completed_matches h₃ _) fun _ c₄ h₄ =>
            .bind (newFuncSlot_matches h₄ name ty) fun b c₅ ⟨h₅, hb, _, _⟩ =>
              .bind (S := fun _ c' => Since before (fun n => known n ∨ n = name) added c')
                (.modify ?_) fun _ c₆ h₆ => .modify ?_
        · refine h₅.congr rfl ⟨h₅.fits.frames, h₅.fits.globals, h₅.fits.names, fun e he => ?_,
            h₅.fits.hosts⟩ rfl rfl rfl rfl rfl
          rcases List.mem_cons.1 he with rfl | he
          · exact hb
          · exact h₅.fits.methods e he
        · exact h₆.congr rfl ⟨h₆.fits.frames, h₆.fits.globals, h₆.fits.names, h₆.fits.methods,
            h₆.fits.hosts⟩ rfl rfl rfl rfl rfl
      | _ => exact .fail _

/-- An import. -/
theorem declareImport_matches (h : Since before known added c) (name : Name) (spec : ImportSpec) :
    Matches c (declareImport name spec) (declareImport name spec)
      fun _ c' => Since before known added c' := by
  refine .get ?_
  split
  · next p hp =>
      have hmem : p ∈ c.hosts.packages := List.mem_reverse.1 (List.mem_of_find?_eq_some hp)
      exact (bindEntity_matches h name (e := .package p) (h.fits.hosts.packages p hmem)).imp
        fun _ _ h' => h'.1
  · exact .fail _

/-- **A declaration gives its function, if it makes one, a slot of the batch.** -/
theorem declareDecl_matches (h : Since before known added c) (d : Decl) :
    Matches c (declareDecl d) (Checked.declareDecl d) fun _ c' =>
      ∃ more, (d.entries = [] → more = []) ∧
        Since before (fun n => known n ∨ routineName? d = some n) (added ++ more) c' := by
  have hnew : ∀ {c' : Compiler} {more : List Nat}, routineName? d = some d.name →
      Since before (fun n => known n ∨ n = d.name) more c' →
      Since before (fun n => known n ∨ routineName? d = some n) more c' := fun hsome h' =>
    h'.knows fun n hn => hn.imp_right fun heq => (Option.some.inj (hsome.symm.trans heq)).symm
  have hplain : ∀ {c' : Compiler},
      Since before (fun n => known n ∨ routineName? d = some n) added c' →
      ∃ more, (d.entries = [] → more = []) ∧
        Since before (fun n => known n ∨ routineName? d = some n) (added ++ more) c' := fun h' =>
    ⟨[], fun _ => rfl, by rw [List.append_nil]; exact h'⟩
  have hsame : ∀ {c' : Compiler}, routineName? d = none → Since before known added c' →
      ∃ more, (d.entries = [] → more = []) ∧
        Since before (fun n => known n ∨ routineName? d = some n) (added ++ more) c' :=
    fun hnone h' => hplain (h'.knows fun n hn => hn.resolve_right (by rw [hnone]; simp))
  obtain ⟨kind, name, node, span, iota, group, seq⟩ := d
  cases kind with
  | typeForward =>
      exact .bind (built_matches h _) fun ty _ h' =>
        (bindEntity_matches h' name (e := .type ty) trivial).imp fun _ _ h'' => hsame rfl h''.1
  | type =>
      cases node with
      | type spec => exact (declareType_matches h name spec).imp fun _ _ h' => hsame rfl h'
      | _ => exact .pure (hsame rfl h)
  | func =>
      cases node with
      | func decl =>
        refine (declareFunc_matches h name decl).imp fun _ _ ⟨more, hmore, _, h'⟩ =>
          ⟨more, fun hnone => hmore fun hinit => ?_, hnew rfl h'⟩
        simp [Decl.entries, hinit] at hnone
      | _ => exact .pure (hsame rfl h)
  | method =>
      cases node with
      | func decl =>
        exact (declareMethod_matches h name decl).imp fun _ _ h' => hplain (hnew rfl h')
      | _ => exact .pure (hsame rfl h)
  | importDecl =>
      cases node with
      | importSpec spec => exact (declareImport_matches h name spec).imp fun _ _ h' => hsame rfl h'
      | _ => exact .pure (hsame rfl h)
  | const | macroDecl | var => exact .pure (hsame rfl h)

/-! ### Defining -/

/-- What the function of a declaration does whose slot is known in the state `c`: it runs its body,
which is compiled in that state, or it is one of the host. -/
inductive Defines (c : Compiler) (name : Name) (decl : FuncDecl) : Function → Prop
  | closure {content : Block} {hd : Heading} {recv : Option (Option Name × Ty)} {body : Body}
      {c₁ c₂ c₃ : Compiler} (given : decl.body = some content)
      (heading : heading decl.sig c = .ok (hd, c₁))
      (receiver : receiver? decl.recv c₁ = .ok (recv, c₂))
      (compiled : inFrame false (assembled (bodyOf recv hd (block content))) c₂ = .ok (body, c₃)) :
      Defines c name decl (.closure body Machine.globals)
  | host {f : HostFunc} (none : decl.body = none) (found : findHost c.hosts.funcs name = some f) :
      Defines c name decl (.host f.number)

/-- A function of the host in a slot of the batch. -/
theorem defineHosted_matches (h : Since before known added c) (name : Name) {b : Binding}
    (hb : before.globals.size ≤ b.slot) :
    Matches c (defineHosted name b) (defineHosted name b) fun _ c' => Since before known added c' ∧
      (b.slot ∈ added → ∃ f, findHost c.hosts.funcs name = some f ∧
        (Package.ofCompiler c').Has before.hosts.count b.slot (.host f.number)) := by
  refine .get ?_
  split
  · exact .fail _
  · next f hf =>
      have hmem := Compiler.findHost_mem hf
      have hlt : f.number < before.hosts.count := h.fits.hosts.funcs f hmem
      refine .bind (S := fun _ c' => c' = c ∧ True) (.rule fun t _ _ => trivial) ?_
      rintro _ _ ⟨rfl, -⟩
      refine (setGlobal_matches h hb (Nat.lt_add_right _ hlt)).known.imp ?_
      rintro _ c' ⟨⟨⟩, h'⟩
      exact ⟨h', fun hslot => ⟨f, hf, .host
        (Array.getElem?_setIfInBounds_self_of_lt (h.lt_of_added hslot)) hlt⟩⟩

/-- Register code does not matter. -/
theorem keepLowered_matches (h : Since before known added c) (name : Name) (decl : FuncDecl)
    (hd : Heading) :
    Matches c (keepLowered name decl hd) (keepLowered name decl hd) fun _ c' =>
      Since before known added c' ∧ c' = { c with lowered := c'.lowered } := by
  refine .types ?_
  split
  · exact .modify ⟨h.congr rfl ⟨h.fits.frames, h.fits.globals, h.fits.names, h.fits.methods,
      h.fits.hosts⟩ rfl rfl rfl rfl rfl, rfl⟩
  · exact .pure ⟨h, rfl⟩
  · exact .fail _

/-- A receiver keeps its name. -/
theorem receiver?_matches (h : Since before known added c) (recv : Option Param) :
    Matches c (receiver? recv) (Checked.receiver? recv) fun r c' =>
      Since before known added c' ∧ r.map Prod.fst = recv.map Param.name := by
  cases recv with
  | none => exact .pure ⟨h, rfl⟩
  | some p =>
      change Matches c (some <$> receiver p) (some <$> Checked.receiver p) _
      rw [map_eq_pure_bind, map_eq_pure_bind]
      exact .bind (S := fun r c' => Since before known added c' ∧ r.1 = p.name)
        (.bind (topType_matches h p.type) fun ty c' ⟨h', _⟩ => .pure ⟨h', rfl⟩)
        fun r c' ⟨h', hr⟩ => .pure ⟨h', congrArg some hr⟩

/-- A new function comes last. -/
theorem addFunction_matches (h : Since before known added c) (name : Name) {body : Body}
    (hbody : (World.outside before.hosts.count c.globals.size c.initFuncs).Holds (.literal body)) :
    Matches c
      (MonadState.modifyGet fun c => ((), { c with functions := c.functions.push (name, body) }))
      (MonadState.modifyGet fun c => ((), { c with functions := c.functions.push (name, body) }))
      fun (_ : Unit) c' =>
        Since before known added c' ∧ c'.functions.size = c.functions.size + 1 := by
  refine .modify ⟨⟨h.hosts, ⟨h.fits.frames, h.fits.globals, h.fits.names, h.fits.methods,
    h.fits.hosts⟩, h.size, h.globals, fun k hk => ?_, h.initCode, h.initFuncs, h.newer, h.entries,
    fun f hf => ?_, fun v hv => ?_, h.recent⟩, Array.size_push _⟩
  · rw [← h.functions k hk, Array.getElem?_push, if_neg]
    rintro rfl
    have hnone := h.functions _ hk
    rw [Array.getElem?_eq_none (Nat.le_refl _), Array.getElem?_eq_getElem hk] at hnone
    cases hnone
  · rcases Array.mem_push.1 hf with hf | rfl
    · exact h.bodies f hf
    · exact hbody
  · exact Value.Only.mono (fun n hn => by
      simp only [Array.size_push]
      omega) v (h.values v hv)

/-- **A function of the batch is defined**: its body keeps to the slots of the package, and its slot
holds its number. -/
theorem defineBody_matches (h : Since before known added c) (name : Name) {b : Binding}
    (hb : before.globals.size ≤ b.slot) (decl : FuncDecl) {content : Block}
    (hcontent : decl.body = some content) :
    Matches c (defineBody name b decl content) (Checked.defineBody name b decl content)
      fun _ c' => Since before known added c' ∧
        (b.slot ∈ added → ∃ f, Defines c name decl f ∧
          (Package.ofCompiler c').Has before.hosts.count b.slot f) := by
  refine .bind (topHeading_matches h decl.sig).known fun hd c₁ ⟨hhead, h₁, hnames⟩ =>
    .bind (receiver?_matches h₁ decl.recv).known fun recv c₂ ⟨hreceiver, h₂, hrecv⟩ => ?_
  have hroutine := routine_agrees (w := .outside before.hosts.count c₂.globals.size c₂.initFuncs)
    (show Names decl.recv decl.sig recv hd from ⟨hrecv, hnames.params, hnames.results⟩)
    (blockTree_agrees content false _ _)
  have hbody := body_agrees (w := .package before.hosts.count c₂.globals.size c₂.initFuncs) false
    hroutine (routine_wellFormed recv hd content) fun _ hc => routine_returns recv hd content hc
  have hassembled := assembled_bodyOf recv hd content
  rw [hassembled]
  refine .bind (h₂.step hbody).known fun body c₃ ⟨hcompiled, h₃, halike, hholds⟩ => .get (.get ?_)
  rw [← hassembled] at hcompiled
  have hdefines : Defines c name decl (.closure body Machine.globals) :=
    .closure hcontent hhead hreceiver hcompiled
  have hsame : c₃.globals.size = c₂.globals.size ∧ c₃.initFuncs = c₂.initFuncs := by
    rw [halike]
    exact ⟨rfl, rfl⟩
  refine .bind (addFunction_matches h₃ name (by rw [hsame.1, hsame.2]; exact hholds)).known
    fun _ c₄ ⟨hadded, h₄, hcount⟩ => ?_
  have hnumber : (Value.func (c₃.hosts.count + c₃.functions.size) name).Only
      (· < before.hosts.count + c₄.functions.size) := by
    rw [hcount, ← h₃.hosts]
    exact Nat.lt_succ_self _
  refine .bind (setGlobal_matches h₄ hb hnumber).known fun _ c₅ ⟨hset, h₅⟩ => ?_
  cases hadded
  cases hset
  -- the slot holds the number of the function that was added
  have hhas : ∀ c' : Compiler, c'.functions = c₃.functions.push (name, body) →
      c'.globals = c₃.globals.setIfInBounds b.slot
        (.func (c₃.hosts.count + c₃.functions.size) name) →
      b.slot ∈ added → ∃ f, Defines c name decl f ∧
        (Package.ofCompiler c').Has before.hosts.count b.slot f := by
    intro c' hfunctions hglobals hslot
    rw [h₃.hosts] at hglobals
    have hfunction : (Package.ofCompiler c').functions[c₃.functions.size]? = some (name, body) := by
      rw [Package.ofCompiler, hfunctions]
      exact Array.getElem?_push_size
    refine ⟨_, hdefines, .closure ?_ hfunction⟩
    change c'.globals[b.slot]? = _
    rw [hglobals]
    exact Array.getElem?_setIfInBounds_self_of_lt (h₃.lt_of_added hslot)
  refine .get (.ite (fun _ => ?_) fun _ => ?_)
  · refine (keepLowered_matches h₅ name decl hd).imp fun _ c₆ ⟨h₆, hlowered⟩ => ⟨h₆, ?_⟩
    rw [hlowered]
    exact hhas _ rfl rfl
  · exact .pure ⟨h₅, hhas _ rfl rfl⟩

/-- The definition of a function or method fills its slot. -/
theorem defineFunc_matches (h : Since before known added c) {name : Name} (hname : known name)
    (decl : FuncDecl) :
    Matches c (defineFunc name decl) (Checked.defineFunc name decl) fun _ c' =>
      Since before known added c' ∧ ∀ b, c.bindings.lookup name = some b →
        b.slot ∈ added → ∃ f, Defines c name decl f ∧
          (Package.ofCompiler c').Has before.hosts.count b.slot f := by
  refine .get ?_
  cases hb : c.bindings.lookup name with
  | none => exact .fail _
  | some b =>
      have hslot := h.recent name hname b hb
      cases hbody : decl.body with
      | none =>
          refine (defineHosted_matches h name hslot).imp fun _ _ ⟨h', hhas⟩ => ⟨h', ?_⟩
          rintro _ ⟨⟩ hadded
          obtain ⟨f, hfound, hf⟩ := hhas hadded
          exact ⟨_, .host hbody hfound, hf⟩
      | some content =>
          refine (defineBody_matches h name hslot decl hbody).imp fun _ _ ⟨h', hhas⟩ => ⟨h', ?_⟩
          rintro _ ⟨⟩
          exact hhas

/-- A constant is no variable. -/
theorem constEntity_within {t : TypeTable} {declared : Option Ty} {k : Constant} {ty : Option Ty} :
    Yields (fun e : Entity => ∀ w, e.Within w) (constEntity t declared k ty) := by
  have hconst : ∀ (k : Constant) (ty : Option Ty) (w : World), (Entity.const k ty).Within w :=
    fun _ _ _ => trivial
  unfold constEntity
  split
  · exact .ok (hconst k ty)
  · next declared =>
      have hrest : Yields (fun e : Entity => ∀ w, e.Within w) (do
          return .const (← k.represent t declared) (some declared)) :=
        .bind fun k => .ok (hconst k _)
      cases ty with
      | none => exact hrest
      | some own => exact .bind fun _ => hrest

/-- The value of a constant declaration. -/
theorem constValue_matches (h : Since before known added c) (d : Decl) :
    Matches c (constValue d) (Checked.constValue d) fun e c' =>
      Since before known added c' ∧ ∀ w, e.Within w := by
  refine .bind (h.step (typeExpr?_keeps d.valueType _)) fun declared c₁ ⟨h₁, _, _⟩ => ?_
  cases d.value with
  | none => exact .fail _
  | some e =>
      refine .bind (h₁.step (operand_stays e _)) fun op c₂ ⟨h₂, _, _⟩ => ?_
      cases op with
      | results call types => exact .fail _
      | term x =>
          cases x with
          | code e ty => exact .fail _
          | const k ty =>
              refine (Matches.rule fun t => constEntity_within).imp ?_
              rintro e _ ⟨rfl, he⟩
              exact ⟨h₂, he⟩

/-- A constant. -/
theorem defineConst_matches (h : Since before known added c) (d : Decl) :
    Matches c (defineConst d) (Checked.defineConst d) fun _ c' => Since before known added c' := by
  have hiota : ∀ {c : Compiler}, Since before known added c → ∀ iota,
      Since before known added { c with iota } := fun h _ =>
    h.congr rfl ⟨h.fits.frames, h.fits.globals, h.fits.names, h.fits.methods, h.fits.hosts⟩
      rfl rfl rfl rfl rfl
  refine .bind (S := fun e c' => Since before known added c' ∧ ∀ w, e.Within w)
    (.bind (S := fun _ c' => Since before known added c') (.modify (hiota h _)) fun _ c₁ h₁ =>
      .bind (constValue_matches h₁ d) fun e c₂ ⟨h₂, he⟩ =>
        .bind (S := fun _ c' => Since before known added c') (.modify (hiota h₂ _)) fun _ c₃ h₃ =>
          .pure ⟨h₃, he⟩)
    fun e c₄ ⟨h₄, he⟩ => (bindEntity_matches h₄ d.name (he _)).imp fun _ _ h₅ => h₅.1

/-- The definition of anything but a variable. -/
theorem defineRoutine_matches (h : Since before known added c) {d : Decl} (hvar : d.kind ≠ .var)
    (hname : ∀ n, routineName? d = some n → known n) :
    Matches c (defineDecl d) (Checked.defineDecl d) fun _ c' => Since before known added c' := by
  obtain ⟨kind, name, node, span, iota, group, seq⟩ := d
  cases kind with
  | func | method =>
      cases node with
      | func decl => exact (defineFunc_matches h (hname name rfl) decl).imp fun _ _ h' => h'.1
      | _ => exact .pure h
  | const => exact defineConst_matches h _
  | var => exact absurd rfl hvar
  | importDecl | macroDecl | type | typeForward => exact .pure h

end Compile

end ScriptCore
