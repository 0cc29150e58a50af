import ScriptCore.Proofs.Addressing.Declarations
import ScriptCore.Proofs.Declaration.Batches

/-!
# Packages with checked addresses

Batch by batch a package gets its slots, its functions and the code that initializes it.  When the
code for a variable is added, all functions declared so far are defined, and neither they nor the
new code can name a slot that does not exist yet.  So there are numbers `slots i` and `funcs i` for
the `i`-th instruction of the initialization: it needs nothing beyond the first `slots i` slots, all
of the first `funcs i` functions keep to these slots, and these slots start with none but these
functions.  What it stores goes to slots between `slots i` and `slots (i + 1)`.

No name stands for the slot of an `init` function, so no code mentions it.

Main statements: `Package.ofItems_eq_checked` (no check of an address fails) and `Package.laid`.
-/

namespace ScriptCore

open Code

/-- How the slots, functions and initial code of a package lie, given the number of host
functions. -/
structure Package.Laid (p : Package) (hosts : Nat) (slots funcs : Nat → Nat) : Prop where
  /-- Code of functions keeps to the slots of the package. -/
  bodies : ∀ f ∈ p.functions, f.2.Within (· < hosts) [p.globals.size]
  /-- Slots start with functions that exist. -/
  values : ∀ v ∈ p.globals, v.Only (· < hosts + p.functions.size)
  /-- The code that initializes the package has no slots of its own. -/
  initSlots : p.init.slots = 0
  /-- It only stores. -/
  initStores : ∀ i ∈ p.init.instrs, i.isStore = true
  slots_mono : ∀ i j, i ≤ j → slots i ≤ slots j
  funcs_mono : ∀ i j, i ≤ j → funcs i ≤ funcs j
  slots_le : ∀ i, slots i ≤ p.globals.size
  funcs_le : ∀ i, funcs i ≤ p.functions.size
  /-- An initializer needs only slots that exist when it is compiled. -/
  needs : ∀ (i : Nat) instr, p.init.instrs[i]? = some instr →
    ∀ x ∈ instr.needs, x.Within (· < hosts) [0, slots i]
  /-- It stores in new slots. -/
  stores : ∀ (i : Nat) instr, p.init.instrs[i]? = some instr →
    ∀ a ∈ instr.stored, a.1 = 1 ∧ slots i ≤ a.2 ∧ a.2 < slots (i + 1)
  /-- The functions that exist then keep to the slots that exist then. -/
  bodiesAt : ∀ i k f, k < funcs i → p.functions[k]? = some f → f.2.Within (· < hosts) [slots i]
  /-- These slots start with these functions. -/
  valuesAt : ∀ i s v, s < slots i → p.globals[s]? = some v → v.Only (· < hosts + funcs i)
  /-- Functions mention no slot of an `init` function, -/
  keep : ∀ f ∈ p.functions, f.2.KeepsTo (fun s => s < p.globals.size ∧ s ∉ p.initFuncs) 0
  /-- nor does the code that initializes the package. -/
  initKeeps : p.init.KeepsTo (fun s => s < p.globals.size ∧ s ∉ p.initFuncs) 0

/-! ### Sequences that go on -/

/-- The sequence that goes on with `a` at `n` and with `b` from then on. -/
def continued (f : Nat → Nat) (n a b : Nat) (j : Nat) : Nat :=
  if j < n then f j else if j = n then a else b

section
variable {f : Nat → Nat} {n a b j : Nat}

/-- Before `n` nothing changes. -/
theorem continued_of_lt (h : j < n) : continued f n a b j = f j :=
  if_pos h

/-- At `n` stands `a`. -/
theorem continued_self : continued f n a b n = a :=
  (if_neg (Nat.lt_irrefl n)).trans (if_pos rfl)

/-- After `n` stands `b`. -/
theorem continued_of_gt (h : n < j) : continued f n a b j = b :=
  (if_neg (by omega)).trans (if_neg (by omega))

/-- From `n` on there is at least `a`. -/
theorem continued_of_ge (hab : a ≤ b) (h : n ≤ j) : a ≤ continued f n a b j := by
  rcases Nat.eq_or_lt_of_le h with rfl | h
  · rw [continued_self]
  · rwa [continued_of_gt h]

/-- The sequence only grows. -/
theorem le_continued (hf : ∀ j, f j ≤ a) (hab : a ≤ b) (j : Nat) : f j ≤ continued f n a b j := by
  rcases Nat.lt_or_ge j n with h | h
  · rw [continued_of_lt h]
  · exact Nat.le_trans (hf j) (continued_of_ge hab h)

/-- The sequence is bounded by its last element. -/
theorem continued_le (hf : ∀ j, f j ≤ a) (hab : a ≤ b) (j : Nat) : continued f n a b j ≤ b := by
  unfold continued
  split
  · exact Nat.le_trans (hf j) hab
  · split
    · exact hab
    · exact Nat.le_refl b

/-- A growing sequence goes on growing. -/
theorem continued_mono (hmono : ∀ i j, i ≤ j → f i ≤ f j) (hf : ∀ j, f j ≤ a) (hab : a ≤ b)
    (i j : Nat) (hij : i ≤ j) : continued f n a b i ≤ continued f n a b j := by
  rcases Nat.lt_or_ge i n with hi | hi
  · rw [continued_of_lt hi]
    exact Nat.le_trans (hmono i j hij) (le_continued hf hab j)
  · rcases Nat.eq_or_lt_of_le hi with rfl | hi
    · rw [continued_self]
      exact continued_of_ge hab hij
    · rw [continued_of_gt hi, continued_of_gt (Nat.lt_of_lt_of_le hi hij)]

end

namespace Compile

variable {hosts : Hosts} {before c c' : Compiler} {known : Name → Prop} {added : List Nat}

/-- A state between two batches. -/
structure Settled (hosts : Hosts) (c : Compiler) : Prop where
  same : c.hosts = hosts
  fits : c.Fits (.package hosts.count c.globals.size c.initFuncs)
  entries : ∀ s ∈ c.initFuncs, s < c.globals.size
  laid : ∃ slots funcs, (Package.ofCompiler c).Laid hosts.count slots funcs

/-- Nothing has happened since. -/
theorem Settled.since (h : Settled hosts before) : Since before (fun _ => False) [] before := by
  obtain ⟨rfl, hfits, hentries, slots, funcs, hlaid⟩ := h
  exact ⟨rfl, hfits, Nat.le_refl _, fun _ _ => rfl, fun _ _ => rfl, rfl,
    (List.append_nil _).symm, List.forall_mem_nil _, hentries,
    fun f hf => ⟨hlaid.bodies f hf, hlaid.keep f hf⟩, hlaid.values, fun _ h => h.elim⟩

/-- The outermost frame has no slots. -/
theorem Since.frame_slots (h : Since before known added c) : c.frame.slots = 0 := by
  have hframes := h.fits.frames
  cases hframes with
  | cons hf _ => exact hf.slots

/-- A batch that adds nothing to the initialization. -/
theorem Settled.of_since (h : Settled hosts before) (hc : Since before known added c) :
    Settled hosts c := by
  obtain ⟨rfl, -, -, slots, funcs, hlaid⟩ := h
  have hinit : (Package.ofCompiler c).init.instrs = (Package.ofCompiler before).init.instrs :=
    hc.initCode
  have hfuncs : ∀ i, funcs i ≤ c.functions.size := fun i => by
    by_contra hlt
    have hk := hlaid.funcs_le i
    have heq := hc.functions c.functions.size (Nat.lt_of_lt_of_le (Nat.lt_of_not_le hlt) hk)
    rw [Array.getElem?_eq_none (Nat.le_refl _)] at heq
    exact absurd (Array.getElem?_eq_none_iff.1 heq.symm) (by
      have hk' : funcs i ≤ before.functions.size := hk
      omega)
  have hkeeps : (Package.ofCompiler c).init.KeepsTo
      (fun s => s < c.globals.size ∧ s ∉ c.initFuncs) 0 := by
    refine .of_parts fun x hx => (hlaid.initKeeps.parts x ?_).mono hc.named
    rwa [Body.parts, hinit] at hx
  refine ⟨hc.hosts, hc.fits, hc.entries, slots, funcs, ?_⟩
  exact ⟨fun f hf => (hc.bodies f hf).within, hc.values, hc.frame_slots,
    hinit ▸ hlaid.initStores, hlaid.slots_mono, hlaid.funcs_mono,
    fun i => Nat.le_trans (hlaid.slots_le i) hc.size, hfuncs, hinit ▸ hlaid.needs,
    hinit ▸ hlaid.stores,
    fun i k f hk hf => hlaid.bodiesAt i k f hk
      ((hc.functions k (Nat.lt_of_lt_of_le hk (hlaid.funcs_le i))).symm.trans hf),
    fun i s v hs hv => hlaid.valuesAt i s v hs
      ((hc.globals s (Nat.lt_of_lt_of_le hs (hlaid.slots_le i))).symm.trans hv),
    fun f hf => (hc.bodies f hf).keepsTo, hkeeps⟩

/-- A batch that adds an instruction to the initialization. -/
theorem Settled.push (h : Settled hosts before) (hc : Since before known [] c)
    (hfunctions : c.functions = before.functions) {i : Instr} (hstore : i.isStore = true)
    (hneeds : (World.package before.hosts.count before.globals.size before.initFuncs).Admits
      i.needs)
    (hstored : ∀ a ∈ i.stored, a.1 = 1 ∧ before.globals.size ≤ a.2 ∧ a.2 < c.globals.size) :
    Settled hosts { c with initCode := c.initCode.push i } := by
  obtain ⟨rfl, -, hentries, slots, funcs, hlaid⟩ := h
  have hslots : ∀ j, slots j ≤ before.globals.size := hlaid.slots_le
  have hfuncs : ∀ j, funcs j ≤ c.functions.size := fun j => hfunctions ▸ hlaid.funcs_le j
  -- the instruction comes last, and what exists now is what exists from now on
  let n := before.initCode.size
  have hinstr : ∀ (j : Nat) (instr : Instr), (c.initCode.push i)[j]? = some instr →
      (j < n ∧ before.initCode[j]? = some instr) ∨ (j = n ∧ instr = i) := by
    intro j instr hj
    rw [hc.initCode, Array.getElem?_push] at hj
    split at hj
    · next heq => exact .inr ⟨heq, (Option.some.inj hj).symm⟩
    · exact .inl ⟨(Array.getElem?_eq_some_iff.1 hj).1, hj⟩
  refine ⟨hc.hosts, ⟨hc.fits.frames, rfl, hc.fits.names, hc.fits.methods, hc.fits.hosts⟩,
    hc.entries, continued slots n before.globals.size c.globals.size,
    continued funcs n c.functions.size c.functions.size, ?_⟩
  constructor
  case bodies => exact fun f hf => (hc.bodies f hf).within
  case values => exact hc.values
  case initSlots => exact hc.frame_slots
  case initStores =>
    intro instr hmem
    rcases Array.mem_push.1 hmem with hmem | rfl
    · rw [hc.initCode] at hmem
      exact hlaid.initStores instr hmem
    · exact hstore
  case slots_mono => exact continued_mono hlaid.slots_mono hslots hc.size
  case funcs_mono => exact continued_mono hlaid.funcs_mono hfuncs (Nat.le_refl _)
  case slots_le => exact continued_le hslots hc.size
  case funcs_le => exact continued_le hfuncs (Nat.le_refl _)
  case needs =>
    intro j instr hj
    rcases hinstr j instr hj with ⟨hj, hold⟩ | ⟨rfl, rfl⟩
    · rw [continued_of_lt hj]
      exact hlaid.needs j instr hold
    · rw [continued_self]
      exact fun x hx => (hneeds x hx).within
  case stores =>
    intro j instr hj a ha
    rcases hinstr j instr hj with ⟨hj, hold⟩ | ⟨rfl, rfl⟩
    · obtain ⟨hdepth, hge, hlt⟩ := hlaid.stores j instr hold a ha
      rw [continued_of_lt hj]
      exact ⟨hdepth, hge, Nat.lt_of_lt_of_le hlt (le_continued hslots hc.size (j + 1))⟩
    · rw [continued_self, continued_of_gt (Nat.lt_succ_self n)]
      exact hstored a ha
  case bodiesAt =>
    intro j k f hk hf
    have hold : before.functions[k]? = some f := hfunctions ▸ hf
    rcases Nat.lt_or_ge j n with hj | hj
    · rw [continued_of_lt hj] at *
      exact hlaid.bodiesAt j k f hk hold
    · exact (hlaid.bodies f (Array.mem_of_getElem? hold)).mono (fun _ h => h)
        (.package (continued_of_ge hc.size hj))
  case valuesAt =>
    intro j s v hs hv
    rcases Nat.lt_or_ge j n with hj | hj
    · rw [continued_of_lt hj] at *
      exact hlaid.valuesAt j s v hs
        ((hc.globals s (Nat.lt_of_lt_of_le hs (hslots j))).symm.trans hv)
    · exact Value.Only.mono (fun m hm => Nat.lt_of_lt_of_le hm
        (Nat.add_le_add_left (continued_of_ge (Nat.le_refl _) hj) _)) v
        (hc.values v (Array.mem_of_getElem? hv))
  case keep => exact fun f hf => (hc.bodies f hf).keepsTo
  case initKeeps =>
    refine .of_parts fun x hx => ?_
    have hparts : x ∈ (Package.ofCompiler before).init.parts ∨ x ∈ i.parts := by
      obtain ⟨instr, hmem, hpart⟩ := List.mem_flatMap.1 hx
      rcases Array.mem_push.1 (Array.mem_toList_iff.1 hmem) with hmem | rfl
      · rw [hc.initCode] at hmem
        exact .inl (List.mem_flatMap.2 ⟨instr, Array.mem_toList_iff.2 hmem, hpart⟩)
      · exact .inr hpart
    rcases hparts with hx | hx
    · exact (hlaid.initKeeps.parts x hx).mono hc.named
    · rcases Instr.mem_parts.1 hx with hx | ⟨a, ha, rfl⟩
      · exact (hneeds x hx).keepsTo.mono hc.named
      · -- the variable is new
        obtain ⟨-, hge, hlt⟩ := hstored a ha
        refine fun _ => ⟨hlt, fun hmem => ?_⟩
        rw [show c.initFuncs = _ from hc.initFuncs, List.append_nil] at hmem
        exact Nat.not_lt_of_le hge (hentries a.2 hmem)

/-! ### Variables -/

/-- The instruction stores what an initializer gives in new slots of the package: its value, or the
results of the call that it is.  The initializer is compiled in the state `c`, but for the types. -/
inductive Initializes (c : Compiler) (e : Expr) : Instr → Prop
  | value {c₁ c₂ : Compiler} {op : Operand} {slot : Nat} {ty : Ty} {t : TypeTable} {i : Instr}
      (alike : c.Alike c₁) (compiled : operand e c₁ = .ok (op, c₂)) (new : c.globals.size ≤ slot)
      (stored : (Place.var 1 slot ty).set t op = .ok i) : Initializes c e i
  | results {c₁ c₂ : Compiler} {call : Call} {types : List Ty} {slots : List Nat}
      (alike : c.Alike c₁) (compiled : operand e c₁ = .ok (.results call types, c₂))
      (new : ∀ slot ∈ slots, c.globals.size ≤ slot) (length : slots.length = types.length) :
      Initializes c e (.spread call 1 (slots.map some))

/-- A state after the definition of variables with the given initializers: the code that initializes
the package goes on with instructions for these, and nothing else has changed but that there are
more slots. -/
structure Initialized (before : Compiler) (inits : List Expr) (c : Compiler) : Prop where
  hosts : c.hosts = before.hosts
  globals : ∀ s < before.globals.size, c.globals[s]? = before.globals[s]?
  functions : c.functions = before.functions
  initFuncs : c.initFuncs = before.initFuncs
  initCode : ∃ is : List Instr, c.initCode.toList = before.initCode.toList ++ is ∧
    List.Forall₂ (Initializes before) inits is

/-- A check of what is given. -/
theorem check_matches {α : Type} {e : Except Fault α} :
    Matches c (check e) (check e) fun _ c' => c' = c := by
  cases e with
  | error f => exact .fail f
  | ok a => exact .pure rfl

/-- No instruction is added. -/
theorem Since.initialized (h : Since before known [] c)
    (hfunctions : c.functions = before.functions) : Initialized before [] c :=
  ⟨h.hosts, h.globals, hfunctions, by rw [h.initFuncs, List.append_nil],
    [], by rw [h.initCode, List.append_nil], .nil⟩

/-- An instruction is added for one initializer. -/
theorem Since.initialized_push (h : Since before known [] c)
    (hfunctions : c.functions = before.functions) {e : Expr} {i : Instr}
    (hi : Initializes before e i) :
    Initialized before [e] { c with initCode := c.initCode.push i } :=
  ⟨h.hosts, h.globals, hfunctions, by rw [h.initFuncs, List.append_nil],
    [i], by rw [Array.toList_push, h.initCode], .cons hi .nil⟩

/-- An optional expression is an optional operand. -/
theorem optionalOperand_ok {e : Option Expr} {op : Option Operand}
    (h : optionalOperand e c = .ok (op, c')) :
    (op = none → e = none) ∧
      ∀ x, op = some x → ∃ e', e = some e' ∧ operand e' c = .ok (x, c') := by
  cases e with
  | none =>
      cases h
      exact ⟨fun _ => rfl, nofun⟩
  | some e =>
      change (operand e c).map (fun r => (some r.1, r.2)) = _ at h
      cases he : operand e c with
      | error f =>
          rw [he] at h
          cases h
      | ok r =>
          rw [he] at h
          cases h
          refine ⟨nofun, ?_⟩
          rintro _ ⟨⟩
          exact ⟨e, rfl, he⟩

/-- The instruction that stores an operand is the one that the rules give. -/
theorem store_ok {place : Place} {op : Operand} {i : Instr}
    (h : store place op c = .ok (i, c')) : place.set c.types op = .ok i := by
  change check (place.set c.types op) c = _ at h
  cases hset : place.set c.types op with
  | error f =>
      rw [hset] at h
      cases h
  | ok j =>
      rw [hset] at h
      cases h
      rfl

/-- A new variable gets the next slot. -/
theorem newVar_matches (h : Since before known added c) (name : Name) (ty : Ty) :
    Matches c (newVar name ty) (newVar name ty) fun slot c' =>
      Since before known added c' ∧ c'.functions = c.functions ∧ slot = c.globals.size ∧
        c'.globals.size = c.globals.size + 1 := by
  refine .types (.bind (newGlobal_matches h (TypeTable.zero_only _ _))
    fun slot c₁ ⟨h₁, hslot, hglobals, hfunctions, _, hentries⟩ => ?_)
  have hsize : c₁.globals.size = c.globals.size + 1 := by rw [hglobals, Array.size_push]
  refine .bind (S := fun _ c' => Since before known added c' ∧ c'.functions = c.functions ∧
    c'.globals = c₁.globals ∧ c'.initFuncs = c₁.initFuncs) (.modify ⟨?_, hfunctions, rfl, rfl⟩)
    fun _ c₂ ⟨h₂, hfunctions₂, hglobals₂, hentries₂⟩ => ?_
  · exact h₁.congr rfl ⟨h₁.fits.frames, h₁.fits.globals, h₁.fits.names, h₁.fits.methods,
      h₁.fits.hosts⟩ rfl rfl rfl rfl rfl
  · have hwithin : (Entity.var ⟨slot, ty⟩).Within
        (.package before.hosts.count c₂.globals.size c₂.initFuncs) := by
      rw [hglobals₂, hsize, hslot, hentries₂, hentries]
      exact h.covers_new (Nat.lt_succ_self _) ty
    refine .bind (bindEntity_matches h₂ name hwithin) fun _ c₃ ⟨h₃, hglobals₃, hfunctions₃⟩ =>
      .pure ⟨h₃, hfunctions₃.trans hfunctions₂, hslot, ?_⟩
    rw [hglobals₃, hglobals₂, hsize]

/-- New variables get new slots. -/
theorem newVars_matches (h : Since before known added c) (declared : Option Ty) (names : List Name)
    (types : List Ty) :
    Matches c (newVars declared names types) (newVars declared names types) fun slots c' =>
      Since before known added c' ∧ c'.functions = c.functions ∧
        c.globals.size ≤ c'.globals.size ∧ slots.length = min names.length types.length ∧
        ∀ slot ∈ slots, c.globals.size ≤ slot ∧ slot < c'.globals.size := by
  induction names generalizing c types with
  | nil => exact .pure ⟨h, rfl, Nat.le_refl _, by simp, by simp⟩
  | cons name names ih =>
      cases types with
      | nil => exact .pure ⟨h, rfl, Nat.le_refl _, by simp, by simp⟩
      | cons ty types =>
          refine .bind (S := fun _ c' => c' = c ∧ True) (.rule fun t _ _ => trivial) ?_
          rintro _ _ ⟨rfl, -⟩
          refine .bind (newVar_matches h name _) fun slot c₁ ⟨h₁, hfunctions₁, hslot, hsize₁⟩ =>
            .bind (ih h₁ types) fun slots c₂ ⟨h₂, hfunctions₂, hsize₂, hlength, hslots⟩ =>
              .pure ⟨h₂, hfunctions₂.trans hfunctions₁, by omega, by simp [hlength], fun s hs => ?_⟩
          rcases List.mem_cons.1 hs with rfl | hs
          · omega
          · have := hslots s hs
            omega

/-- The package lies one record out of the code that initializes it. -/
theorem Since.globalsDepth (h : Since before known added c) : c.globalsDepth = 1 :=
  h.fits.depth

/-- A variable with a value of its own or none. -/
theorem defineVar_matches (h : Settled hosts before) (d : Decl) :
    Matches before (defineVar d) (Checked.defineVar d) fun _ c' =>
      Settled hosts c' ∧ Initialized before d.value.toList c' := by
  have hsince := h.since
  refine .bind (hsince.step (typeExpr?_keeps d.valueType _)) fun declared c₁ ⟨h₁, halike₁, _⟩ => ?_
  have hvalue : Matches c₁ (optionalOperand d.value) (Checked.optionalOperand d.value)
      fun op c' => Since before (fun _ => False) [] c' ∧ c₁.Alike c' ∧
        (World.package before.hosts.count c₁.globals.size c₁.initFuncs).Covers op := by
    cases d.value with
    | none => exact .pure ⟨h₁, .refl _, World.covers_none⟩
    | some e => exact h₁.step ((operand_stays e _).map fun op hop => World.covers_some.2 hop)
  refine .bind hvalue.known fun op c₂ ⟨hcompiled, h₂, halike₂, hop⟩ => .bind check_matches ?_
  rintro ty c₂ rfl
  have halike := halike₁.trans halike₂
  have hfunctions : c₂.functions = before.functions := by rw [halike]
  have hglobals : c₂.globals.size = before.globals.size := by rw [halike]
  obtain ⟨hnone, hsome⟩ := optionalOperand_ok hcompiled
  refine .bind (newVar_matches h₂ d.name ty) fun slot c₃ ⟨h₃, hfunctions₃, hslot, hsize₃⟩ => ?_
  cases op with
  | none =>
      rw [hnone rfl]
      exact .pure ⟨h.of_since h₃, h₃.initialized (hfunctions₃.trans hfunctions)⟩
  | some op =>
      obtain ⟨e, he, hoperand⟩ := hsome op rfl
      rw [he]
      refine .get (.bind
        (Matches.rule fun t => Place.set_stores (World.covers_some.1 hop)).known ?_)
      rintro i c₃ ⟨hset, rfl, value, hvalue, rfl⟩
      have hinit : Initializes before e ((Place.var c₃.globalsDepth slot ty).store value) := by
        have hstored := store_ok hset
        have hnew : before.globals.size ≤ slot := by omega
        rw [h₃.globalsDepth] at hstored ⊢
        exact .value halike₁ hoperand hnew hstored
      refine .modify ⟨h.push h₃ (hfunctions₃.trans hfunctions) rfl ?_ ?_,
        h₃.initialized_push (hfunctions₃.trans hfunctions) hinit⟩
      · rw [halike₁] at hvalue
        exact hvalue
      · rintro a ha
        rw [List.mem_singleton.1 ha]
        exact ⟨h₃.globalsDepth, by omega, by omega⟩

/-- Several variables with the results of one call. -/
theorem defineTuple_matches (h : Settled hosts before) (spec : ValueSpec) :
    Matches before (defineTuple spec) (Checked.defineTuple spec) fun _ c' =>
      Settled hosts c' ∧ Initialized before spec.values c' := by
  have hsince := h.since
  refine .bind (hsince.step (typeExpr?_keeps spec.type _)) fun declared c₁ ⟨h₁, halike₁, _⟩ => ?_
  dsimp only
  cases spec.values with
  | nil => exact .fail _
  | cons value rest =>
      cases rest with
      | cons _ _ => exact .fail _
      | nil =>
          refine .bind (h₁.step (operand_stays value _)).known
            fun op c₂ ⟨hcompiled, h₂, halike₂, hop⟩ => ?_
          cases op with
          | term x => exact .fail _
          | results call types =>
              refine .ite (fun _ => .bind (S := fun _ _ => False) (.fail _) fun _ _ h => h.elim)
                fun hcount => ?_
              have halike := halike₁.trans halike₂
              have hfunctions : c₂.functions = before.functions := by rw [halike]
              have hglobals : c₂.globals.size = before.globals.size := by rw [halike]
              refine .bind (newVars_matches h₂ declared spec.names types)
                fun slots c₃ ⟨h₃, hfunctions₃, hsize₃, hlength, hslots⟩ => .get (.modify
                  ⟨h.push h₃ (hfunctions₃.trans hfunctions) rfl ?_ ?_, ?_⟩)
              · rw [halike₁] at hop
                refine List.forall_mem_cons.2 ⟨⟨?_, trivial⟩, hop⟩
                rw [h₃.globalsDepth]
                exact ⟨_, rfl⟩
              · intro a ha
                obtain ⟨slot, hslot, rfl⟩ := List.mem_map.1 ha
                obtain ⟨o, ho, heq⟩ := List.mem_filterMap.1 hslot
                obtain ⟨slot', hslot', rfl⟩ := List.mem_map.1 ho
                cases heq
                have := hslots slot hslot'
                exact ⟨h₃.globalsDepth, by omega, by omega⟩
              · rw [h₃.globalsDepth]
                refine h₃.initialized_push (hfunctions₃.trans hfunctions)
                  (.results halike₁ hcompiled (fun slot hslot => ?_) ?_)
                · have := hslots slot hslot
                  omega
                · rw [hlength]
                  omega

/-! ### Batches -/

/-- The declarations of a batch are declared. -/
theorem declareEach_matches (h : Since before known added c) (decls : List Decl) :
    Matches c (eachDecl declareDecl decls) (eachDecl Checked.declareDecl decls) fun _ c' =>
      ∃ more, ((∀ d ∈ decls, d.entries = []) → more = []) ∧
        Since before (fun n => known n ∨ ∃ d ∈ decls, routineName? d = some n) (added ++ more)
          c' := by
  induction decls generalizing c known added with
  | nil =>
      refine .pure ⟨[], fun _ => rfl, ?_⟩
      rw [List.append_nil]
      exact h.knows fun n hn => hn.resolve_right (by simp)
  | cons d rest ih =>
      refine .bind ((declareDecl_matches h d).at' d.span) fun _ c₁ ⟨first, hfirst, h₁⟩ =>
        (ih h₁).imp fun _ _ ⟨more, hmore, h₂⟩ => ⟨first ++ more, fun hnone => ?_, ?_⟩
      · rw [hfirst (hnone d List.mem_cons_self),
          hmore fun x hx => hnone x (List.mem_cons_of_mem d hx), List.append_nil]
      rw [← List.append_assoc]
      refine h₂.knows fun n hn => ?_
      rcases hn with hn | ⟨x, hx, hname⟩
      · exact .inl (.inl hn)
      · rcases List.mem_cons.1 hx with rfl | hx
        · exact .inl (.inr hname)
        · exact .inr ⟨x, hx, hname⟩

/-- The declarations of a batch without variables are defined. -/
theorem defineEach_matches (h : Since before known added c) (decls : List Decl)
    (hvar : ∀ d ∈ decls, d.kind ≠ .var)
    (hknown : ∀ d ∈ decls, ∀ n, routineName? d = some n → known n) :
    Matches c (eachDecl defineDecl decls) (eachDecl Checked.defineDecl decls) fun _ c' =>
      Since before known added c' := by
  induction decls generalizing c with
  | nil => exact .pure h
  | cons d rest ih =>
      exact .bind ((defineRoutine_matches h (hvar d List.mem_cons_self)
        (hknown d List.mem_cons_self)).at' d.span) fun _ c₁ h₁ =>
          ih h₁ (fun x hx => hvar x (List.mem_cons_of_mem _ hx))
            fun x hx => hknown x (List.mem_cons_of_mem _ hx)

/-- A batch of one variable, or of several with one initializer. -/
theorem varBatch_matches (h : Settled hosts before) {d : Decl} (hkind : d.kind = .var) :
    Matches before (batch [d]) (Checked.batch [d]) fun _ c' =>
      Settled hosts c' ∧ Initialized before d.initializers c' := by
  have hdeclare : declareDecl d = pure () ∧ Checked.declareDecl d = pure () := by
    unfold declareDecl Checked.declareDecl
    rw [hkind]
    exact ⟨rfl, rfl⟩
  have hdefine : Matches before (defineDecl d) (Checked.defineDecl d)
      fun _ c' => Settled hosts c' ∧ Initialized before d.initializers c' := by
    have hvar := defineVar_matches h d
    unfold defineDecl Checked.defineDecl Decl.initializers
    unfold Decl.value at hvar
    rw [hkind]
    cases hnode : d.node with
    | tuple spec => exact defineTuple_matches h spec
    | _ =>
        rw [hnode] at hvar
        exact hvar
  unfold batch Checked.batch
  rw [List.mergeSort_singleton]
  refine .bind (S := fun _ c' => c' = before)
    (.bind (S := fun _ c' => c' = before) (.at' d.span ?_) ?_) ?_
  · rw [hdeclare.1, hdeclare.2]
    exact .pure rfl
  · rintro _ _ rfl
    exact .pure rfl
  · rintro _ _ rfl
    exact .bind (hdefine.at' d.span) fun _ c' h' => .pure h'

/-- A batch without variables.  It adds slots of `init` functions only if it declares some. -/
theorem batch_since (h : Settled hosts before) {decls : List Decl}
    (hvar : ∀ d ∈ decls, d.kind ≠ .var) :
    Matches before (batch decls) (Checked.batch decls) fun _ c' =>
      ∃ known added, ((∀ d ∈ decls, d.entries = []) → added = []) ∧
        Since before known added c' := by
  refine .bind (declareEach_matches h.since _) fun _ c₁ ⟨more, hmore, h₁⟩ => ?_
  refine (defineEach_matches h₁ decls hvar fun d hd n hn => .inr ⟨d, ?_, hn⟩).imp fun _ _ h₂ =>
    ⟨_, _, fun hnone => ?_, h₂⟩
  · exact (List.mergeSort_perm decls _).mem_iff.2 hd
  · rw [hmore fun d hd => hnone d ((List.mergeSort_perm decls _).mem_iff.1 hd), List.append_nil]

/-- **A batch leaves a settled state.** -/
theorem batch_matches (h : Settled hosts before) {decls : List Decl}
    (halone : ∀ d ∈ decls, d.kind = .var → decls = [d]) :
    Matches before (batch decls) (Checked.batch decls) fun _ c' => Settled hosts c' := by
  by_cases hvar : ∃ d ∈ decls, d.kind = .var
  · obtain ⟨d, hd, hkind⟩ := hvar
    rw [halone d hd hkind]
    exact (varBatch_matches h hkind).imp fun _ _ h' => h'.1
  · exact (batch_since h fun d hd hkind => hvar ⟨d, hd, hkind⟩).imp
      fun _ _ ⟨_, _, _, h'⟩ => h.of_since h'

/-- **Batch by batch a package is compiled as with checked addresses.** -/
theorem batches_matches (h : Settled hosts before) (bs : List (List Decl))
    (halone : ∀ decls ∈ bs, ∀ d ∈ decls, d.kind = .var → decls = [d]) :
    Matches before (batches bs) (Checked.batches bs) fun _ c' => Settled hosts c' := by
  induction bs generalizing before with
  | nil => exact .pure h
  | cons decls rest ih =>
      exact .bind (batch_matches h (halone decls List.mem_cons_self)) fun _ c' h' =>
        ih h' fun x hx => halone x (List.mem_cons_of_mem _ hx)

end Compile

/-! ### Packages -/

/-- The functions of the host have numbers below their count. -/
structure Hosts.Numbered (h : Hosts) : Prop where
  funcs : ∀ f ∈ h.funcs, f.number < h.count
  packages : ∀ p ∈ h.packages, ∀ f ∈ p.members, f.number < h.count

namespace Package

variable {types : TypeTable} {hosts : Hosts} {lowers : Bool}

/-- Before the first declaration everything is in order. -/
theorem start_settled (h : hosts.Numbered) :
    Compile.Settled hosts (.start types hosts lowers) := by
  have hempty : Frame.Fits .empty .empty := ⟨rfl, rfl, rfl⟩
  refine ⟨rfl, ⟨.cons hempty .nil, rfl, ?_, ?_, h.funcs, h.packages⟩, List.forall_mem_nil _,
    fun _ => 0, fun _ => 0, ?_⟩
  · exact fun e he => absurd he List.not_mem_nil
  · exact fun e he => absurd he List.not_mem_nil
  · have hnone : ∀ (i : Nat) (instr : Instr), (#[] : Array Instr)[i]? ≠ some instr := by simp
    exact ⟨fun f hf => absurd hf (Array.not_mem_empty f),
      fun v hv => absurd hv (Array.not_mem_empty v), rfl,
      fun i hi => absurd hi (Array.not_mem_empty i), fun _ _ _ => Nat.le_refl 0,
      fun _ _ _ => Nat.le_refl 0, fun _ => Nat.le_refl 0, fun _ => Nat.le_refl 0,
      fun i instr hi => absurd hi (hnone i instr), fun i instr hi => absurd hi (hnone i instr),
      fun _ _ _ hk => absurd hk (Nat.not_lt_zero _), fun _ _ _ hs => absurd hs (Nat.not_lt_zero _),
      fun f hf => absurd hf (Array.not_mem_empty f),
      Body.KeepsTo.of_parts fun _ hx => absurd hx List.not_mem_nil⟩

/-- A scope is compiled as with checked addresses, into a package that lies well. -/
theorem ofScope_checked (h : hosts.Numbered) (s : Scope) :
    ofScope types hosts lowers s = ofScopeChecked types hosts lowers s ∧
      ∀ p, ofScope types hosts lowers s = .ok p →
        ∃ slots funcs, p.Laid hosts.count slots funcs := by
  unfold ofScope ofScopeChecked
  cases horder : Order.ofScope s with
  | error e => exact ⟨rfl, fun p hp => by cases hp⟩
  | ok order =>
      have hstart : Compile.Settled hosts (.start types hosts lowers) := start_settled h
      obtain ⟨hsame, hleaves⟩ := Compile.batches_matches hstart (Order.batches s order)
        fun decls hdecls d hd hvar => Order.value_alone horder hdecls hd (by rw [hvar]; rfl)
      dsimp only
      rw [← hsame]
      cases hrun : Compile.batches (Order.batches s order) (.start types hosts lowers) with
      | error e => exact ⟨rfl, fun p hp => by cases hp⟩
      | ok r =>
          refine ⟨rfl, fun p hp => ?_⟩
          cases hp
          exact (hleaves r.1 r.2 hrun).laid

/-- **No check of an address fails**: compilation gives the same package, or the same error, with
the checks and without. -/
theorem ofItems_eq_checked (h : hosts.Numbered) (items : List Item) :
    ofItems types hosts lowers items = ofItemsChecked types hosts lowers items := by
  unfold ofItems ofItemsChecked
  cases Scope.ofItems items with
  | error e => rfl
  | ok s => exact (ofScope_checked h s).1

/-- **A package that has been compiled lies well.** -/
theorem laid (h : hosts.Numbered) {items : List Item} {p : Package}
    (hp : ofItems types hosts lowers items = .ok p) :
    ∃ slots funcs, p.Laid hosts.count slots funcs := by
  unfold ofItems at hp
  cases hs : Scope.ofItems items with
  | error e =>
      rw [hs] at hp
      cases hp
  | ok s =>
      rw [hs] at hp
      exact (ofScope_checked h s).2 p hp

end Package

end ScriptCore
