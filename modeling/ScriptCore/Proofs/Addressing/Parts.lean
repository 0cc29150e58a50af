import ScriptCore.Code.Basic

/-!
# Parts of code

What code is made of, as far as the records around it and the functions are concerned: the slots it
mentions, the values that are fixed in it, and the function literals that stand in it.  Slots that
only a function literal mentions are parts of its own body.

A body is within records of given sizes if every slot it mentions lies in its own record or in one
of these, the same holds of the literals in it with one record more, all functions fixed in it are
allowed ones, all its jumps go to labels that have a position in it, and all that it returns are as
many values as its end returns, unless it hands on the results of a call.

Code gets at the slots of the package by their numbers.  A body that is made in a record with the
package so many levels out keeps to given slots of the package if it mentions no others, and so do
the function literals in it, for which the package is one level further out.

Main statements: `Body.Within.mono` (larger records do no harm), `Body.Within.parts` and
`Body.KeepsTo.of_parts`.
-/

namespace ScriptCore

namespace Value

mutual

/-- Every function in the value has an allowed number. -/
def Only (allowed : Nat → Prop) : Value → Prop
  | .func ref _ => allowed ref
  | .struct fields => OnlyAll allowed fields
  | _ => True

/-- Every function in the values has an allowed number. -/
def OnlyAll (allowed : Nat → Prop) : List Value → Prop
  | [] => True
  | v :: vs => Only allowed v ∧ OnlyAll allowed vs

end

variable {allowed : Nat → Prop} {vs ws : List Value}

/-- Values one by one. -/
theorem onlyAll_iff : OnlyAll allowed vs ↔ ∀ v ∈ vs, v.Only allowed := by
  induction vs with
  | nil => simp [OnlyAll]
  | cons v vs ih => simp [OnlyAll, ih]

/-- Fields of a struct. -/
theorem only_struct : (Value.struct vs).Only allowed ↔ ∀ v ∈ vs, v.Only allowed := by
  rw [Only, onlyAll_iff]

mutual

/-- More functions are allowed. -/
theorem Only.mono {more : Nat → Prop} (h : ∀ n, allowed n → more n) :
    ∀ v : Value, v.Only allowed → v.Only more
  | .func ref _, hv => h ref hv
  | .struct fields, hv => OnlyAll.mono h fields hv
  | .nil, _ | .bool _, _ | .int _, _ | .uint _, _ | .float _, _ | .complex _ _, _ | .str _, _
  | .slice _, _ | .map _, _ => trivial

/-- More functions are allowed. -/
theorem OnlyAll.mono {more : Nat → Prop} (h : ∀ n, allowed n → more n) :
    ∀ vs : List Value, OnlyAll allowed vs → OnlyAll more vs
  | [], _ => trivial
  | v :: vs, hvs => ⟨Only.mono h v hvs.1, OnlyAll.mono h vs hvs.2⟩

end

end Value

namespace Code

/-- A part of code: the record some levels out, a slot of it, a fixed value, or a function
literal. -/
inductive Part where
  | record (depth : Nat)
  | slot (depth slot : Nat)
  | value (v : Value)
  | literal (body : Body)

mutual

/-- Parts of an expression. -/
def Expr.parts : Expr → List Part
  | .const v => [.value v]
  | .load depth slot => [.slot depth slot]
  | .expect _ e | .unary _ _ e | .convert _ e | .length e | .capacity e | .field _ e | .asIndex e
  | .narrow _ e => e.parts
  | .binary _ _ a b | .both a b | .either a b | .sliceGet a b | .byteAt a b | .bindMethod _ a b =>
    a.parts ++ b.parts
  | .first call => call.parts
  | .makeSlice len cap zero => .value zero :: (len.parts ++ partsOf? cap)
  | .makeMap => []
  | .append base elems => base.parts ++ partsOf elems
  | .sliceOf es | .structOf es => partsOf es
  | .mapOf entries => partsOfEntries entries
  | .mapGet map key zero => .value zero :: (map.parts ++ key.parts)
  | .closure body => [.literal body]
  | .ensure _ zero e => .value zero :: e.parts

/-- Parts of a call. -/
def Call.parts : Call → List Part
  | .direct func recv args => func.parts ++ (partsOf? recv ++ args.parts)
  | .delete map key => map.parts ++ key.parts

/-- Parts of arguments. -/
def Args.parts : Args → List Part
  | .list fixed none => partsOf fixed
  | .list fixed (some rest) => partsOf fixed ++ partsOf rest
  | .forward call _ => call.parts

/-- Parts of an optional expression. -/
def partsOf? : Option Expr → List Part
  | none => []
  | some e => e.parts

/-- Parts of expressions. -/
def partsOf : List Expr → List Part
  | [] => []
  | e :: es => e.parts ++ partsOf es

/-- Parts of the entries of a map. -/
def partsOfEntries : List (Expr × Expr) → List Part
  | [] => []
  | (k, v) :: rest => k.parts ++ (v.parts ++ partsOfEntries rest)

end

/-- Parts of a location. -/
def Container.parts : Container → List Part
  | .var depth slot => [.slot depth slot]
  | .map e | .slice e => e.parts
  | .field base key _ zero => .value zero :: (base.parts ++ partsOf? key)

namespace Instr

/-- Slots in which an instruction stores values that have just been computed. -/
def targets : Instr → List (Option Nat)
  | .setSlots stores => stores.map Prod.fst
  | .spread _ _ slots => slots
  | _ => []

/-- Number of levels out at which these slots are. -/
def targetDepth : Instr → Nat
  | .spread _ depth _ => depth
  | _ => 0

/-- Parts of what an instruction computes. -/
def sources : Instr → List Part
  | .eval e | .branch e _ => e.parts
  | .run call | .retCall call => call.parts
  | .spread call depth _ => .record depth :: call.parts
  | .store container key value => container.parts ++ (partsOf? key ++ value.parts)
  | .update container key _ _ value zero =>
    .value zero :: (container.parts ++ (partsOf? key ++ value.parts))
  | .setSlots stores => partsOf (stores.map Prod.snd)
  | .jump _ => []
  | .ret values => partsOf values

/-- Parts of an instruction. -/
def parts (i : Instr) : List Part :=
  i.sources ++ (i.targets.filterMap id).map (.slot i.targetDepth)

/-- Instructions that store something and go on. -/
def isStore : Instr → Bool
  | .store _ _ _ | .spread _ _ _ => true
  | _ => false

/-- Slots in which an instruction stores what it computes, each with the number of levels out; no
fields or elements. -/
def stored : Instr → List (Nat × Nat)
  | .store (.var depth slot) _ _ => [(depth, slot)]
  | i => (i.targets.filterMap id).map fun slot => (i.targetDepth, slot)

/-- Parts of an instruction but for the slots in which it stores. -/
def needs : Instr → List Part
  | .store (.var _ _) key value => partsOf? key ++ value.parts
  | i => i.sources

/-- An instruction is made of what it needs and the slots in which it stores. -/
theorem mem_parts {i : Instr} {x : Part} :
    x ∈ i.parts ↔ x ∈ i.needs ∨ ∃ a ∈ i.stored, x = .slot a.1 a.2 := by
  have hother : x ∈ i.parts ↔ x ∈ i.sources ∨
      ∃ a ∈ (i.targets.filterMap id).map fun slot => (i.targetDepth, slot), x = .slot a.1 a.2 := by
    rw [parts, List.mem_append, List.mem_map]
    refine or_congr_right ⟨?_, ?_⟩
    · rintro ⟨slot, hslot, rfl⟩
      exact ⟨_, List.mem_map_of_mem hslot, rfl⟩
    · rintro ⟨a, ha, rfl⟩
      obtain ⟨slot, hslot, rfl⟩ := List.mem_map.1 ha
      exact ⟨slot, hslot, rfl⟩
  cases i with
  | store container key value =>
      cases container with
      | var depth slot =>
          simp [parts, sources, targets, needs, stored, Container.parts, or_comm]
      | _ => exact hother
  | _ => exact hother

/-- Label that an instruction may jump to. -/
def label? : Instr → Option Nat
  | .jump label | .branch _ label => some label
  | _ => none

/-- An instruction that returns values returns `count` of them.  Results that are handed on may be
any number, but those of `delete` are none. -/
def Returns (count : Nat) : Instr → Prop
  | .ret values => values.length = count
  | .retCall (.delete _ _) => count = 0
  | _ => True

end Instr

namespace Body

/-- Parts of a body. -/
def parts (body : Body) : List Part :=
  body.instrs.toList.flatMap Instr.parts

/-- All jumps go to labels with a position in the body. -/
def Lands (body : Body) : Prop :=
  ∀ i ∈ body.instrs, ∀ label, i.label? = some label →
    ∃ p, body.labels[label]? = some (some p) ∧ p < body.instrs.size

/-- Number of results that a body declares, which is the number of values that its end returns. -/
def resultCount (body : Body) : Nat :=
  match body.instrs.back? with
  | some (.ret values) => values.length
  | _ => 0

/-- All returns of a body are of as many values as it declares. -/
def Returns (body : Body) : Prop :=
  ∀ i ∈ body.instrs, i.Returns body.resultCount

/-- The body can run in a record of its own inside records of the given sizes, the innermost
first, only allowed functions are fixed in it, and so it is with the literals in it. -/
inductive Within (allowed : Nat → Prop) : List Nat → Body → Prop
  | mk {sizes : List Nat} {body : Body}
      (records : ∀ depth, .record depth ∈ body.parts →
        ∃ n, (body.slots :: sizes)[depth]? = some n)
      (slots : ∀ depth slot, .slot depth slot ∈ body.parts →
        ∃ n, (body.slots :: sizes)[depth]? = some n ∧ slot < n)
      (values : ∀ v, .value v ∈ body.parts → v.Only allowed)
      (literals : ∀ inner, .literal inner ∈ body.parts → Within allowed (body.slots :: sizes) inner)
      (lands : body.Lands) (returns : body.Returns) : Within allowed sizes body

end Body

/-- Records that are at least as large as records of given sizes. -/
def Roomier (sizes more : List Nat) : Prop :=
  ∀ depth n : Nat, sizes[depth]? = some n → ∃ n' : Nat, more[depth]? = some n' ∧ n ≤ n'

namespace Roomier

variable {sizes more : List Nat}

/-- The same records. -/
protected theorem refl (sizes : List Nat) : Roomier sizes sizes :=
  fun _ n h => ⟨n, h, Nat.le_refl n⟩

/-- One record more. -/
theorem cons {n n' : Nat} (hn : n ≤ n') (h : Roomier sizes more) :
    Roomier (n :: sizes) (n' :: more) := by
  intro depth k hk
  cases depth with
  | zero =>
      cases hk
      exact ⟨n', rfl, hn⟩
  | succ depth => exact h depth k hk

/-- A record is among more records. -/
theorem record (h : Roomier sizes more) {depth : Nat} (hn : ∃ n, sizes[depth]? = some n) :
    ∃ n, more[depth]? = some n := by
  obtain ⟨n, hn⟩ := hn
  obtain ⟨n', hn', -⟩ := h depth n hn
  exact ⟨n', hn'⟩

/-- A slot in a record is in a larger record. -/
theorem slot (h : Roomier sizes more) {depth slot : Nat}
    (hslot : ∃ n, sizes[depth]? = some n ∧ slot < n) : ∃ n, more[depth]? = some n ∧ slot < n := by
  obtain ⟨n, hn, hlt⟩ := hslot
  obtain ⟨n', hn', hle⟩ := h depth n hn
  exact ⟨n', hn', Nat.lt_of_lt_of_le hlt hle⟩

end Roomier

/-- Larger records do no harm, nor do more functions. -/
theorem Body.Within.mono {allowed more : Nat → Prop} {sizes : List Nat} {body : Body}
    (h : body.Within allowed sizes) (hallowed : ∀ n, allowed n → more n) :
    ∀ {sizes' : List Nat}, Roomier sizes sizes' → body.Within more sizes' := by
  induction h with
  | @mk sizes body records slots values _ lands returns ih =>
      intro sizes' hsizes
      have hroomier := hsizes.cons (Nat.le_refl body.slots)
      exact .mk (fun d hx => hroomier.record (records d hx))
        (fun d s hx => hroomier.slot (slots d s hx))
        (fun v hv => Value.Only.mono hallowed v (values v hv)) (fun b hb => ih b hb hroomier) lands
        returns

/-- The part keeps within records of the given sizes and to allowed functions. -/
def Part.Within (allowed : Nat → Prop) (sizes : List Nat) : Part → Prop
  | .record d => ∃ n : Nat, sizes[d]? = some n
  | .slot d s => ∃ n : Nat, sizes[d]? = some n ∧ s < n
  | .value v => v.Only allowed
  | .literal body => body.Within allowed sizes

/-- A value keeps to allowed functions. -/
@[simp] theorem Part.within_value {allowed : Nat → Prop} {sizes : List Nat} {v : Value} :
    (Part.value v).Within allowed sizes ↔ v.Only allowed := Iff.rfl

/-- Larger records do no harm, nor do more functions. -/
theorem Part.Within.mono {allowed more : Nat → Prop} {sizes sizes' : List Nat} {x : Part}
    (h : x.Within allowed sizes) (hallowed : ∀ n, allowed n → more n)
    (hsizes : Roomier sizes sizes') : x.Within more sizes' := by
  cases x with
  | record d => exact hsizes.record h
  | slot d s => exact hsizes.slot h
  | value v => exact Value.Only.mono hallowed v h
  | literal body => exact Body.Within.mono h hallowed hsizes

/-- All parts of a body keep within its record and those around it. -/
theorem Body.Within.parts {allowed : Nat → Prop} {sizes : List Nat} {body : Body}
    (h : body.Within allowed sizes) : ∀ x ∈ body.parts, x.Within allowed (body.slots :: sizes) := by
  obtain ⟨records, slots, values, literals, -, -⟩ := h
  intro x hx
  cases x with
  | record d => exact records d hx
  | slot d s => exact slots d s hx
  | value v => exact values v hx
  | literal inner => exact literals inner hx

/-- A body whose parts keep within its record and those around it. -/
theorem Body.Within.of_parts {allowed : Nat → Prop} {sizes : List Nat} {body : Body}
    (h : ∀ x ∈ body.parts, x.Within allowed (body.slots :: sizes)) (lands : body.Lands)
    (returns : body.Returns) : body.Within allowed sizes :=
  .mk (fun d hx => h (.record d) hx) (fun d s hx => h (.slot d s) hx)
    (fun v hv => h (.value v) hv) (fun inner hi => h (.literal inner) hi) lands returns

/-- Jumps of a body go to its labels. -/
theorem Body.Within.lands {allowed : Nat → Prop} {sizes : List Nat} {body : Body}
    (h : body.Within allowed sizes) : body.Lands := by
  obtain ⟨-, -, -, -, lands, -⟩ := h
  exact lands

/-- All returns of a body are of as many values as it declares. -/
theorem Body.Within.returns {allowed : Nat → Prop} {sizes : List Nat} {body : Body}
    (h : body.Within allowed sizes) : body.Returns := by
  obtain ⟨-, -, -, -, -, returns⟩ := h
  exact returns

end Code

/-! ### Slots of the package -/

namespace Code

/-- The body mentions only `named` slots of the package, which is `depth` levels out of the record
in which a function with this body is made. -/
inductive Body.KeepsTo (named : Nat → Prop) : Nat → Body → Prop
  | mk {depth : Nat} {body : Body} (slots : ∀ s, .slot (depth + 1) s ∈ body.parts → named s)
      (literals : ∀ inner, .literal inner ∈ body.parts → KeepsTo named (depth + 1) inner) :
      KeepsTo named depth body

/-- The part mentions only `named` slots of the package, which is `depth` levels out. -/
def Part.KeepsTo (named : Nat → Prop) (depth : Nat) : Part → Prop
  | .slot d s => d = depth → named s
  | .literal body => body.KeepsTo named depth
  | .record _ | .value _ => True

variable {named more : Nat → Prop} {depth : Nat} {body : Body}

/-- All parts of a body keep to what the body keeps to. -/
theorem Body.KeepsTo.parts (h : body.KeepsTo named depth) :
    ∀ x ∈ body.parts, x.KeepsTo named (depth + 1) := by
  obtain ⟨slots, literals⟩ := h
  intro x hx
  cases x with
  | record _ => trivial
  | slot d s =>
      rintro rfl
      exact slots s hx
  | value _ => trivial
  | literal inner => exact literals inner hx

/-- A body whose parts keep to given slots of the package. -/
theorem Body.KeepsTo.of_parts (h : ∀ x ∈ body.parts, x.KeepsTo named (depth + 1)) :
    body.KeepsTo named depth :=
  .mk (fun s hs => h (.slot (depth + 1) s) hs rfl) fun inner hi => h (.literal inner) hi

/-- More slots are named. -/
theorem Body.KeepsTo.mono (h : body.KeepsTo named depth) (hmore : ∀ s, named s → more s) :
    body.KeepsTo more depth := by
  induction h with
  | mk slots _ ih => exact .mk (fun s hs => hmore s (slots s hs)) ih

/-- More slots are named. -/
theorem Part.KeepsTo.mono {x : Part} (h : x.KeepsTo named depth)
    (hmore : ∀ s, named s → more s) : x.KeepsTo more depth := by
  cases x with
  | record _ => trivial
  | slot d s => exact fun hd => hmore s (h hd)
  | value _ => trivial
  | literal inner => exact Body.KeepsTo.mono h hmore

end Code

end ScriptCore
