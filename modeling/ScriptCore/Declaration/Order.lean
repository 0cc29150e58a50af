import ScriptCore.Declaration.Scope
import ScriptCore.Graph.Cycle

/-!
# Emission order

The declarations of a scope are emitted in batches, dependencies first.  A cycle among functions,
methods and types is one batch, preceded by a forward declaration of every type in it.  With the
edges into those types dropped, a cycle that still runs through a constant or a variable is an
initialization cycle.  At the end the lines of each block of constants or variables go back to
source order within the places they occupy, where that breaks no dependency the order satisfied.

Main statements: `restoreBlock_length` and `restoreBlocks_length`, putting blocks back keeps the
number of batches.
-/

namespace ScriptCore

namespace Scope

/-- Indices of the declarations of the scope that `d` uses: the names it refers to, and every
method with a name it selects. -/
def edgesOf (s : Scope) (d : Decl) : List Nat :=
  (d.deps.filterMap s.indexOf? ++ d.methodDeps.flatMap s.methodIndices).eraseDups

/-- The dependency graph of a scope. -/
def graph (s : Scope) : Graph :=
  s.decls.map s.edgesOf

/-- Kind of the `i`-th declaration. -/
def kindAt (s : Scope) (i : Nat) : Option DeclKind :=
  s.decls[i]?.map Decl.kind

/-- The `i`-th declaration is a type. -/
def isTypeAt (s : Scope) (i : Nat) : Bool :=
  s.kindAt i == some .type

/-- The `i`-th declaration is a constant or a variable. -/
def isValueAt (s : Scope) (i : Nat) : Bool :=
  (s.kindAt i).any DeclKind.isValue

/-- Name of the `i`-th declaration. -/
def nameAt (s : Scope) (i : Nat) : Name :=
  (s.decls[i]?).elim "" Decl.name

end Scope

/-- One place in the emission order: a single declaration, the forward declaration of a type, or
declarations that depend on each other.  Declarations are given by their index. -/
inductive Slot where
  | single (decl : Nat)
  | forward (type : Nat)
  | cycle (members : List Nat)
deriving Repr, DecidableEq

namespace Slot

/-- Declarations that are complete once the slot is emitted. -/
def emits : Slot → List Nat
  | single d => [d]
  | forward _ => []
  | cycle members => members

/-- The declarations of a slot. -/
def batch (s : Scope) : Slot → List Decl
  | single d => (s.decls[d]?).toList
  | forward t => ((s.decls[t]?).map Decl.forward).toList
  | cycle members => members.filterMap (s.decls[·]?)

end Slot

/-- Emission order of a scope. -/
abbrev Order := List Slot

namespace Order

/-- The part of the dependency graph within a component and without the edges into types; node `i`
is the `i`-th member. -/
def valueGraph (s : Scope) (g : Graph) (component : List Nat) : Graph :=
  (component.map fun v =>
    (g.targets v).filterMap fun w =>
      if s.isTypeAt w then none else component.idxOf? w).toArray

/-- The members of a component at the given positions. -/
def membersAt (component : List Nat) (positions : List Nat) : List Nat :=
  positions.filterMap (component[·]?)

/-- One part of a component split without the edges into types.  A cyclic part with a constant or
variable is an initialization cycle, reported along a shortest path through the first of them. -/
def partSlot (s : Scope) (sub : Graph) (component : List Nat) (part : List Nat) :
    Except SortError Slot :=
  let isValue := fun l => (component[l]?).any s.isValueAt
  match part.find? isValue with
  | some start =>
    if sub.isCyclic part then
      let span := ((component[start]?).bind (s.decls[·]?)).elim Span.none Decl.span
      .error (.cycle ((membersAt component (sub.cycleThrough part start)).map s.nameAt) span)
    else .ok (slotOf (membersAt component part))
  | none => .ok (slotOf (membersAt component part))
where
  /-- A part with one member is a single declaration. -/
  slotOf : List Nat → Slot
    | [d] => .single d
    | members => .cycle members

/-- Slots of a component. -/
def componentSlots (s : Scope) (g : Graph) (component : List Nat) : Except SortError Order :=
  if g.isCyclic component then
    let forwards := (component.filter s.isTypeAt).map Slot.forward
    if component.any s.isValueAt then do
      let sub := valueGraph s g component
      return forwards ++ (← (Components.ofGraph sub).mapM (partSlot s sub component))
    else .ok (forwards ++ [.cycle component])
  else .ok (component.map Slot.single)

/-- Slots of components in order, up to the first error. -/
def slotsOf (s : Scope) (g : Graph) : List (List Nat) → Except SortError Order
  | [] => .ok []
  | component :: rest => do
    let first ← componentSlots s g component
    return first ++ (← slotsOf s g rest)

/-- Place in which each of `n` declarations is emitted. -/
def places (order : Order) (n : Nat) : Array Nat :=
  (order.zipIdx).foldl (fun acc p => p.1.emits.foldl (fun acc d => acc.set! d p.2) acc)
    (Array.replicate n order.length)

/-- The target of an edge is emitted after its source. -/
def isLate (places : Array Nat) (source target : Nat) : Bool :=
  decide (places[source]?.getD 0 < places[target]?.getD 0)

/-- Every edge that is late in the second order is late in the first. -/
def addsNoLate (g : Graph) (before after : Order) : Bool :=
  let old := places before g.size
  let new := places after g.size
  (List.range g.size).all fun v =>
    (g.targets v).all fun w => !isLate new v w || isLate old v w

/-- The single declarations of a block in the order, with their places. -/
def blockPlaces (s : Scope) (block : Nat) (order : Order) : List (Nat × Nat) :=
  order.zipIdx.filterMap fun
    | (.single d, place) =>
      if (s.decls[d]?).bind Decl.group = some block then some (place, d) else none
    | _ => none

/-- Put single declarations at given places. -/
def putAll (order : Order) : List (Nat × Nat) → Order
  | [] => order
  | (place, d) :: rest => putAll (order.set place (.single d)) rest

/-- The order with the members of a block in source order within their places. -/
def sortedBlock (s : Scope) (order : Order) (block : Nat) : Order :=
  let occupied := blockPlaces s block order
  let members := (occupied.map Prod.snd).mergeSort (· ≤ ·)
  putAll order ((occupied.map Prod.fst).zip members)

/-- Put the members of a block back in source order if that adds no late dependency. -/
def restoreBlock (s : Scope) (g : Graph) (order : Order) (block : Nat) : Order :=
  let candidate := sortedBlock s order block
  if candidate = order then order
  else if addsNoLate g order candidate then candidate else order

/-- Put every block back, in the order in which the blocks were loaded. -/
def restoreBlocks (s : Scope) (g : Graph) (order : Order) : Order :=
  (List.range s.blocks).foldl (restoreBlock s g) order

/-- Emission order of a scope. -/
def ofScope (s : Scope) : Except SortError Order := do
  let g := s.graph
  let order ← slotsOf s g (Components.ofGraph g)
  return restoreBlocks s g order

/-- Batches of declarations in emission order. -/
def batches (s : Scope) (order : Order) : List (List Decl) :=
  order.map (Slot.batch s)

/-- Putting declarations at places keeps the number of slots. -/
theorem putAll_length (order : Order) (pairs : List (Nat × Nat)) :
    (putAll order pairs).length = order.length := by
  induction pairs generalizing order with
  | nil => rfl
  | cons p rest ih => simp [putAll, ih]

/-- Restoring a block keeps the number of slots. -/
theorem restoreBlock_length (s : Scope) (g : Graph) (order : Order) (block : Nat) :
    (restoreBlock s g order block).length = order.length := by
  have hc : (sortedBlock s order block).length = order.length := putAll_length _ _
  unfold restoreBlock
  dsimp only
  by_cases h : sortedBlock s order block = order
  · rw [if_pos h]
  · rw [if_neg h]
    by_cases hl : addsNoLate g order (sortedBlock s order block) = true
    · rw [if_pos hl, hc]
    · rw [if_neg hl]

/-- Restoring all blocks keeps the number of slots. -/
theorem restoreBlocks_length (s : Scope) (g : Graph) (order : Order) :
    (restoreBlocks s g order).length = order.length := by
  unfold restoreBlocks
  generalize List.range s.blocks = blocks
  induction blocks generalizing order with
  | nil => rfl
  | cons b rest ih => rw [List.foldl_cons, ih, restoreBlock_length]

end Order

end ScriptCore
