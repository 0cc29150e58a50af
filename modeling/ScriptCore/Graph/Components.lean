/-!
# Strongly connected components

A graph on the nodes `0, …, n - 1` is given by the list of targets of each node.  The depth-first
search keeps one stack of nodes whose component is still open; the *height* of a node on that stack
is the number of nodes below it.  Visiting a node returns the least height it can get back to.  A
node that cannot get below its own height closes a component: the part of the stack from it upward.

Components come out with every component after the components it has edges into; each is listed in
ascending order.

Main statements: `visit_on_stack` and `visit_closed`, a node met again changes nothing.
-/

namespace ScriptCore

/-- Targets of each node, in the order in which they are followed. -/
abbrev Graph := Array (List Nat)

/-- Targets of a node; a number that is no node has none. -/
def Graph.targets (g : Graph) (v : Nat) : List Nat :=
  g[v]?.getD []

namespace Components

/-- State of the search: the open nodes, newest first, and the closed components in order. -/
structure Search where
  stack : List Nat
  closed : List (List Nat)
deriving Repr, DecidableEq

/-- Number of nodes below `v` on the stack. -/
def Search.height (s : Search) (v : Nat) : Nat :=
  (s.stack.dropWhile (· != v)).length - 1

/-- A node whose component is known. -/
def Search.isClosed (s : Search) (v : Nat) : Bool :=
  s.closed.any (·.contains v)

/-- The lesser of two heights, where `none` stands for no way back. -/
def lower : Option Nat → Option Nat → Option Nat
  | none, b => b
  | a, none => a
  | some a, some b => some (min a b)

/-- Put a node on the stack. -/
def Search.discover (s : Search) (v : Nat) : Search :=
  { s with stack := v :: s.stack }

/-- Take the stack down to and including `v` as one component. -/
def Search.close (s : Search) (v : Nat) : Search :=
  let above := s.stack.takeWhile (· != v)
  { stack := s.stack.drop (above.length + 1)
    closed := s.closed ++ [(v :: above).mergeSort (· ≤ ·)] }

/-- Visit a node and all it leads to, at most `fuel` calls deep. -/
def visit (g : Graph) : Nat → Search → Nat → Option Nat × Search
  | 0, s, _ => (none, s)
  | fuel + 1, s, v =>
    if s.stack.contains v then (some (s.height v), s)
    else if s.isClosed v then (none, s)
    else
      let base := s.stack.length
      let below := (g.targets v).foldl
        (fun acc w =>
          let r := visit g fuel acc.2 w
          (lower acc.1 r.1, r.2))
        (none, s.discover v)
      match below.1 with
      | some h => if h < base then below else (none, below.2.close v)
      | none => (none, below.2.close v)

/-- The components of a graph, dependencies first. -/
def ofGraph (g : Graph) : List (List Nat) :=
  ((List.range g.size).foldl (fun s v => (visit g (g.size + 1) s v).2) ⟨[], []⟩).closed

/-- A node on the stack is not visited again; its height is its answer. -/
theorem visit_on_stack {g : Graph} {fuel v : Nat} {s : Search} (h : v ∈ s.stack) :
    visit g (fuel + 1) s v = (some (s.height v), s) := by
  simp [visit, h]

/-- A node of a closed component is not visited again and leads nowhere. -/
theorem visit_closed {g : Graph} {fuel v : Nat} {s : Search} (ho : v ∉ s.stack)
    (h : s.isClosed v = true) : visit g (fuel + 1) s v = (none, s) := by
  simp [visit, ho, h]

end Components

/-- A component with an edge inside: two or more members, or one that leads to itself. -/
def Graph.isCyclic (g : Graph) : List Nat → Bool
  | [v] => (g.targets v).contains v
  | component => decide (1 < component.length)

end ScriptCore
