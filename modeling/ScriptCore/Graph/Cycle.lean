import ScriptCore.Graph.Components

/-!
# Shortest cycles

A breadth-first search for the shortest closed path through one node of a component.  The queue
holds the paths found so far, each from its newest node back to the start.

Main statement: `scan_closed`, a path closes by going back to its start.
-/

namespace ScriptCore.Cycle

/-- What one node adds to the search: a closed path, or longer paths and the nodes they reach. -/
inductive Scan where
  | closed (path : List Nat)
  | extended (paths : List (List Nat)) (seen : List Nat)

/-- Follow the targets of the newest node of `path` in order, within `members`. -/
def scan (members : List Nat) (start : Nat) (path : List Nat) :
    List Nat → List (List Nat) → List Nat → Scan
  | [], found, seen => .extended found seen
  | w :: rest, found, seen =>
    if !members.contains w then scan members start path rest found seen
    else if w = start then .closed (start :: path)
    else if seen.contains w then scan members start path rest found seen
    else scan members start path rest (found ++ [w :: path]) (seen ++ [w])

/-- Take paths from the front of the queue until one closes. -/
def search (g : Graph) (members : List Nat) (start : Nat) :
    Nat → List (List Nat) → List Nat → Option (List Nat)
  | 0, _, _ => none
  | _, [], _ => none
  | fuel + 1, path :: queue, seen =>
    match scan members start path (g.targets (path.headD start)) [] seen with
    | .closed cycle => some cycle
    | .extended found seen => search g members start fuel (queue ++ found) seen

/-- Every closed path ends at the start. -/
theorem scan_closed {members path targets : List Nat} {start : Nat} {found : List (List Nat)}
    {seen cycle : List Nat} (h : scan members start path targets found seen = .closed cycle) :
    cycle = start :: path := by
  induction targets generalizing found seen with
  | nil => simp [scan] at h
  | cons w rest ih =>
    simp only [scan] at h
    split at h
    · exact ih h
    · split at h
      · cases h; rfl
      · split at h
        · exact ih h
        · exact ih h

end ScriptCore.Cycle

namespace ScriptCore

/-- A shortest path from `start` back to itself through members of a component; just the start
twice if it leads to itself. -/
def Graph.cycleThrough (g : Graph) (members : List Nat) (start : Nat) : List Nat :=
  match Cycle.search g members start (members.length + 1) [[start]] [] with
  | some cycle => cycle.reverse
  | none => [start, start]

end ScriptCore
