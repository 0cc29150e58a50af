import ScriptCore.Code.Basic

/-!
# Positions in a body

A body runs from its first instruction on.  After an instruction the run goes on at the next one
or at a label, and it stops past the end; a label that was never bound lies past the end of every
body.

Main statements: `advance_of_lt` (the next position is one more, up to the last one there is) and
`isPast_unbound`.
-/

namespace ScriptCore

/-- Where the run of a body is, and what it has returned. -/
structure Cursor where
  position : Nat
  results : List Value
deriving Inhabited

namespace Cursor

/-- Before the first instruction. -/
def start : Cursor := ⟨0, []⟩

/-- At another position. -/
def moveTo (c : Cursor) (position : Nat) : Cursor :=
  { c with position }

/-- At the next position; the last position has none after it. -/
def advance (c : Cursor) : Cursor :=
  c.moveTo (min (c.position + 1) Labels.unbound)

/-- With results to return. -/
def setResults (c : Cursor) (values : List Value) : Cursor :=
  { c with results := values }

/-- The results, which are then gone. -/
def takeResults (c : Cursor) : List Value × Cursor :=
  (c.results, { c with results := [] })

/-- The cursor is past the end of a body of `size` instructions. -/
def isPast (c : Cursor) (size : Nat) : Bool :=
  decide (size ≤ c.position)

/-- The next position is one more, up to the last position there is. -/
theorem advance_of_lt {c : Cursor} (h : c.position < Labels.unbound) :
    c.advance.position = c.position + 1 := by
  simp only [advance, moveTo]
  omega

/-- A label that was never bound lies past the end of every body. -/
theorem isPast_unbound (c : Cursor) {size : Nat} (h : size ≤ Labels.unbound) :
    (c.moveTo Labels.unbound).isPast size = true := by
  simp [isPast, moveTo, h]

end Cursor

end ScriptCore
