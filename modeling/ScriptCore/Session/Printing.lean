import ScriptCore.Session.Basic
import ScriptCore.Values.Text

/-!
# Printing

The package `fmt` prints values or makes strings of them; `panic` ends the program with the text of
a value.  In a line all values are separated by spaces; otherwise a space stands only between two
values neither of which is a string.

Main statements: `joined_strings` (strings are joined without spaces) and `lineText_nil`.
-/

namespace ScriptCore

namespace Printing

/-- Arguments of a variadic function, which come packed into one value. -/
def unpack (h : Heap) : List Value → List Value
  | .slice s :: _ => h.elems s
  | .nil :: _ | [] => []
  | v :: _ => [v]

/-- The value is a string. -/
def isString : Value → Bool
  | .str _ => true
  | _ => false

/-- Texts of values, with a space between two that are no strings. -/
def joined (h : Heap) : List Value → String
  | [] => ""
  | [v] => h.text v
  | v :: w :: rest =>
    h.text v ++ (if isString v || isString w then "" else " ") ++ joined h (w :: rest)

/-- Texts of values in a line. -/
def lineText (h : Heap) (values : List Value) : String :=
  String.intercalate " " (values.map h.text) ++ "\n"

/-- Strings are joined without spaces. -/
theorem joined_strings (h : Heap) (a b : String) :
    joined h [.str a, .str b] = h.text (.str a) ++ h.text (.str b) := by
  simp [joined, isString]

/-- A line without values is empty. -/
theorem lineText_nil (h : Heap) : lineText h [] = "\n" := rfl

/-- Print the text of the arguments. -/
def printing (text : Heap → List Value → String) : HostBody := fun _ args => do
  let h := (← get).heap
  Run.print (text h (unpack h args))
  return []

/-- The text of the arguments as a string. -/
def formatting (text : Heap → List Value → String) : HostBody := fun _ args => do
  let h := (← get).heap
  return [.str (text h (unpack h args))]

/-- Type of functions that take any values. -/
def variadicType (results : List Ty) : Ty :=
  .func none [.slice (.interface [])] results true

/-- Members of the package `fmt`. -/
def members : List HostEntry :=
  [⟨"Print", variadicType [], printing joined⟩,
   ⟨"Println", variadicType [], printing lineText⟩,
   ⟨"Sprint", variadicType [.basic .string], formatting joined⟩,
   ⟨"Sprintln", variadicType [.basic .string], formatting lineText⟩]

/-- End the program with the text of the argument. -/
def panic : HostEntry where
  name := "panic"
  type := .func none [.interface []] [] false
  body := fun _ args => do
    let h := (← get).heap
    Run.fail (.host ("panic: " ++ args.head?.elim "" h.text))

end Printing

/-- A session with the package `fmt` and `panic`. -/
def Session.standard : Session :=
  (Session.empty.addPackage "fmt" Printing.members).addFunc Printing.panic

end ScriptCore
