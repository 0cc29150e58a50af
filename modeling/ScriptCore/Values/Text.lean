import ScriptCore.Values.Heap
import ScriptCore.Number.Decimal
import ScriptCore.Text.Quoted

/-!
# Text of values

Slices print in brackets, structs in braces, maps as `map[key:value ...]` with their entries in
key order.  Strings print as they are; only for inspection is a string put in quotation marks.
-/

namespace ScriptCore

namespace Value

/-- The value may have other values inside. -/
def isComposite : Value → Bool
  | .slice _ | .map _ | .struct _ => true
  | _ => false

mutual

/-- Text of a value, where `slice` and `map` answer for references. -/
def textWith (slice : Slice → String) (map : Nat → String) : Value → String
  | .nil => "<nil>"
  | .bool b => if b then "true" else "false"
  | .int i => toString i.toInt
  | .uint u => toString u.toNat
  | .float x => Decimal.text x
  | .complex re im => "(" ++ Decimal.text re ++ Decimal.signedText im ++ "i)"
  | .str s => s
  | .slice s => slice s
  | .map m => map m
  | .struct fs => "\x7b" ++ String.intercalate " " (textsWith slice map fs) ++ "\x7d"
  | .func _ name => "func " ++ name

/-- Texts of a list of values. -/
def textsWith (slice : Slice → String) (map : Nat → String) : List Value → List String
  | [] => []
  | v :: vs => textWith slice map v :: textsWith slice map vs

end

end Value

namespace Heap

/-- Text of a value through at most `fuel` references. -/
def textAt (h : Heap) : Nat → Value → String
  | 0 => Value.textWith (fun _ => "[]") (fun _ => "map[]")
  | fuel + 1 =>
    Value.textWith
      (fun s => "[" ++ String.intercalate " " ((h.elems s).map (h.textAt fuel)) ++ "]")
      (fun m => "map[" ++ String.intercalate " " ((h.entries m).map fun e =>
        h.textAt fuel e.1.toValue ++ ":" ++ h.textAt fuel e.2) ++ "]")

/-- Text of a value.  Each reference on the way to an inner value is kept in a place of its own,
but for the outermost. -/
def text (h : Heap) (v : Value) : String :=
  h.textAt (if v.isComposite then h.cells + 1 else 0) v

/-- Text of a value for inspection. -/
def quotedText (h : Heap) : Value → String
  | .str s => Text.quote s
  | v => h.text v

end Heap

end ScriptCore
