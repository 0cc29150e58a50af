import ScriptCore.Types.Kind
import ScriptCore.Syntax.Basic

/-!
# Types

A type is a tree.  Equality is structural, except that a named type is the same only as itself:
it carries a number that no other named type has.  What a named type stands for, and its methods,
are kept apart from the tree (see `ScriptCore.Types.Table`), so recursive types are finite trees.

Main statement: `Ty.same_iff`, the comparison `Ty.same` decides equality.
-/

namespace ScriptCore

/-- A struct field. -/
structure FieldOf (α : Type) where
  name : Name
  type : α
  embedded : Bool
deriving Repr, Inhabited

/-- A method with its function type. -/
structure MethodOf (α : Type) where
  name : Name
  type : α
deriving Repr, Inhabited

/-- Types.  Methods of an interface are sorted by name.  The receiver of a method is not among its
parameters; the last parameter of a variadic function is a slice. -/
inductive Ty where
  | basic (kind : Kind)
  | slice (elem : Ty)
  | array (len : Nat) (elem : Ty)
  | map (key value : Ty)
  | pointer (elem : Ty)
  | struct (fields : List (FieldOf Ty))
  | interface (methods : List (MethodOf Ty))
  | func (recv : Option Ty) (params results : List Ty) (variadic : Bool)
  | named (id : Nat) (name : Name) (package : Option String)
deriving Repr, Inhabited

/-- A struct field. -/
abbrev Field := FieldOf Ty

/-- A method. -/
abbrev Method := MethodOf Ty

namespace Ty

mutual

/-- Comparison of two types. -/
def same : Ty → Ty → Bool
  | basic a, basic b => a == b
  | slice a, slice b => same a b
  | array m a, array n b => m == n && same a b
  | map k v, map k' v' => same k k' && same v v'
  | pointer a, pointer b => same a b
  | struct fs, struct gs => sameFields fs gs
  | interface ms, interface ns => sameMethods ms ns
  | func r ps rs v, func r' ps' rs' v' =>
    sameOption r r' && sameList ps ps' && sameList rs rs' && v == v'
  | named i n p, named j m q => i == j && n == m && p == q
  | _, _ => false

/-- Comparison of two lists of types. -/
def sameList : List Ty → List Ty → Bool
  | [], [] => true
  | a :: as, b :: bs => same a b && sameList as bs
  | _, _ => false

/-- Comparison of two optional types. -/
def sameOption : Option Ty → Option Ty → Bool
  | none, none => true
  | some a, some b => same a b
  | _, _ => false

/-- Comparison of two lists of fields. -/
def sameFields : List (FieldOf Ty) → List (FieldOf Ty) → Bool
  | [], [] => true
  | ⟨n, a, e⟩ :: fs, ⟨m, b, e'⟩ :: gs => n == m && same a b && e == e' && sameFields fs gs
  | _, _ => false

/-- Comparison of two lists of methods. -/
def sameMethods : List (MethodOf Ty) → List (MethodOf Ty) → Bool
  | [], [] => true
  | ⟨n, a⟩ :: ms, ⟨m, b⟩ :: ns => n == m && same a b && sameMethods ms ns
  | _, _ => false

end

mutual

/-- The comparison decides equality. -/
theorem same_iff (a b : Ty) : same a b = true ↔ a = b := by
  cases a <;> cases b
  case basic.basic a b => simp [same]
  case slice.slice a b => simp [same, same_iff a b]
  case array.array m a n b => simp [same, same_iff a b]
  case map.map k v k' v' => simp [same, same_iff k k', same_iff v v']
  case pointer.pointer a b => simp [same, same_iff a b]
  case struct.struct fs gs => simp [same, sameFields_iff fs gs]
  case interface.interface ms ns => simp [same, sameMethods_iff ms ns]
  case func.func r ps rs v r' ps' rs' v' =>
    simp [same, sameOption_iff r r', sameList_iff ps ps', sameList_iff rs rs', and_assoc]
  case named.named i n p j m q => simp [same, and_assoc]
  all_goals simp [same]

/-- The comparison decides equality of lists. -/
theorem sameList_iff (as bs : List Ty) : sameList as bs = true ↔ as = bs := by
  match as, bs with
  | [], [] => simp [sameList]
  | [], _ :: _ => simp [sameList]
  | _ :: _, [] => simp [sameList]
  | a :: as, b :: bs => simp [sameList, same_iff a b, sameList_iff as bs]

/-- The comparison decides equality of optional types. -/
theorem sameOption_iff (a b : Option Ty) : sameOption a b = true ↔ a = b := by
  match a, b with
  | none, none => simp [sameOption]
  | none, some _ => simp [sameOption]
  | some _, none => simp [sameOption]
  | some a, some b => simp [sameOption, same_iff a b]

/-- The comparison decides equality of fields. -/
theorem sameFields_iff (fs gs : List (FieldOf Ty)) : sameFields fs gs = true ↔ fs = gs := by
  match fs, gs with
  | [], [] => simp [sameFields]
  | [], _ :: _ => simp [sameFields]
  | _ :: _, [] => simp [sameFields]
  | ⟨n, a, e⟩ :: fs, ⟨m, b, e'⟩ :: gs =>
    simp [sameFields, same_iff a b, sameFields_iff fs gs, and_assoc]

/-- The comparison decides equality of methods. -/
theorem sameMethods_iff (ms ns : List (MethodOf Ty)) : sameMethods ms ns = true ↔ ms = ns := by
  match ms, ns with
  | [], [] => simp [sameMethods]
  | [], _ :: _ => simp [sameMethods]
  | _ :: _, [] => simp [sameMethods]
  | ⟨n, a⟩ :: ms, ⟨m, b⟩ :: ns =>
    simp [sameMethods, same_iff a b, sameMethods_iff ms ns]

end

instance : DecidableEq Ty := fun a b => decidable_of_iff _ (same_iff a b)

/-- Shape of a type; a named type has none of its own. -/
def shape : Ty → Kind
  | basic k => k
  | slice _ => .slice
  | array _ _ => .array
  | map _ _ => .map
  | pointer _ => .pointer
  | struct _ => .struct
  | interface _ => .interface
  | func .. => .func
  | named .. => .invalid

/-- Types that a declaration made. -/
def isNamed : Ty → Bool
  | named .. => true
  | _ => false

/-- Declared and predeclared types, as opposed to type literals. -/
def isDefined : Ty → Bool
  | named .. | basic _ => true
  | _ => false

/-- Declared name. -/
def name? : Ty → Option Name
  | named _ n _ => some n
  | _ => none

/-- Package of a declared type. -/
def package? : Ty → Option String
  | named _ _ p => p
  | _ => none

end Ty

/-- Text without any number of copies of `word` at its start. -/
def dropRepeated (word : List Char) (fuel : Nat) (text : List Char) : List Char :=
  match fuel with
  | 0 => text
  | n + 1 =>
    if word.isPrefixOf text then dropRepeated word n (text.drop word.length) else text

/-- Text without the words `func` at its start. -/
def dropFunc (s : String) : String :=
  let text := s.toList
  String.ofList (dropRepeated ['f', 'u', 'n', 'c'] text.length text)

namespace Ty

/-- Texts in parentheses or alone, as function results are written. -/
def resultsText : List String → String
  | [] => ""
  | [single] => " " ++ single
  | several => " (" ++ String.intercalate ", " several ++ ")"

/-- A group of fields or methods in braces. -/
def bracedText (word : String) : List String → String
  | [] => word ++ " \x7b\x7d"
  | parts => word ++ " \x7b " ++ String.intercalate "; " parts ++ " \x7d"

mutual

/-- Text of a type. -/
def text : Ty → String
  | basic k => k.text
  | slice e => "[]" ++ e.text
  | array n e => "[" ++ toString n ++ "]" ++ e.text
  | map k v => "map[" ++ k.text ++ "]" ++ v.text
  | pointer e => "*" ++ e.text
  | struct fs => bracedText "struct" (fieldTexts fs)
  | interface ms => bracedText "interface" (methodTexts ms)
  | func recv ps rs variadic =>
    recvText recv ++ "func(" ++ String.intercalate ", " (paramTexts variadic ps) ++ ")"
      ++ resultsText (texts rs)
  | named _ n none => n
  | named _ n (some p) => p ++ "." ++ n

/-- Texts of a list of types. -/
def texts : List Ty → List String
  | [] => []
  | t :: ts => t.text :: texts ts

/-- A receiver in parentheses. -/
def recvText : Option Ty → String
  | none => ""
  | some r => "(" ++ r.text ++ ") "

/-- Fields as they are declared; an embedded one by its type alone. -/
def fieldTexts : List (FieldOf Ty) → List String
  | [] => []
  | ⟨n, t, embedded⟩ :: fs => (if embedded then t.text else n ++ " " ++ t.text) :: fieldTexts fs

/-- Methods as they are declared: the name with the signature. -/
def methodTexts : List (MethodOf Ty) → List String
  | [] => []
  | ⟨n, t⟩ :: ms => (n ++ dropFunc t.text) :: methodTexts ms

/-- Parameters; the last one of a variadic function by the element of its slice. -/
def paramTexts (variadic : Bool) : List Ty → List String
  | [] => []
  | [slice e] => [if variadic then "..." ++ e.text else "[]" ++ e.text]
  | t :: ts => t.text :: paramTexts variadic ts

end

end Ty

end ScriptCore
