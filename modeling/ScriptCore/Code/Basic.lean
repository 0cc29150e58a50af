import ScriptCore.Values.Basic

/-!
# Code

What a program is compiled to.  A body is a flat list of instructions; control flow jumps to
labels.  Expressions, calls and locations are trees over the activation record of the body and the
records around it: a variable is addressed by how many records out it lives and by its slot there.

Everything that depends on a type alone, such as the kind to which an integer is narrowed or the
zero of a location, is stored in the tree.

Main statement: `Labels.bind_bind`, the first binding of a label stands.
-/

namespace ScriptCore

/-- Positions of the labels of a body, as far as they are bound. -/
abbrev Labels := List (Option Nat)

namespace Labels

/-- A label with no position lies past the end of every body. -/
def unbound : Nat := UInt64.size - 1

/-- Give a label a position unless it has one. -/
def bind (ls : Labels) (label position : Nat) : Labels :=
  ls.modify label fun p => p.or (some position)

/-- Position of a label. -/
def target (ls : Labels) (label : Nat) : Nat :=
  (ls[label]?.join).getD unbound

/-- The first binding of a label stands. -/
theorem bind_bind (ls : Labels) (label p q : Nat) :
    (ls.bind label p).bind label q = ls.bind label p := by
  apply List.ext_getElem?
  intro i
  simp only [bind, List.getElem?_modify]
  split <;> simp
  cases ls[i]? with
  | none => rfl
  | some o => cases o <;> rfl

end Labels

namespace Code

mutual

/-- An expression that gives one value. -/
inductive Expr where
  | const (v : Value)
  | load (depth slot : Nat)
  /-- A value that must be stored in the given way. -/
  | expect (category : Category) (e : Expr)
  | unary (op : UnaryOp) (kind : Kind) (e : Expr)
  | binary (op : BinaryOp) (kind : Kind) (a b : Expr)
  /-- The second operand is evaluated only if the first is true. -/
  | both (a b : Expr)
  /-- The second operand is evaluated only if the first is false. -/
  | either (a b : Expr)
  /-- The first result of a call, nil if there is none. -/
  | first (call : Call)
  | convert (type : Ty) (e : Expr)
  | length (e : Expr)
  | capacity (e : Expr)
  | makeSlice (len : Expr) (cap : Option Expr) (zero : Value)
  | makeMap
  | append (base : Expr) (elems : List Expr)
  | sliceOf (elems : List Expr)
  | mapOf (entries : List (Expr × Expr))
  | structOf (fields : List Expr)
  | mapGet (map key : Expr) (zero : Value)
  | sliceGet (slice index : Expr)
  | byteAt (str index : Expr)
  | field (index : Nat) (e : Expr)
  | closure (body : Body)
  | bindMethod (name : Name) (recv method : Expr)
  /-- An unsigned index as a signed one. -/
  | asIndex (e : Expr)
  | narrow (kind : Kind) (e : Expr)
  /-- A value that must fit the type; nil stands for the zero value. -/
  | ensure (type : Ty) (zero : Value) (e : Expr)

/-- A call, which gives any number of values. -/
inductive Call where
  | direct (func : Expr) (recv : Option Expr) (args : Args)
  /-- Removal of a key from a map. -/
  | delete (map key : Expr)

/-- Arguments of a call.  Those of a variadic function beyond the fixed ones are packed into one
slice, nil if there are none. -/
inductive Args where
  | list (fixed : List Expr) (rest : Option (List Expr))
  /-- The results of a call; from the given position on they are packed. -/
  | forward (call : Call) (packFrom : Option Nat)

/-- What a location is a part of: a record, a map, a slice, or a struct at another location. -/
inductive Container where
  | var (depth slot : Nat)
  | map (e : Expr)
  | slice (e : Expr)
  | field (base : Container) (key : Option Expr) (index : Nat) (zero : Value)

/-- An instruction. -/
inductive Instr where
  | eval (e : Expr)
  | run (call : Call)
  | store (container : Container) (key : Option Expr) (value : Expr)
  | update (container : Container) (key : Option Expr) (op : BinaryOp) (kind : Kind) (value : Expr)
      (zero : Value)
  /-- Evaluate all values, then store each in its slot; a value without slot is dropped. -/
  | setSlots (stores : List (Option Nat × Expr))
  /-- Store the results of a call in slots of the record `depth` levels out. -/
  | spread (call : Call) (depth : Nat) (slots : List (Option Nat))
  | jump (label : Nat)
  /-- Go on if the condition is true, else jump. -/
  | branch (condition : Expr) (label : Nat)
  | ret (values : List Expr)
  | retCall (call : Call)

/-- A body: instructions, the positions of its labels, and the number of its slots. -/
inductive Body where
  | mk (instrs : Array Instr) (labels : Labels) (slots : Nat)

end

instance : Inhabited Expr := ⟨.const .nil⟩
instance : Inhabited Instr := ⟨.ret []⟩
instance : Inhabited Body := ⟨.mk #[] [] 0⟩

namespace Body

/-- Instructions. -/
def instrs : Body → Array Instr
  | mk instrs _ _ => instrs

/-- Positions of labels. -/
def labels : Body → Labels
  | mk _ labels _ => labels

/-- Number of slots. -/
def slots : Body → Nat
  | mk _ _ slots => slots

end Body

/-- An expression and the way in which its value is stored; `unknown` for references, structs and
values of interfaces. -/
structure Typed where
  category : Category
  expr : Expr
deriving Inhabited

namespace Typed

/-- Categories whose values are checked when they are read. -/
def storage : Category → Category
  | .func => .unknown
  | c => c

/-- An expression of a type with the given category: its value is checked, except references,
structs and values of interfaces. -/
def ofCategory (c : Category) (e : Expr) : Typed :=
  match storage c with
  | .unknown => ⟨.unknown, e⟩
  | c => ⟨c, .expect c e⟩

/-- A fixed value used as one of the given category. -/
def constant (c : Category) (v : Value) : Typed :=
  match c, v with
  | .bool, .bool _ | .int, .int _ | .uint, .uint _ | .float, .float _
  | .complex, .complex _ _ | .string, .str _ => ⟨c, .const v⟩
  | _, _ => ⟨.unknown, .const v⟩

end Typed

end Code

end ScriptCore
