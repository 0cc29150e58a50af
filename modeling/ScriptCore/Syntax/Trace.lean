import ScriptCore.Syntax.Walk

/-!
# Texts of walks

A line for every node that a walk meets: what it is, its form and its span.

Main statement: `trace_append`, the lines of two walks are those of one after those of the other.
-/

namespace ScriptCore

/-- Text of a span. -/
def Span.text (s : Span) : String :=
  toString s.start ++ ".." ++ toString s.stop

/-- Name of a form of expression. -/
def ExprKind.form : ExprKind → String
  | .ident _ => "Ident" | .nil => "Nil" | .bool _ => "Bool" | .int _ => "Int"
  | .float _ => "Float" | .imag _ => "Imag" | .str _ => "Str" | .unary _ _ => "Unary"
  | .binary _ _ _ => "Binary" | .call _ _ => "Call" | .index _ _ => "Index"
  | .selector _ _ => "Selector" | .paren _ => "Paren" | .composite _ _ => "Composite"
  | .funcLit _ _ => "FuncLit" | .type _ => "Type"

/-- Name of a form of statement. -/
def StmtKind.form : StmtKind → String
  | .expr _ => "Expr" | .assign _ _ => "Assign" | .opAssign _ _ _ => "OpAssign"
  | .define _ _ => "Define" | .var _ => "Var" | .incDec _ _ => "IncDec" | .cond _ _ _ => "If"
  | .loop _ _ _ _ => "For" | .break => "Break" | .continue => "Continue"
  | .return _ => "Return" | .block _ => "Block"

/-- Name of a form of type expression. -/
def TypeKind.form : TypeKind → String
  | .named _ => "Named" | .qualified _ _ => "Qualified" | .slice _ => "Slice"
  | .array _ _ => "Array" | .map _ _ => "Map" | .pointer _ => "Pointer" | .func _ => "Func"
  | .struct _ => "Struct" | .interface _ => "Interface"

/-- Name of a form of item. -/
def Item.form : Item → String
  | .const _ => "Const" | .var _ => "Var" | .type _ => "Type" | .func _ => "Func"
  | .macroDecl _ => "Macro" | .importDecl _ => "Import"

/-- A word, a form and a span. -/
def formText (word form : String) (s : Span) : String :=
  word ++ " " ++ form ++ " " ++ s.text

/-- Line for what a walk meets. -/
def Event.text : Event → String
  | .item i => formText "item" i.form i.span
  | .spec s => "spec " ++ s.text
  | .decl s => "decl " ++ s.text
  | .expr (.node s k) => formText "expr" k.form s
  | .stmt (.node s k) => formText "stmt" k.form s
  | .type (.node s k) => formText "type" k.form s
  | .sig s =>
    "sig " ++ toString s.params.length ++ " " ++ toString s.results.length ++ " "
      ++ toString s.variadic

/-- Lines of a walk over items. -/
def trace (items : List Item) : List String :=
  (walkItems items).map Event.text

/-- The lines of two walks are those of one after those of the other. -/
theorem trace_append (a b : List Item) : trace (a ++ b) = trace a ++ trace b := by
  simp [trace, walkItems_append]

end ScriptCore
