import Coro.Program.Instr

/-! Expressions in the generated file. -/

namespace Coro.Emit

/-- How variables and functions are called in one body. -/
structure Names where
  var : Var → String
  callee : Callee → String

/-- The names in a body with given local variables. -/
def Names.ofLocals (model : Model) (locals : List Local) : Names where
  var
    | .static id => (model.statics.getD id default).path.symbol
    | .localVar id => (locals.getD id default).name
    | .external id => (model.externals.getD id default).name
  callee
    | .function id => (model.functions.getD id default).name
    | .external id => (model.externals.getD id default).name

mutual

/-- An expression, with parentheses around every operator. -/
def exprText (names : Names) : Expr → String
  | .const value => toString value.toInt
  | .read var => names.var var
  | .element var index => names.var var ++ "[" ++ exprText names index ++ "]"
  | .call callee args =>
    names.callee callee ++ "(" ++ ", ".intercalate (exprTexts names args) ++ ")"
  | .unary op operand => "(" ++ op.symbol ++ exprText names operand ++ ")"
  | .binary op left right =>
    "(" ++ exprText names left ++ " " ++ op.symbol ++ " " ++ exprText names right ++ ")"

/-- Expressions one by one. -/
def exprTexts (names : Names) : List Expr → List String
  | [] => []
  | first :: rest => exprText names first :: exprTexts names rest

end

/-- What is assigned to. -/
def placeText (names : Names) (place : Place) : String :=
  match place.index with
  | none => names.var place.var
  | some index => names.var place.var ++ "[" ++ exprText names index ++ "]"

end Coro.Emit
