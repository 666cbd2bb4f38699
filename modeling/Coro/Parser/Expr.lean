import Coro.Ast
import Coro.Parser.Cursor

/-! Reading expressions by the precedence of their operators. -/

namespace Coro

/-- The unary operator that a token stands for. -/
def UnaryOp.ofToken? : Token → Option UnaryOp
  | .punct .minus => some .negate
  | .punct .bang => some .not
  | .punct .tilde => some .complement
  | _ => none

/-- The binary operator that a token stands for. -/
def BinaryOp.ofToken? : Token → Option BinaryOp
  | .punct .orOr => some .logicOr
  | .punct .andAnd => some .logicAnd
  | .punct .pipe => some .or
  | .punct .caret => some .xor
  | .punct .amp => some .and
  | .punct .equal => some .equal
  | .punct .notEqual => some .notEqual
  | .punct .less => some .less
  | .punct .lessOrEqual => some .lessOrEqual
  | .punct .greater => some .greater
  | .punct .greaterOrEqual => some .greaterOrEqual
  | .punct .shl => some .shl
  | .punct .shr => some .shr
  | .punct .plus => some .add
  | .punct .minus => some .sub
  | .punct .times => some .mul
  | .punct .slash => some .div
  | .punct .percent => some .mod
  | _ => none

namespace Parser

/-- Reads a literal. -/
def literal : Parser Ast.Expr := do
  let token ← next
  match token.value with
  | .int value => return .int value token.location
  | .char byte => return .char byte token.location
  | .keyword .trueValue => return .int 1 token.location
  | .keyword .falseValue => return .int 0 token.location
  | _ => fail .expectedExpr

mutual

/--
Reads an operand: a literal, a name, an element, a call, an expression in parentheses, or an
operand behind a unary operator.

The budget bounds the tokens still to come, so it runs out only where they do.
-/
def operand : Nat → Parser Ast.Expr
  | 0 => fail .unexpectedEof
  | budget + 1 => do
    let token ← peek
    match UnaryOp.ofToken? token with
    | some op =>
      let sign ← next
      let inner ← operand budget
      return .unary op inner (.span sign.location inner.location)
    | none =>
      match token with
      | .id _ =>
        -- A name comes with arguments, with an index, or alone.
        let name ← identifier
        if ← sees (.punct .openParen) then
          mark .openParen
          let args ← separated (do climb budget 1 (← operand budget)) (.punct .closeParen) budget
          return .call name args (← spanFrom name.location)
        else if ← sees (.punct .openSquare) then
          mark .openSquare
          let index ← climb budget 1 (← operand budget)
          mark .closeSquare
          return .element name index (← spanFrom name.location)
        else return .name name
      | .punct .openParen =>
        mark .openParen
        let inner ← climb budget 1 (← operand budget)
        mark .closeParen
        return inner
      | _ => literal

/--
Extends a left operand by every operator that binds at least as tightly as required.

An operator takes as its right operand all that binds more tightly than itself.
-/
def climb : Nat → Nat → Ast.Expr → Parser Ast.Expr
  | 0, _, left => return left
  | budget + 1, least, left => do
    match (← peek?).bind BinaryOp.ofToken? with
    | none => return left
    | some op =>
      if op.precedence < least then return left
      else
        -- Equal operators stay for the next round, so they group to the left.
        let _ ← next
        let right ← climb budget (op.precedence + 1) (← operand budget)
        climb budget least (.binary op left right (.span left.location right.location))

end

/-- Reads a whole expression. -/
def expression (budget : Nat) : Parser Ast.Expr := do
  climb budget 1 (← operand budget)

/-- Reads what is assigned to. -/
def target (budget : Nat) : Parser Ast.Target := do
  let name ← identifier
  if ← sees (.punct .openSquare) then
    mark .openSquare
    let index ← expression budget
    mark .closeSquare
    return ⟨name, some index, ← spanFrom name.location⟩
  else return ⟨name, none, name.location⟩

end Parser

end Coro
