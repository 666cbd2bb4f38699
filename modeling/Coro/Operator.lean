/-! Operators of expressions: how they are written, how tightly they bind and what they compute. -/

namespace Coro

/-- Operators before one operand. -/
inductive UnaryOp where
  | negate | not | complement
deriving Repr, DecidableEq, Inhabited

/-- Operators between two operands. -/
inductive BinaryOp where
  | add | sub | mul | div | mod
  | and | or | xor | shl | shr
  | equal | notEqual | less | lessOrEqual | greater | greaterOrEqual
  | logicAnd | logicOr
deriving Repr, DecidableEq, Inhabited

/-- The integer that stands for a truth value. -/
def truth (holds : Bool) : Int64 :=
  if holds then 1 else 0

namespace UnaryOp

/-- Every unary operator. -/
def all : List UnaryOp := [negate, not, complement]

/-- The operator as it is written. -/
def symbol : UnaryOp → String
  | negate => "-"
  | not => "!"
  | complement => "~"

/-- The operator on 64-bit integers, which wrap around. -/
def apply : UnaryOp → Int64 → Int64
  | negate, value => -value
  | not, value => truth (value == 0)
  | complement, value => ~~~value

end UnaryOp

namespace BinaryOp

/-- Every binary operator. -/
def all : List BinaryOp :=
  [add, sub, mul, div, mod, and, or, xor, shl, shr, equal, notEqual, less, lessOrEqual, greater,
   greaterOrEqual, logicAnd, logicOr]

/-- The operator as it is written. -/
def symbol : BinaryOp → String
  | add => "+"
  | sub => "-"
  | mul => "*"
  | div => "/"
  | mod => "%"
  | and => "&"
  | or => "|"
  | xor => "^"
  | shl => "<<"
  | shr => ">>"
  | equal => "=="
  | notEqual => "!="
  | less => "<"
  | lessOrEqual => "<="
  | greater => ">"
  | greaterOrEqual => ">="
  | logicAnd => "&&"
  | logicOr => "||"

/-- How tightly the operator binds, from one for the loosest. -/
def precedence : BinaryOp → Nat
  | logicOr => 1
  | logicAnd => 2
  | or => 3
  | xor => 4
  | and => 5
  | equal | notEqual => 6
  | less | lessOrEqual | greater | greaterOrEqual => 7
  | shl | shr => 8
  | add | sub => 9
  | mul | div | mod => 10

/--
The operator on 64-bit integers, which wrap around; nothing for a division by zero.

Division goes toward zero, shifts take the low six bits of their amount, and both operands of a
logical operator are given: leaving the right one out is up to the evaluation.
-/
def result? : BinaryOp → Int64 → Int64 → Option Int64
  | add, left, right => some (left + right)
  | sub, left, right => some (left - right)
  | mul, left, right => some (left * right)
  | div, left, right => if right = 0 then none else some (left / right)
  | mod, left, right => if right = 0 then none else some (left % right)
  | and, left, right => some (left &&& right)
  | or, left, right => some (left ||| right)
  | xor, left, right => some (left ^^^ right)
  | shl, left, right => some (left <<< right)
  | shr, left, right => some (left >>> right)
  | equal, left, right => some (truth (left == right))
  | notEqual, left, right => some (truth (left != right))
  | less, left, right => some (truth (decide (left < right)))
  | lessOrEqual, left, right => some (truth (decide (left ≤ right)))
  | greater, left, right => some (truth (decide (right < left)))
  | greaterOrEqual, left, right => some (truth (decide (right ≤ left)))
  | logicAnd, left, right => some (truth (left != 0 && right != 0))
  | logicOr, left, right => some (truth (left != 0 || right != 0))

end BinaryOp

end Coro
