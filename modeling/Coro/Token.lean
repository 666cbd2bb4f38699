import Coro.IntType
import Coro.Text.Letters
import Coro.Text.Quoted

/-! The tokens of the language and how messages speak of them. -/

namespace Coro

/-- Reserved words. -/
inductive Keyword where
  | header | external | volatile | static | function | thread | subroutine
  | every | init | runnable | main
  | useReg | tune | cflags
  | letVar | yield | waitUntil | call
  | ifCondition | elseBranch | whileLoop | loop | breakLoop | continueLoop | returnFrom
  | trueValue | falseValue
  | likely | unlikely
  | type (kind : IntType)
deriving Repr, DecidableEq, Inhabited

namespace Keyword

/-- Every keyword. -/
def all : List Keyword :=
  [header, external, volatile, static, function, thread, subroutine, every, init, runnable, main,
   useReg, tune, cflags, letVar, yield, waitUntil, call, ifCondition, elseBranch, whileLoop, loop,
   breakLoop, continueLoop, returnFrom, trueValue, falseValue, likely, unlikely] ++ IntType.all.map type

/-- The keyword as it is written. -/
def text : Keyword → String
  | header => "include"
  | external => "extern"
  | volatile => "volatile"
  | static => "static"
  | function => "fn"
  | thread => "thread"
  | subroutine => "sub"
  | every => "every"
  | init => "init"
  | runnable => "runnable"
  | main => "main"
  | useReg => "use_reg"
  | tune => "tune"
  | cflags => "cflags"
  | letVar => "let"
  | yield => "yield"
  | waitUntil => "wait_until"
  | call => "call"
  | ifCondition => "if"
  | elseBranch => "else"
  | whileLoop => "while"
  | loop => "loop"
  | breakLoop => "break"
  | continueLoop => "continue"
  | returnFrom => "return"
  | trueValue => "true"
  | falseValue => "false"
  | likely => "likely"
  | unlikely => "unlikely"
  | type kind => kind.name

/-- The keyword that a word spells, in any case of letters. -/
def ofWord? (word : String) : Option Keyword :=
  all.find? fun keyword => sameWord keyword.text word

end Keyword

/-- Operators and punctuation marks. -/
inductive Punct where
  | assign | addAssign | subAssign | andAssign | orAssign | xorAssign
  | comma | period | semicolon | arrow
  | openParen | closeParen | openCurly | closeCurly | openSquare | closeSquare
  | plus | minus | times | slash | percent
  | amp | pipe | caret | tilde | bang | shl | shr
  | equal | notEqual | less | lessOrEqual | greater | greaterOrEqual
  | andAnd | orOr
deriving Repr, DecidableEq, Inhabited

/-- The mark as it is written. -/
def Punct.text : Punct → String
  | assign => "="
  | addAssign => "+="
  | subAssign => "-="
  | andAssign => "&="
  | orAssign => "|="
  | xorAssign => "^="
  | comma => ","
  | period => "."
  | semicolon => ";"
  | arrow => "->"
  | openParen => "("
  | closeParen => ")"
  | openCurly => "\x7b"
  | closeCurly => "\x7d"
  | openSquare => "["
  | closeSquare => "]"
  | plus => "+"
  | minus => "-"
  | times => "*"
  | slash => "/"
  | percent => "%"
  | amp => "&"
  | pipe => "|"
  | caret => "^"
  | tilde => "~"
  | bang => "!"
  | shl => "<<"
  | shr => ">>"
  | equal => "=="
  | notEqual => "!="
  | less => "<"
  | lessOrEqual => "<="
  | greater => ">"
  | greaterOrEqual => ">="
  | andAnd => "&&"
  | orOr => "||"

/-- A unit of the text. -/
inductive Token where
  | id (name : String)
  | keyword (word : Keyword)
  | int (value : Nat)
  | char (byte : UInt8)
  | str (text : String)
  | punct (mark : Punct)
deriving Repr, DecidableEq, Inhabited

/-- The token as messages speak of it. -/
def Token.describe : Token → String
  | .id name => "identifier `" ++ name ++ "`"
  | .keyword word => "keyword `" ++ word.text ++ "`"
  | .int value => "literal `" ++ toString value ++ "`"
  | .char byte => "literal " ++ quoteChar (Char.ofNat byte.toNat)
  | .str text => "literal " ++ quoteString text
  | .punct mark => "`" ++ mark.text ++ "`"

end Coro
