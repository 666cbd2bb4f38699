import Coro.Token

/-! Reading one token at the head of a text. -/

namespace Coro

/-- Why a text cannot be cut into tokens. -/
inductive LexError where
  /-- The text itself could not be read any further. -/
  | input
  | badChar (c : Char)
  | expected (c : Char)
  | intOverflow
  | badCharLiteral
  | unterminatedString
deriving Repr, DecidableEq, Inhabited

/-- The largest integer literal. -/
def literalMax : Nat := 4294967295

/-- The error as it is reported. -/
def LexError.message : LexError → String
  | input => "I/O error"
  | badChar c => "Bad character " ++ quoteChar c ++ " in input stream"
  | expected c => "Expected " ++ quoteChar c
  | intOverflow => "Integer literal overflow, valid range is [0, " ++ toString literalMax ++ "]"
  | badCharLiteral => "Malformed character literal"
  | unterminatedString => "Unterminated string literal"

/-- A token or an error, the characters accepted before it was settled, and those that remain. -/
structure Reading where
  outcome : Except LexError Token
  lexeme : List Char
  rest : List Char

/-- The same reading with one more character accepted in front. -/
def Reading.push (c : Char) (reading : Reading) : Reading :=
  { reading with lexeme := c :: reading.lexeme }

/-- A token made of a given lexeme. -/
def Reading.accept (token : Token) (lexeme rest : List Char) : Reading :=
  ⟨.ok token, lexeme, rest⟩

/-- An error found behind a given lexeme. -/
def Reading.refuse (error : LexError) (lexeme rest : List Char) : Reading :=
  ⟨.error error, lexeme, rest⟩

/-- The value of a digit in a given base. -/
def digitValue? (radix : Nat) (c : Char) : Option Nat :=
  -- Letters count on from ten, and the base decides how many of them are digits.
  let value? :=
    if '0' ≤ c ∧ c ≤ '9' then some (c.toNat - '0'.toNat)
    else if 'a' ≤ c ∧ c ≤ 'f' then some (c.toNat - 'a'.toNat + 10)
    else if 'A' ≤ c ∧ c ≤ 'F' then some (c.toNat - 'A'.toNat + 10)
    else none
  value?.filter (· < radix)

/-- Reads digits up to the first other character, which must not belong to a word. -/
def readDigits (radix value : Nat) : List Char → Reading
  | [] => .accept (.int value) [] []
  | c :: rest =>
    match digitValue? radix c with
    | some digit =>
      -- The limit is tested at every digit, so the value never grows far beyond it.
      let larger := value * radix + digit
      if larger ≤ literalMax then (readDigits radix larger rest).push c
      else .refuse .intOverflow [] (c :: rest)
    | none =>
      -- A word character right behind a number belongs to neither.
      if isWordChar c then .refuse (.badChar c) [] (c :: rest)
      else .accept (.int value) [] (c :: rest)

/-- Reads what follows a zero: digits in base sixteen behind an `x`, decimal digits, or nothing. -/
def readAfterZero : List Char → Reading
  | [] => .accept (.int 0) [] []
  | c :: rest =>
    -- A zero before decimal digits adds nothing to their value.
    if c = 'x' ∨ c = 'X' then (readDigits 16 0 rest).push c
    else if c.isDigit then readDigits 10 0 (c :: rest)
    else .accept (.int 0) [] (c :: rest)

/-- The byte that an escape in a character literal stands for. -/
def escapeByte? (c : Char) : Option UInt8 :=
  if c = 'n' then some 10
  else if c = 'r' then some 13
  else if c = 't' then some 9
  else if c = '0' then some 0
  else if c = '\\' then some 92
  else if c = '\'' then some 39
  else none

/-- Reads the quote that closes a character literal. -/
def readCharClose (byte : UInt8) : List Char → Reading
  | [] => .refuse (.expected '\'') [] []
  | c :: rest =>
    if c = '\'' then .accept (.char byte) [c] rest
    else .refuse (.expected '\'') [] (c :: rest)

/-- Reads what follows the backslash of a character literal. -/
def readCharEscape : List Char → Reading
  | [] => .refuse .badCharLiteral [] []
  | c :: rest =>
    match escapeByte? c with
    | some byte => (readCharClose byte rest).push c
    | none => .refuse .badCharLiteral [] (c :: rest)

/-- Reads what follows the quote that opens a character literal. -/
def readCharOpen : List Char → Reading
  | [] => .refuse .badCharLiteral [] []
  | c :: rest =>
    -- Only ASCII fits into the byte, and neither a quote nor a line feed stands for itself.
    if c = '\\' then (readCharEscape rest).push c
    else if c.toNat < 128 ∧ c ≠ '\'' ∧ c ≠ '\n' then
      (readCharClose (UInt8.ofNat c.toNat) rest).push c
    else .refuse .badCharLiteral [] (c :: rest)

/-- Reads what follows the quote that opens a string literal; there are no escapes. -/
def readStringOpen (text : List Char) : Reading :=
  -- A line feed before the closing quote leaves the string open.
  let inside := fun c => c != '"' && c != '\n'
  let body := text.takeWhile inside
  match text.dropWhile inside with
  | [] => .refuse .unterminatedString body []
  | c :: rest =>
    if c = '"' then .accept (.str (String.ofList body)) (body ++ [c]) rest
    else .refuse .unterminatedString body (c :: rest)

/-- The token of a whole word. -/
def wordToken (word : String) : Token :=
  match Keyword.ofWord? word with
  | some keyword => .keyword keyword
  | none => .id word

/-- Reads the longest word. -/
def readWord (text : List Char) : Reading :=
  let word := text.takeWhile isWordChar
  .accept (wordToken (String.ofList word)) word (text.dropWhile isWordChar)

/-- The mark of one character. -/
def singlePunct? (c : Char) : Option Punct :=
  if c = ',' then some .comma
  else if c = '.' then some .period
  else if c = ';' then some .semicolon
  else if c = '(' then some .openParen
  else if c = ')' then some .closeParen
  else if c = '\x7b' then some .openCurly
  else if c = '\x7d' then some .closeCurly
  else if c = '[' then some .openSquare
  else if c = ']' then some .closeSquare
  else if c = '*' then some .times
  else if c = '%' then some .percent
  else if c = '~' then some .tilde
  else if c = '/' then some .slash
  else if c = '=' then some .assign
  else if c = '+' then some .plus
  else if c = '-' then some .minus
  else if c = '&' then some .amp
  else if c = '|' then some .pipe
  else if c = '^' then some .caret
  else if c = '!' then some .bang
  else if c = '<' then some .less
  else if c = '>' then some .greater
  else none

/-- The mark of two characters. -/
def doublePunct? (first second : Char) : Option Punct :=
  match first, second with
  | '=', '=' => some .equal
  | '!', '=' => some .notEqual
  | '<', '=' => some .lessOrEqual
  | '>', '=' => some .greaterOrEqual
  | '<', '<' => some .shl
  | '>', '>' => some .shr
  | '&', '&' => some .andAnd
  | '|', '|' => some .orOr
  | '+', '=' => some .addAssign
  | '-', '=' => some .subAssign
  | '&', '=' => some .andAssign
  | '|', '=' => some .orAssign
  | '^', '=' => some .xorAssign
  | '-', '>' => some .arrow
  | _, _ => none

/-- Reads a mark of two characters, else one of one; the head of the text is given apart. -/
def readPunct (first : Char) (rest : List Char) : Reading :=
  -- The longer mark wins.
  match rest.head?.bind (doublePunct? first) with
  | some punct => .accept (.punct punct) (first :: rest.take 1) (rest.drop 1)
  | none =>
    match singlePunct? first with
    | some punct => .accept (.punct punct) [first] rest
    | none => .refuse (.badChar first) [] (first :: rest)

/-- Reads the token that starts with a given character. -/
def readToken (first : Char) (rest : List Char) : Reading :=
  -- The first character alone decides which kind of token follows.
  if isWordStart first then readWord (first :: rest)
  else if first = '0' then (readAfterZero rest).push first
  else if first.isDigit then readDigits 10 0 (first :: rest)
  else if first = '\'' then (readCharOpen rest).push first
  else if first = '"' then (readStringOpen rest).push first
  else readPunct first rest

end Coro
