import Coro.Location
import Coro.Token

/-! Reading a list of tokens from the left, and the errors found on the way. -/

namespace Coro

/-- Why a list of tokens is no description. -/
inductive ParseError where
  | unexpectedToken (wanted found : Token)
  | missingToken (wanted : Token)
  | expectedId
  | expectedType
  | expectedInteger
  | expectedString
  | expectedItem
  | expectedStatement
  | expectedExpr
  | expectedAssignment
  | unknownInterval (name : String)
  | unexpectedEof
deriving Repr, DecidableEq, Inhabited

/-- The error as it is reported. -/
def ParseError.message : ParseError → String
  | unexpectedToken wanted found =>
    "Expected token " ++ wanted.describe ++ ", found " ++ found.describe ++ " instead"
  | missingToken wanted => "Expected token " ++ wanted.describe ++ ", none was found instead"
  | expectedId => "Expected identifier"
  | expectedType =>
    "Expected a type (`u8`, `u16`, `u24`, `u32`, `i8`, `i16`, `i24`, `i32`)"
  | expectedInteger => "Expected an integer literal"
  | expectedString => "Expected a string literal"
  | expectedItem =>
    "Expected a declaration (`thread`, `fn`, `static`, `extern`, `every`, `init`, `runnable`, " ++
      "`main`, `use_reg`, `tune`, `cflags` or `include`)"
  | expectedStatement => "Expected a statement"
  | expectedExpr => "Expected an expression"
  | expectedAssignment => "Expected an assignment operator"
  | unknownInterval name =>
    "Unknown interval `" ++ name ++ "`, expected `decisecond`, `second`, `minute` or `hour`"
  | unexpectedEof => "Abrupt end of program"

/-- The tokens still to be read, and the place of the last one that was. -/
structure Cursor where
  tokens : List (Located Token)
  last : Location

/-- A reader of tokens, which stops at the first error. -/
abbrev Parser := StateT Cursor (Except (Located ParseError))

namespace Parser

/-- Stops with an error at the last token read. -/
def fail {α : Type} (error : ParseError) : Parser α := do
  throw ⟨error, (← get).last⟩

/-- The next token, if there is one. -/
def peek? : Parser (Option Token) := do
  return (← get).tokens.head?.map Located.value

/-- The next token, which must exist. -/
def peek : Parser Token := do
  match (← get).tokens with
  | [] => fail .unexpectedEof
  | token :: _ => return token.value

/-- Reads the next token. -/
def next : Parser (Located Token) := do
  match (← get).tokens with
  | [] => fail .unexpectedEof
  | token :: rest =>
    set (Cursor.mk rest token.location)
    return token

/-- Reads a given token. -/
def expect (wanted : Token) : Parser Unit := do
  match (← get).tokens with
  | [] => fail (.missingToken wanted)
  | found :: rest =>
    set (Cursor.mk rest found.location)
    -- The token is taken before it is compared, so that an error stands at it.
    if found.value = wanted then return () else fail (.unexpectedToken wanted found.value)

/-- Reads a given mark. -/
def mark (wanted : Punct) : Parser Unit :=
  expect (.punct wanted)

/-- Whether the next token is a given one; the end of the tokens is not. -/
def sees (wanted : Token) : Parser Bool := do
  return (← peek?) == some wanted

/-- The place from a given start to the last token read. -/
def spanFrom (start : Location) : Parser Location := do
  return .span start (← get).last

/-- Reads an identifier. -/
def identifier : Parser (Located String) := do
  let token ← next
  match token.value with
  | .id name => return ⟨name, token.location⟩
  | _ => fail .expectedId

/-- Reads the keyword of a type. -/
def type : Parser (Located IntType) := do
  let token ← next
  match token.value with
  | .keyword (.type kind) => return ⟨kind, token.location⟩
  | _ => fail .expectedType

/--
Reads one or more items with commas between them, through the token that closes the list.

The budget bounds the tokens still to come.
-/
def separatedTail {α : Type} (item : Parser α) (close : Token) : Nat → Parser (List α)
  | 0 => fail .unexpectedEof
  | budget + 1 => do
    let first ← item
    let found ← next
    -- A comma must be followed by another item.
    if found.value = .punct .comma then
      return first :: (← separatedTail item close budget)
    else if found.value = close then return [first]
    else fail (.unexpectedToken close found.value)

/-- Reads a list of items, which may be empty, through the token that closes it. -/
def separated {α : Type} (item : Parser α) (close : Token) (budget : Nat) :
    Parser (List α) := do
  if (← peek) = close then
    let _ ← next
    return []
  else separatedTail item close budget

end Parser

end Coro
