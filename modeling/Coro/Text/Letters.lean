/-! Words compared without regard to the case of their letters. -/

namespace Coro

/-- A word with the letters A to Z made small. -/
def foldCase (word : String) : List Char :=
  word.toList.map Char.toLower

/-- Two words are the same but for the case of the letters A to Z. -/
def sameWord (left right : String) : Bool :=
  foldCase left == foldCase right

/-- The characters of names and numbers. -/
def isWordChar (c : Char) : Bool :=
  c.isAlphanum || c == '_'

/-- The characters a name may start with. -/
def isWordStart (c : Char) : Bool :=
  c.isAlpha || c == '_'

/-- The characters that only separate tokens. -/
def isBlank (c : Char) : Bool :=
  c == ' ' || c == '\t' || c == '\n' || c == '\r' || c == '\x0c'

end Coro
