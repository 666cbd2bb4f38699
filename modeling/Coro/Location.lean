/-! Positions in a text, ranges between them, and values that remember where they were written. -/

namespace Coro

/-- Columns between two tab stops. -/
def tabStop : Nat := 4

/-- A line and a column, both counted from one. -/
structure Position where
  line : Nat
  column : Nat
deriving Repr, DecidableEq, Inhabited

/-- The first position of every text. -/
def Position.first : Position := ⟨1, 1⟩

/-- The position one column to the right. -/
def Position.nextColumn (position : Position) : Position :=
  { position with column := position.column + 1 }

/-- The position one column to the left, but never left of the first column. -/
def Position.previousColumn (position : Position) : Position :=
  -- A range that ends where a line starts would otherwise point left of the text.
  { position with column := max (position.column - 1) 1 }

/-- The position that follows a character: a line feed opens a line and a tab goes to its stop. -/
def Position.after (position : Position) (c : Char) : Position :=
  -- Stops lie one column behind every multiple of the tab width.
  if c = '\n' then ⟨position.line + 1, 1⟩
  else if c = '\t' then
    { position with column := 1 + ((position.column - 1) / tabStop + 1) * tabStop }
  else position.nextColumn

/-- The position that follows a run of characters. -/
def Position.advance (position : Position) (text : List Char) : Position :=
  text.foldl Position.after position

/-- A position as it is written in messages. -/
def Position.describe (position : Position) : String :=
  toString position.line ++ ":" ++ toString position.column

/-- A range of positions, without its last one. -/
structure Location where
  start : Position
  stop : Position
deriving Repr, DecidableEq, Inhabited

/-- The range of a single column. -/
def Location.point (position : Position) : Location :=
  ⟨position, position.nextColumn⟩

/-- The range from the start of one range to the stop of another. -/
def Location.span (first last : Location) : Location :=
  ⟨first.start, last.stop⟩

/-- A range as it is written in messages, behind the name of its text. -/
def Location.describe (name : String) (location : Location) : String :=
  -- A range of at most one column is written as a position, any other with its last column.
  let last := location.stop.previousColumn
  if location.stop = location.start ∨ last = location.start then
    name ++ ":" ++ location.start.describe
  else
    name ++ ":[" ++ location.start.describe ++ "-" ++ last.describe ++ "]"

/-- A value together with the place where it was written. -/
structure Located (α : Type) where
  value : α
  location : Location
deriving Repr, DecidableEq, Inhabited

/-- Changes the value and keeps the place. -/
def Located.map {α β : Type} (f : α → β) (located : Located α) : Located β :=
  ⟨f located.value, located.location⟩

end Coro
