import Coro.Location

/-! Source texts: how their lines are cut and decoded, and the characters they deliver. -/

namespace Coro

/-- The lines of a text, as far as it could be read. -/
structure Source where
  name : String
  lines : List String
  /-- Reading stopped at something that is no text. -/
  damaged : Bool
deriving Inhabited

/-- Drops one mark from the end of a reversed line. -/
private def dropReturn {α : Type} [DecidableEq α] (mark : α) : List α → List α
  | [] => []
  -- The line is reversed, so its last mark is at hand first.
  | last :: line => if last = mark then line else last :: line

/--
Cuts a sequence after every feed, without the feed and one return mark before it.

A last piece without a feed is a line of its own, kept as it is.
-/
def cutLines {α : Type} [DecidableEq α] (feed mark : α) (line : List α) :
    List α → List (List α)
  -- A text that ends in a feed has no empty line behind it.
  | [] => if line.isEmpty then [] else [line.reverse]
  | c :: rest =>
    if c = feed then (dropReturn mark line).reverse :: cutLines feed mark [] rest
    else cutLines feed mark (c :: line) rest

/-- No feed stands inside of a line. -/
theorem not_mem_of_mem_cutLines {α : Type} [DecidableEq α] {feed mark : α} {line text : List α}
    (free : feed ∉ line) : ∀ piece ∈ cutLines feed mark line text, feed ∉ piece := by
  -- A feed ends the line before it gets there.
  induction text generalizing line with
  | nil =>
    rw [cutLines]
    split <;> simp [free]
  | cons c rest ih =>
    rw [cutLines]
    split
    · refine List.forall_mem_cons.mpr ⟨?_, ih (by simp)⟩
      -- Leaving out a mark adds nothing.
      have kept : ∀ x ∈ dropReturn mark line, x ∈ line := by
        cases line with
        | nil => simp [dropReturn]
        | cons last line =>
          rw [dropReturn]
          split
          · exact fun x member => List.mem_cons_of_mem last member
          · exact fun x member => member
      rw [List.mem_reverse]
      exact fun member => free (kept feed member)
    · rename_i other
      exact ih (by simp [free, Ne.symm other])

/-- Decodes lines one by one up to the first that is no text, and tells whether there was one. -/
def decodeLines : List (List UInt8) → List String × Bool
  | [] => ([], false)
  | bytes :: rest =>
    match String.fromUTF8? ⟨bytes.toArray⟩ with
    -- Lines behind the first bad one are not looked at.
    | none => ([], true)
    | some line =>
      let (lines, damaged) := decodeLines rest
      (line :: lines, damaged)

/-- The source with a given text. -/
def Source.ofText (name text : String) : Source :=
  ⟨name, (cutLines '\n' '\r' [] text.toList).map String.ofList, false⟩

/-- The source with given bytes. -/
def Source.ofBytes (name : String) (bytes : ByteArray) : Source :=
  let (lines, damaged) := decodeLines (cutLines 10 13 [] bytes.toList)
  ⟨name, lines, damaged⟩

/-- The characters delivered: every line ends in a line feed, also the last. -/
def Source.chars (source : Source) : List Char :=
  source.lines.flatMap fun line => line.toList ++ ['\n']

/-- Pairs every character with the position that follows it. -/
def positionsAfter (position : Position) : List Char → List (Char × Position)
  | [] => []
  | c :: rest => (c, position.after c) :: positionsAfter (position.after c) rest

/-- The single columns of a source: that of its first character and the one after each character. -/
def Source.points (source : Source) : List Location :=
  (Position.first :: (positionsAfter .first source.chars).map Prod.snd).map Location.point

/-- A line by its number, counted from one. -/
def Source.line? (source : Source) (number : Nat) : Option String :=
  -- No line has the number zero, though subtraction would take it for the first.
  if number = 0 then none else source.lines[number - 1]?

end Coro
