import Coro.Source

/-! Diagnostics shown with the lines of the source they speak of. -/

namespace Coro

/-- Messages of one kind, each with the place it speaks of. -/
structure Report where
  heading : String
  /-- Whether the messages stop the compilation. -/
  fatal : Bool
  entries : List (Located String)

namespace Report

/-- Errors under a given heading. -/
def errors (heading : String) (entries : List (Located String)) : Report :=
  ⟨heading, true, entries⟩

/-- Warnings, which stop nothing. -/
def warnings (entries : List (Located String)) : Report :=
  ⟨"warning", false, entries⟩

/-- A run of equal characters. -/
def fill (count : Nat) (c : Char) : String :=
  String.ofList (List.replicate count c)

/-- A text moved to the right end of a column. -/
def alignRight (width : Nat) (text : String) : String :=
  fill (width - text.length) ' ' ++ text

/-- The source lines a location touches, behind their numbers. -/
def excerpt (source : Source) (location : Location) : List String :=
  let width := (toString location.stop.line).length
  let count := location.stop.line + 1 - location.start.line
  -- Lines that the source does not have are left out.
  (List.range' location.start.line count).filterMap fun number =>
    (source.line? number).map fun line => alignRight width (toString number) ++ " | " ++ line

/-- Marks under the columns of a location. -/
def underline (location : Location) : String :=
  -- A range that ends left of its start is marked from the smaller column to the larger.
  let first := location.start.column
  let last := location.stop.previousColumn.column
  fill (min first last - 1) ' ' ++ fill (max first last - min first last + 1) '^'

/-- The lines that show one message. -/
def entryLines (source : Source) (heading : String) (entry : Located String) : List String :=
  -- The last line has the longest number, so its width aligns them all.
  let margin := fill (toString entry.location.stop.line).length ' '
  [heading ++ ": " ++ entry.value,
   " --> " ++ entry.location.describe source.name,
   margin ++ " |"] ++
  excerpt source entry.location ++
  [margin ++ " | " ++ underline entry.location, ""]

/-- The line that counts the messages. -/
def summary (report : Report) : String :=
  let count := report.entries.length
  let plural := if count = 1 then "" else "s"
  if report.fatal then "Build failed with " ++ toString count ++ " error" ++ plural
  else toString count ++ " " ++ report.heading ++ plural ++ " emitted"

/-- The whole report as text. -/
def render (source : Source) (report : Report) : String :=
  -- A report without messages still says so.
  let lines :=
    if report.entries.isEmpty then ["No errors were reported"]
    else report.entries.flatMap (entryLines source report.heading) ++ [report.summary]
  String.join (lines.map (· ++ "\n"))

end Report

end Coro
