import Coro.Source
import Coro.Token.Extent

/-! Cutting a text into located tokens and errors. -/

namespace Coro

/-- The head of a text through its first line feed. -/
def lineHead (text : List Char) : List Char :=
  text.takeWhile (· != '\n') ++ (text.dropWhile (· != '\n')).take 1

/-- A text behind its first line feed. -/
def lineRest (text : List Char) : List Char :=
  (text.dropWhile (· != '\n')).drop 1

theorem lineHead_append_lineRest (text : List Char) : lineHead text ++ lineRest text = text := by
  rw [lineHead, lineRest, List.append_assoc, List.take_append_drop,
    List.takeWhile_append_dropWhile]

theorem length_lineRest_lt {text : List Char} (filled : text ≠ []) :
    (lineRest text).length < text.length := by
  -- Either the feed itself is dropped, or the whole text is.
  have shorter := (List.dropWhile_sublist (l := text) (fun c => c != '\n')).length_le
  have positive := List.length_pos_iff.mpr filled
  simp only [lineRest, List.length_drop]
  omega

/-- The rest of a block comment and what follows it, if the comment is closed. -/
def closeComment : List Char → Option (List Char × List Char)
  | [] => none
  | c :: rest =>
    -- The star that opened the comment is already behind, so it cannot close it.
    if c = '*' ∧ rest.head? = some '/' then some (c :: rest.take 1, rest.drop 1)
    else (closeComment rest).map fun (comment, after) => (c :: comment, after)

/-- A closed comment and what follows it make up the text. -/
theorem closeComment_split {text comment after : List Char}
    (closed : closeComment text = some (comment, after)) : comment ++ after = text := by
  -- What is passed over stands in front of a split of the rest.
  induction text generalizing comment after with
  | nil => simp [closeComment] at closed
  | cons c rest ih =>
    simp only [closeComment] at closed
    split at closed
    · simp only [Option.some.injEq, Prod.mk.injEq] at closed
      obtain ⟨rfl, rfl⟩ := closed
      exact congrArg (c :: ·) (List.take_append_drop 1 rest)
    · obtain ⟨⟨inner, behind⟩, found, same⟩ := Option.map_eq_some_iff.mp closed
      simp only [Prod.mk.injEq] at same
      obtain ⟨rfl, rfl⟩ := same
      simp [ih found]

/-- A token, or an error in its place. -/
abbrev Lexed := Except (Located LexError) (Located Token)

/--
The tokens and errors of a text, in order.

An error stands at the character where it was found, and the rest of that line is left out.
-/
def lexFrom (damaged : Bool) (position : Position) (text : List Char) : List Lexed :=
  match text with
  -- A damaged text ends in an error where the damage begins.
  | [] => if damaged then [.error ⟨.input, .point position⟩] else []
  | c :: rest =>
    if isBlank c then lexFrom damaged (position.after c) rest
    else if c = '/' ∧ rest.head? = some '/' then
      lexFrom damaged (position.advance (lineHead (c :: rest))) (lineRest (c :: rest))
    else if c = '/' ∧ rest.head? = some '*' then
      match _closed : closeComment (rest.drop 1) with
      | none =>
        -- An open comment takes all that is left, so there is nothing to go on with.
        let error := if damaged then LexError.input else .expected '/'
        [.error ⟨error, .point (position.advance (c :: rest))⟩]
      | some (comment, after) =>
        lexFrom damaged (position.advance (c :: rest.take 1 ++ comment)) after
    else
      let reading := readToken c rest
      let stop := position.advance reading.lexeme
      match _read : reading.outcome with
      | .ok token => .ok ⟨token, ⟨position, stop⟩⟩ :: lexFrom damaged stop reading.rest
      | .error error =>
        .error ⟨error, .point stop⟩ ::
          lexFrom damaged (stop.advance (lineHead reading.rest)) (lineRest reading.rest)
termination_by text.length
decreasing_by
  -- A blank is a character less, and a line comment at least one.
  · simp
  · exact length_lineRest_lt (by simp)
  -- Behind a closed comment only a part of the text is left.
  · have split := congrArg List.length (closeComment_split _closed)
    simp only [List.length_append, List.length_drop, List.length_cons] at split ⊢
    omega
  · have split := congrArg List.length (readToken_split c rest)
    have filled := List.length_pos_iff.mpr (readToken_lexeme_ne_nil _read)
    simp only [List.length_append, List.length_cons] at split ⊢
    omega
  -- An error may accept nothing, but the rest of the line goes with it.
  · have split := congrArg List.length (readToken_split c rest)
    simp only [List.length_append, List.length_cons] at split ⊢
    by_cases empty : (readToken c rest).rest = []
    · simp [empty, lineRest]
    · have shorter := length_lineRest_lt empty
      omega

/-- The tokens and errors of a source, in order. -/
def Source.lex (source : Source) : List Lexed :=
  lexFrom source.damaged .first source.chars

/-- The tokens of a source, or all its errors if there are any. -/
def Source.tokens (source : Source) : Except (List (Located LexError)) (List (Located Token)) :=
  -- One error spoils the whole text, but all of them are told.
  let items := source.lex
  let errors := items.filterMap fun
    | .error error => some error
    | .ok _ => none
  if errors.isEmpty then .ok (items.filterMap Except.toOption) else .error errors

end Coro
