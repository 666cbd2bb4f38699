import Coro.Token.Lexer
import Mathlib.Data.List.TakeWhile

/-!
Lexing line by line.

No token goes beyond its line, an error gives up only the rest of its line, and only a block
comment goes on into another one. So the items of some whole lines do not depend on what follows
them, and what follows is cut as if it stood alone, only further down.
-/

namespace Coro

variable {c : Char} {item : Lexed} {rest text : List Char} {position : Position}

/-! ## Texts of whole lines -/

/-- A longest start ends before more text follows. -/
theorem span_append {p : Char → Bool} {stop : Char} (other : p stop = false) (member : stop ∈ text)
    (more : List Char) :
    (text ++ more).takeWhile p = text.takeWhile p ∧
      (text ++ more).dropWhile p = text.dropWhile p ++ more ∧ text.dropWhile p ≠ [] := by
  -- The first character of another kind is met before the text ends.
  induction text with
  | nil => cases member
  | cons c rest ih =>
    cases kind : p c with
    | false => simp [kind]
    | true =>
      have different : stop ≠ c := by
        rintro rfl
        rw [kind] at other
        cases other
      obtain ⟨taken, dropped, filled⟩ := ih (List.mem_of_ne_of_mem different member)
      simp [kind, taken, dropped, filled]

/-- A text is empty, or its last line is ended. -/
def EndsLine (text : List Char) : Prop :=
  ∀ c, text.getLast? = some c → c = '\n'

/-- Whole lines have a line feed. -/
theorem EndsLine.feed (ends : EndsLine text) (filled : text ≠ []) : '\n' ∈ text := by
  have last := List.getLast?_eq_some_getLast filled
  rw [← ends _ last]
  exact List.getLast_mem filled

/-- The end of whole lines is one. -/
theorem EndsLine.right (head : List Char) (ends : EndsLine (head ++ rest)) : EndsLine rest := by
  intro c last
  exact ends c (by rw [List.getLast?_append, last]; rfl)

/-- So is what stands behind the first line. -/
theorem EndsLine.lineRest (ends : EndsLine text) : EndsLine (lineRest text) := by
  rw [← lineHead_append_lineRest text] at ends
  exact ends.right (lineHead text)

/-- More text leaves the first line alone. -/
theorem line_append (feed : '\n' ∈ text) (more : List Char) :
    lineHead (text ++ more) = lineHead text ∧ lineRest (text ++ more) = lineRest text ++ more := by
  -- The line feed that ends the line is found in the text itself.
  obtain ⟨taken, dropped, filled⟩ := span_append (p := (· != '\n')) (by decide) feed more
  obtain ⟨c, rest, ended⟩ := List.exists_cons_of_ne_nil filled
  simp [lineHead, lineRest, taken, dropped, ended]

/-- A comment with the mark that opens it and what follows it make up the text. -/
theorem closeComment_rest {comment after : List Char}
    (closed : closeComment (rest.drop 1) = some (comment, after)) :
    (c :: rest.take 1 ++ comment) ++ after = c :: rest := by
  rw [List.append_assoc, closeComment_split closed, List.cons_append, List.take_append_drop]

/-- A comment closes where it did. -/
theorem closeComment_append {comment after : List Char}
    (closed : closeComment text = some (comment, after)) (more : List Char) :
    closeComment (text ++ more) = some (comment, after ++ more) := by
  -- Behind the last star of a closed comment there is at least a slash.
  induction text generalizing comment after with
  | nil => cases closed
  | cons c rest ih =>
    cases rest with
    | nil => simp [closeComment] at closed
    | cons next others =>
      rw [closeComment] at closed
      rw [List.cons_append, closeComment]
      split at closed
      · rename_i ended
        rw [if_pos (by simpa using ended)]
        cases closed
        rfl
      · rename_i inside
        rw [if_neg (by simpa using inside)]
        obtain ⟨⟨inner, behind⟩, found, same⟩ := Option.map_eq_some_iff.mp closed
        cases same
        rw [ih found]
        rfl

/-- Moving over two runs, one by one. -/
theorem Position.advance_append (position : Position) (first second : List Char) :
    position.advance (first ++ second) = (position.advance first).advance second :=
  List.foldl_append

namespace Lexed

/-- A block comment was left open. -/
def LeftOpen (item : Lexed) : Prop :=
  ∃ location, item = .error ⟨.expected '/', location⟩

end Lexed

section Steps

variable {damaged : Bool} {position : Position} {c : Char} {rest lexeme after : List Char}

variable (solid : ¬ isBlank c)

include solid

/-- Behind a closed comment the lexer goes on. -/
theorem lexFrom_comment (other : ¬ (c = '/' ∧ rest.head? = some '/'))
    (comment : c = '/' ∧ rest.head? = some '*')
    (closed : closeComment (rest.drop 1) = some (lexeme, after)) :
    lexFrom damaged position (c :: rest) =
      lexFrom damaged (position.advance (c :: rest.take 1 ++ lexeme)) after := by
  rw [lexFrom, if_neg solid, if_neg other, if_pos comment]
  split
  · rename_i opened
    rw [closed] at opened
    cases opened
  · rename_i same
    rw [closed] at same
    cases same
    rfl

/-- A token stands from its first character to the end of what was accepted. -/
theorem lexFrom_token {token : Token} (noLine : ¬ (c = '/' ∧ rest.head? = some '/'))
    (noBlock : ¬ (c = '/' ∧ rest.head? = some '*'))
    (read : readToken c rest = ⟨.ok token, lexeme, after⟩) :
    lexFrom damaged position (c :: rest) =
      .ok ⟨token, ⟨position, position.advance lexeme⟩⟩ ::
        lexFrom damaged (position.advance lexeme) after := by
  rw [lexFrom, if_neg solid, if_neg noLine, if_neg noBlock]
  dsimp only
  split
  · rename_i same
    rw [read] at same ⊢
    cases same
    rfl
  · rename_i same
    rw [read] at same
    cases same

/-- An error stands behind what was accepted, and the rest of its line is left out. -/
theorem lexFrom_error {error : LexError} (noLine : ¬ (c = '/' ∧ rest.head? = some '/'))
    (noBlock : ¬ (c = '/' ∧ rest.head? = some '*'))
    (read : readToken c rest = ⟨.error error, lexeme, after⟩) :
    lexFrom damaged position (c :: rest) =
      .error ⟨error, .point (position.advance lexeme)⟩ ::
        lexFrom damaged ((position.advance lexeme).advance (lineHead after)) (lineRest after) := by
  rw [lexFrom, if_neg solid, if_neg noLine, if_neg noBlock]
  dsimp only
  split
  · rename_i same
    rw [read] at same
    cases same
  · rename_i same
    rw [read] at same ⊢
    cases same
    rfl

end Steps

theorem ne_feed_of_solid (solid : ¬ isBlank c) : c ≠ '\n' := by
  rintro rfl
  exact solid (by decide)

/-- The line feed is still to come. -/
theorem EndsLine.feed_rest (ends : EndsLine (c :: rest)) (solid : ¬ isBlank c) : '\n' ∈ rest :=
  List.mem_of_ne_of_mem (Ne.symm (ne_feed_of_solid solid)) (ends.feed (List.cons_ne_nil c rest))

/-- So the next character is there already. -/
theorem EndsLine.head?_rest (ends : EndsLine (c :: rest)) (solid : ¬ isBlank c) (more : List Char) :
    (rest ++ more).head? = rest.head? := by
  obtain ⟨next, others, rfl⟩ :=
    List.exists_cons_of_ne_nil (List.ne_nil_of_mem (ends.feed_rest solid))
  rfl

/-- No token takes the line feed. -/
theorem EndsLine.feed_reading (ends : EndsLine (c :: rest)) : '\n' ∈ (readToken c rest).rest := by
  have feed := ends.feed (List.cons_ne_nil c rest)
  rw [← readToken_split c rest] at feed
  exact (List.mem_append.mp feed).resolve_left (readToken_lexeme c rest)

/-- The items of whole lines come first, and those of the rest start behind them. -/
theorem lexFrom_append (damaged : Bool) (ends : EndsLine text)
    (closed : ∀ item ∈ lexFrom false position text, ¬ item.LeftOpen) (more : List Char) :
    lexFrom damaged position (text ++ more) =
      lexFrom false position text ++ lexFrom damaged (position.advance text) more := by
  -- Item by item, as the lexer goes through the lines.
  fun_induction lexFrom false position text with
  | case1 position same => cases same
  | case2 => rfl
  | case3 position c rest blank ih =>
    rw [List.cons_append, lexFrom, if_pos blank]
    exact ih (ends.right [c]) closed
  | case4 position c rest solid comment ih =>
    -- A comment goes up to the end of its line, which is the same where more text follows.
    obtain ⟨head, tail⟩ := line_append (ends.feed (List.cons_ne_nil c rest)) more
    have ahead : (rest ++ more).head? = some '/' := by
      rw [List.head?_append, comment.2]
      rfl
    rw [List.cons_append, lexFrom, if_neg solid, if_pos ⟨comment.1, ahead⟩, ← List.cons_append,
      head, tail, ih ends.lineRest closed, ← Position.advance_append, lineHead_append_lineRest]
  | case5 position c rest _ _ _ opened =>
    -- An open comment was ruled out.
    exact absurd ⟨_, rfl⟩ (closed _ (List.mem_singleton_self _))
  | case6 position c rest solid noLine comment inner after found ih =>
    have ahead := ends.head?_rest solid more
    obtain ⟨next, others, rfl⟩ :=
      List.exists_cons_of_ne_nil (List.ne_nil_of_mem (ends.feed_rest solid))
    have longer : closeComment ((next :: others ++ more).drop 1) = some (inner, after ++ more) :=
      closeComment_append found more
    have whole : (c :: next :: inner) ++ after = c :: next :: others :=
      congrArg (fun text => c :: next :: text) (closeComment_split found)
    have place : (position.advance (c :: next :: inner)).advance after =
        position.advance (c :: next :: others) := by
      rw [← whole, Position.advance_append]
    rw [← whole] at ends
    rw [List.cons_append, lexFrom_comment solid (by rwa [ahead]) (by rwa [ahead]) longer, ← place]
    exact ih (ends.right _) closed
  | case7 position c rest solid noLine noBlock reading stop token read ih =>
    have ahead := ends.head?_rest solid more
    have longer : readToken c (rest ++ more) =
        ⟨.ok token, reading.lexeme, reading.rest ++ more⟩ := by
      rw [readToken_append (ends.feed_rest solid) more,
        ← read]
      rfl
    have whole : reading.lexeme ++ reading.rest = c :: rest := readToken_split c rest
    rw [← whole] at ends
    rw [List.cons_append, lexFrom_token solid (by rwa [ahead]) (by rwa [ahead]) longer, ← whole,
      Position.advance_append, ih (ends.right _) fun item member =>
        closed item (List.mem_cons_of_mem _ member)]
    rfl
  | case8 position c rest solid noLine noBlock reading stop error read ih =>
    have ahead := ends.head?_rest solid more
    have longer : readToken c (rest ++ more) =
        ⟨.error error, reading.lexeme, reading.rest ++ more⟩ := by
      rw [readToken_append (ends.feed_rest solid) more,
        ← read]
      rfl
    have whole : reading.lexeme ++ reading.rest = c :: rest := readToken_split c rest
    -- What is left out ends with the line feed behind the error.
    obtain ⟨head, tail⟩ := line_append ends.feed_reading more
    have place : (stop.advance (lineHead reading.rest)).advance (lineRest reading.rest) =
        position.advance (c :: rest) := by
      rw [← Position.advance_append, lineHead_append_lineRest, ← whole, Position.advance_append]
    rw [← whole] at ends
    rw [List.cons_append, lexFrom_error solid (by rwa [ahead]) (by rwa [ahead]) longer, head, tail,
      ih (ends.right _).lineRest fun item member => closed item (List.mem_cons_of_mem _ member),
      place]
    rfl

/-! ## Lines and their numbers -/

/-- The same place some lines further down. -/
def Position.below (position : Position) (lines : Nat) : Position :=
  { position with line := position.line + lines }

/-- The same range some lines further down. -/
def Location.below (location : Location) (lines : Nat) : Location :=
  ⟨location.start.below lines, location.stop.below lines⟩

namespace Lexed

/-- The same item some lines further down. -/
def below (lines : Nat) : Lexed → Lexed
  | .ok token => .ok ⟨token.value, token.location.below lines⟩
  | .error error => .error ⟨error.value, error.location.below lines⟩

/-- The line in which an item starts. -/
def line : Lexed → Nat
  | .ok token => token.location.start.line
  | .error error => error.location.start.line

/-- An item further down is in a later line. -/
theorem line_below (lines : Nat) (item : Lexed) : (below lines item).line = item.line + lines := by
  cases item <;> rfl

end Lexed

/-- A character moves on in every line alike. -/
theorem Position.after_below (position : Position) (lines : Nat) (c : Char) :
    (position.below lines).after c = (position.after c).below lines := by
  unfold Position.after
  split
  · simp [Position.below]
    omega
  · split <;> rfl

/-- Moving over a run of characters is the same in every line. -/
theorem Position.advance_below (position : Position) (lines : Nat) (text : List Char) :
    (position.below lines).advance text = (position.advance text).below lines := by
  induction text generalizing position with
  | nil => rfl
  | cons c rest ih =>
    rw [Position.advance, Position.advance, List.foldl_cons, List.foldl_cons, Position.after_below]
    exact ih (position.after c)

/-- A text that stands further down has the same items further down. -/
theorem lexFrom_below (damaged : Bool) (position : Position) (lines : Nat) (text : List Char) :
    lexFrom damaged (position.below lines) text =
      (lexFrom damaged position text).map (Lexed.below lines) := by
  -- Only the places depend on where the text stands.
  fun_induction lexFrom damaged position text with
  | case1 position same =>
    rw [lexFrom, if_pos same]
    rfl
  | case2 position same =>
    rw [lexFrom, if_neg same]
    rfl
  | case3 position c rest blank ih =>
    rw [lexFrom, if_pos blank, Position.after_below, ih]
  | case4 position c rest solid comment ih =>
    rw [lexFrom, if_neg solid, if_pos comment, Position.advance_below, ih]
  | case5 position c rest solid noLine comment opened =>
    rw [lexFrom, if_neg solid, if_neg noLine, if_pos comment]
    split
    · rw [Position.advance_below]
      rfl
    · rename_i closed
      rw [opened] at closed
      cases closed
  | case6 position c rest solid noLine comment inner after found ih =>
    rw [lexFrom_comment solid noLine comment found, Position.advance_below, ih]
  | case7 position c rest solid noLine noBlock reading stop token read ih =>
    have same : readToken c rest = ⟨.ok token, reading.lexeme, reading.rest⟩ := by
      rw [← read]
    rw [lexFrom_token solid noLine noBlock same, Position.advance_below, ih]
    rfl
  | case8 position c rest solid noLine noBlock reading stop error read ih =>
    have same : readToken c rest = ⟨.error error, reading.lexeme, reading.rest⟩ := by
      rw [← read]
    rw [lexFrom_error solid noLine noBlock same, Position.advance_below, Position.advance_below, ih]
    rfl

/-- A run of characters ends as many lines further down as it has line feeds. -/
theorem Position.line_advance (position : Position) (text : List Char) :
    (position.advance text).line = position.line + text.count '\n' := by
  induction text generalizing position with
  | nil => rfl
  | cons c rest ih =>
    have step : (position.after c).line = position.line + if c = '\n' then 1 else 0 := by
      unfold Position.after
      split
      · rfl
      · split <;> rfl
    rw [Position.advance, List.foldl_cons, ← Position.advance, ih, step, List.count_cons]
    simp only [beq_iff_eq]
    omega

/-- Whole lines lead from the first column to the first column of a later line. -/
theorem EndsLine.advance (ends : EndsLine text) :
    Position.first.advance text = Position.first.below (text.count '\n') := by
  have line := Position.line_advance .first text
  -- The last character is a line feed, and behind it a line starts.
  have column : (Position.first.advance text).column = 1 := by
    rcases List.eq_nil_or_concat text with rfl | ⟨body, last, rfl⟩
    · rfl
    · rw [ends last (by simp), List.concat_eq_append, Position.advance_append]
      rfl
  calc Position.first.advance text
    _ = ⟨(Position.first.advance text).line, (Position.first.advance text).column⟩ := rfl
    _ = Position.first.below (text.count '\n') := by
      rw [line, column]
      rfl

/-- An item starts in one of the lines of a text; an open comment is noticed only behind them. -/
def Lexed.InLines (item : Lexed) (position : Position) (text : List Char) : Prop :=
  position.line ≤ item.line ∧ (¬ item.LeftOpen → item.line < position.line + text.count '\n')

/-- The lines of the end of a text are lines of the text. -/
theorem Lexed.InLines.behind (head : List Char)
    (inside : item.InLines (position.advance head) rest) :
    item.InLines position (head ++ rest) := by
  -- What was passed over has as many line feeds as there are lines between the two places.
  obtain ⟨low, high⟩ := inside
  rw [Position.line_advance] at low high
  refine ⟨by omega, fun closed => ?_⟩
  have := high closed
  rw [List.count_append]
  omega

/-- An item at the start of whole lines is in them. -/
theorem EndsLine.inLines (ends : EndsLine text) (filled : text ≠ [])
    (first : item.line = position.line) : item.InLines position text := by
  have feeds : 0 < text.count '\n' := List.count_pos_iff.mpr (ends.feed filled)
  exact ⟨by omega, fun _ => by omega⟩

/-- The items of whole lines start in one of them. -/
theorem lexFrom_inLines (ends : EndsLine text) :
    ∀ item ∈ lexFrom false position text, item.InLines position text := by
  fun_induction lexFrom false position text with
  | case1 position same => cases same
  | case2 => simp
  | case3 position c rest blank ih =>
    intro item member
    exact (ih (ends.right [c]) item member).behind [c]
  | case4 position c rest solid comment ih =>
    intro item member
    rw [← lineHead_append_lineRest (c :: rest)]
    exact (ih ends.lineRest item member).behind _
  | case5 position c rest _ _ _ opened =>
    -- The end of the text is where the open comment is noticed.
    intro item member
    rw [List.mem_singleton.mp member]
    refine ⟨?_, fun closed => absurd ⟨_, rfl⟩ closed⟩
    have place := Position.line_advance position (c :: rest)
    show position.line ≤ (position.advance (c :: rest)).line
    omega
  | case6 position c rest solid noLine comment inner after found ih =>
    intro item member
    rw [← closeComment_rest found] at ends ⊢
    exact (ih (ends.right _) item member).behind _
  | case7 position c rest solid noLine noBlock reading stop token read ih =>
    have whole : reading.lexeme ++ reading.rest = c :: rest := readToken_split c rest
    refine List.forall_mem_cons.mpr ⟨ends.inLines (List.cons_ne_nil c rest) rfl, ?_⟩
    intro item member
    rw [← whole] at ends ⊢
    exact (ih (ends.right _) item member).behind _
  | case8 position c rest solid noLine noBlock reading stop error read ih =>
    have whole : reading.lexeme ++ reading.rest = c :: rest := readToken_split c rest
    -- No line feed was accepted before the error.
    have inside : stop.line = position.line := by
      have none := readToken_lexeme c rest
      rw [Position.line_advance, List.count_eq_zero.mpr none]
      rfl
    refine List.forall_mem_cons.mpr ⟨ends.inLines (List.cons_ne_nil c rest) inside, ?_⟩
    intro item member
    rw [← whole] at ends ⊢
    have later := (ih (ends.right _).lineRest item member).behind (lineHead reading.rest)
    rw [lineHead_append_lineRest] at later
    exact later.behind _

/-! ## Sources -/

/-- Lines are cut one by one. -/
theorem cutLines_append {α : Type} [DecidableEq α] (feed mark : α) (line body text : List α) :
    cutLines feed mark line (body ++ feed :: text) =
      cutLines feed mark line (body ++ [feed]) ++ cutLines feed mark [] text := by
  induction body generalizing line with
  | nil => simp [cutLines]
  | cons c rest ih =>
    rw [List.cons_append, List.cons_append, cutLines, cutLines]
    split
    · rw [ih, List.cons_append]
    · rw [ih]

/-- There are as many lines as feeds, if the last line is ended. -/
theorem length_cutLines {α : Type} [DecidableEq α] (feed mark : α) (line body : List α) :
    (cutLines feed mark line (body ++ [feed])).length = (body ++ [feed]).count feed := by
  induction body generalizing line with
  | nil => simp [cutLines]
  | cons c rest ih =>
    rw [List.cons_append, cutLines, List.count_cons]
    split
    · rename_i same
      rw [List.length_cons, ih]
      simp [same]
    · rename_i other
      rw [ih]
      simp [other]

namespace Source

/-- The characters of a source are whole lines. -/
theorem chars_endsLine (source : Source) : EndsLine source.chars := by
  -- Every line is delivered with its feed, so the last one is too.
  unfold chars
  induction source.lines with
  | nil =>
    intro c last
    cases last
  | cons line lines ih =>
    intro c last
    rw [List.flatMap_cons, List.getLast?_append] at last
    cases later : (lines.flatMap fun line => line.toList ++ ['\n']).getLast? with
    | none =>
      rw [later] at last
      simpa using last.symm
    | some d =>
      rw [later] at last
      cases last
      exact ih _ later

/-- A source of some text delivers as many line feeds as it has lines. -/
theorem count_chars_ofText (name text : String) :
    (ofText name text).chars.count '\n' = (ofText name text).lines.length := by
  -- No line has a feed of its own.
  have free : ∀ line ∈ (ofText name text).lines, '\n' ∉ line.toList := by
    intro line member
    obtain ⟨piece, cut, rfl⟩ := List.mem_map.mp member
    rw [String.toList_ofList]
    exact not_mem_of_mem_cutLines (by simp) piece cut
  unfold chars
  generalize (ofText name text).lines = lines at free ⊢
  induction lines with
  | nil => rfl
  | cons line lines ih =>
    rw [List.forall_mem_cons] at free
    rw [List.flatMap_cons, List.count_append, List.count_append, ih free.2,
      List.count_eq_zero.mpr free.1, List.length_cons]
    simp [Nat.add_comm]

/-- A text is empty or ends with a line feed. -/
def IsWhole (text : String) : Prop :=
  text = "" ∨ ∃ body, text = body ++ "\n"

/-- Whole lines come before the lines of the rest. -/
theorem lines_ofText_append (name : String) {first : String} (whole : IsWhole first)
    (second : String) :
    (ofText name (first ++ second)).lines =
      (ofText name first).lines ++ (ofText name second).lines := by
  rcases whole with rfl | ⟨body, rfl⟩
  · simp [ofText, cutLines]
  · have ended : (body ++ "\n").toList = body.toList ++ ['\n'] := by simp
    have both : (body ++ "\n" ++ second).toList = body.toList ++ '\n' :: second.toList := by
      simp
    rw [ofText, ofText, ofText, ended, both, cutLines_append, List.map_append]

/-- There are as many lines as line feeds. -/
theorem length_lines_ofText (name : String) {text : String} (whole : IsWhole text) :
    (ofText name text).lines.length = text.toList.count '\n' := by
  rcases whole with rfl | ⟨body, rfl⟩
  · simp [ofText, cutLines]
  · have feed : (body ++ "\n").toList = body.toList ++ ['\n'] := by simp
    rw [ofText, List.length_map, feed, length_cutLines]

/--
Whole lines are lexed on their own.

Where a text of whole lines leaves no comment open, its items come first, whatever follows and
whatever errors there are among them. Behind them come the items of the text that follows, moved
down by the lines before it, and these are all that start in a later line.
-/
theorem lexed_by_lines (name : String) {first : String} (whole : IsWhole first)
    (closed : ∀ item ∈ (ofText name first).lex, ¬ item.LeftOpen) (second : String) :
    (ofText name (first ++ second)).lex =
        (ofText name first).lex ++
          (ofText name second).lex.map (Lexed.below (first.toList.count '\n')) ∧
      (ofText name (first ++ second)).lex.filter (first.toList.count '\n' < ·.line) =
        (ofText name second).lex.map (Lexed.below (first.toList.count '\n')) := by
  have feeds : (ofText name first).chars.count '\n' = first.toList.count '\n' := by
    rw [count_chars_ofText, length_lines_ofText name whole]
  have chars : (ofText name (first ++ second)).chars =
      (ofText name first).chars ++ (ofText name second).chars := by
    rw [Source.chars, lines_ofText_append name whole second, List.flatMap_append]
    rfl
  have joined : (ofText name (first ++ second)).lex = (ofText name first).lex ++
      (ofText name second).lex.map (Lexed.below (first.toList.count '\n')) := by
    rw [Source.lex, chars, lexFrom_append _ (chars_endsLine _) closed, (chars_endsLine _).advance,
      feeds, lexFrom_below]
    rfl
  have early : (ofText name first).lex.filter (first.toList.count '\n' < ·.line) = [] := by
    refine List.filter_eq_nil_iff.mpr fun item member => ?_
    have inside : item.line < 1 + (ofText name first).chars.count '\n' :=
      (lexFrom_inLines (chars_endsLine _) item member).2 (closed item member)
    rw [feeds] at inside
    simp only [decide_eq_true_eq]
    omega
  have late : ∀ item ∈ (ofText name second).lex.map (Lexed.below (first.toList.count '\n')),
      decide (first.toList.count '\n' < item.line) = true := by
    intro item member
    obtain ⟨alone, found, rfl⟩ := List.mem_map.mp member
    have inside : 1 ≤ alone.line := (lexFrom_inLines (chars_endsLine _) alone found).1
    rw [Lexed.line_below]
    simp only [decide_eq_true_eq]
    omega
  refine ⟨joined, ?_⟩
  rw [joined, List.filter_append, early, List.nil_append, List.filter_eq_self.mpr late]

/-- Lines with errors, a string that was left open, and a comment over two of them. -/
def spoiled : String := "'x\n\"/*\n/*\n*/ @\n"

/-- What follows lines with errors is lexed all the same. -/
theorem spoiled_by_lines :
    IsWhole spoiled ∧ (∀ item ∈ (ofText "" spoiled).lex, ¬ item.LeftOpen) ∧
      (ofText "" (spoiled ++ "b")).lex =
        (ofText "" spoiled).lex ++ [.ok ⟨.id "b", ⟨⟨5, 1⟩, ⟨5, 2⟩⟩⟩] := by
  have whole : IsWhole spoiled := .inr ⟨"'x\n\"/*\n/*\n*/ @", by decide +kernel⟩
  have closed : ∀ item ∈ (ofText "" spoiled).lex, ¬ item.LeftOpen := by
    have items : (ofText "" spoiled).lex =
        [.error ⟨.expected '\'', ⟨⟨1, 3⟩, ⟨1, 4⟩⟩⟩, .error ⟨.unterminatedString, ⟨⟨2, 4⟩, ⟨2, 5⟩⟩⟩,
          .error ⟨.badChar '@', ⟨⟨4, 4⟩, ⟨4, 5⟩⟩⟩] := by
      decide +kernel
    simp [items, Lexed.LeftOpen]
  have second : (ofText "" "b").lex.map (Lexed.below 4) = [.ok ⟨.id "b", ⟨⟨5, 1⟩, ⟨5, 2⟩⟩⟩] := by
    decide +kernel
  refine ⟨whole, closed, ?_⟩
  rw [← second]
  exact (lexed_by_lines "" whole closed "b").1

end Source

end Coro
