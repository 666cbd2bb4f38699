import Coro.Proofs.Parser.Places
import Coro.Proofs.Token.Coverage
import Coro.Report

/-!
Messages are shown with marks under the characters that they speak of.

In a line without tabs a character stands in the column that its place among the others gives it. A
token takes the columns of its characters, and an expression those from its first token through its
last; so the marks under these columns are under these characters.
-/

namespace Coro

/-! ## Characters and columns -/

/-- Plain characters take one column each. -/
theorem Position.advance_plain (position : Position) {text : List Char} (feed : '\n' ∉ text)
    (tab : '\t' ∉ text) :
    position.advance text = ⟨position.line, position.column + text.length⟩ := by
  induction text generalizing position with
  | nil => rfl
  | cons c rest ih =>
    simp only [List.mem_cons, not_or] at feed tab
    obtain ⟨⟨other, feed⟩, ⟨other', tab⟩⟩ := And.intro feed tab
    have step : position.after c = position.nextColumn := by
      rw [after, if_neg (Ne.symm other), if_neg (Ne.symm other')]
    rw [advance, List.foldl_cons, step]
    change position.nextColumn.advance rest = _
    rw [ih _ feed tab, nextColumn]
    simp only [List.length_cons, Position.mk.injEq, true_and]
    omega

/-- A character stands in some line, in the column that it has there if the line has no tabs. -/
theorem character_column {lines : List String} (free : ∀ line ∈ lines, '\n' ∉ line.toList)
    (number : Nat) {before after : List Char} {c : Char}
    (split : lines.flatMap (fun line => line.toList ++ ['\n']) = before ++ c :: after)
    (solid : c ≠ '\n') : ∃ i line, lines[i]? = some line ∧
      (Position.advance ⟨number, 1⟩ before).line = number + i ∧ ('\t' ∉ line.toList →
        1 ≤ (Position.advance ⟨number, 1⟩ before).column ∧
          line.toList[(Position.advance ⟨number, 1⟩ before).column - 1]? = some c) := by
  induction lines generalizing number before with
  | nil => simp at split
  | cons line rest ih =>
    obtain ⟨clean, others⟩ := List.forall_mem_cons.mp free
    rw [List.flatMap_cons, List.append_assoc] at split
    rcases List.append_eq_append_iff.mp split with ⟨more, rfl, later⟩ | ⟨more, inside, later⟩
    · -- The character stands behind the end of the first line.
      cases more with
      | nil => exact absurd (List.cons.inj later).1.symm solid
      | cons d more =>
        rw [List.singleton_append, List.cons_append] at later
        obtain ⟨rfl, tail⟩ := List.cons.inj later
        obtain ⟨i, found, listed, place, column⟩ := ih others (number + 1) tail
        have ended : Position.advance ⟨number, 1⟩ (line.toList ++ '\n' :: more) =
            Position.advance ⟨number + 1, 1⟩ more := by
          have same := Position.line_advance ⟨number, 1⟩ line.toList
          rw [List.count_eq_zero.mpr clean] at same
          rw [Position.advance_append, Position.advance, List.foldl_cons]
          simp only [Position.after, ↓reduceIte]
          rw [same]
          rfl
        rw [ended]
        exact ⟨i + 1, found, listed, by rw [place]; omega, column⟩
    · cases more with
      | nil => exact absurd (List.cons.inj later).1 solid
      | cons d more =>
        obtain ⟨rfl, -⟩ := List.cons.inj later
        rw [inside] at clean
        have feed : '\n' ∉ before := fun member => clean (List.mem_append_left _ member)
        refine ⟨0, line, rfl, ?_, fun plain => ?_⟩
        · have same := Position.line_advance ⟨number, 1⟩ before
          rwa [List.count_eq_zero.mpr feed] at same
        · rw [inside] at plain
          have tab : '\t' ∉ before := fun member => plain (List.mem_append_left _ member)
          rw [Position.advance_plain _ feed tab]
          simp [inside]

/-- A range is that of some characters of a text, none of which ends a line. -/
def Location.Bounds (location : Location) (position : Position) (text : List Char) : Prop :=
  ∃ before inside after, text = before ++ inside ++ after ∧ inside ≠ [] ∧ '\n' ∉ inside ∧
    location = ⟨position.advance before, position.advance (before ++ inside)⟩

theorem Location.Bounds.behind {location : Location} {position : Position} {rest : List Char}
    (passed : List Char) (bounds : location.Bounds (position.advance passed) rest) :
    location.Bounds position (passed ++ rest) := by
  obtain ⟨before, inside, after, rfl, filled, none, rfl⟩ := bounds
  refine ⟨passed ++ before, inside, after, by simp, filled, none, ?_⟩
  simp only [Position.advance_append]

/-- A token stands where its characters do. -/
theorem lexFrom_bounds (damaged : Bool) (position : Position) (text : List Char) :
    ∀ token, .ok token ∈ lexFrom damaged position text → token.location.Bounds position text := by
  -- Whatever the lexer passes on its way stands before all tokens that are still to come.
  fun_induction lexFrom damaged position text with
  | case1 | case2 | case5 => simp
  | case3 position c rest blank ih => exact fun token member => (ih token member).behind [c]
  | case4 position c rest solid comment ih =>
    intro token member
    rw [← lineHead_append_lineRest (c :: rest)]
    exact (ih token member).behind _
  | case6 position c rest solid noLine comment inner after found ih =>
    intro token member
    rw [← closeComment_rest found]
    exact (ih token member).behind _
  | case7 position c rest solid noLine noBlock reading stop token read ih =>
    have whole : reading.lexeme ++ reading.rest = c :: rest := readToken_split c rest
    intro other member
    rw [← whole]
    rcases List.mem_cons.mp member with same | later
    · cases same
      exact ⟨[], reading.lexeme, reading.rest, rfl, readToken_lexeme_ne_nil read,
        readToken_lexeme c rest, rfl⟩
    · exact (ih other later).behind _
  | case8 position c rest solid noLine noBlock reading stop error read ih =>
    have whole : reading.lexeme ++ reading.rest = c :: rest := readToken_split c rest
    intro token member
    rcases List.mem_cons.mp member with same | later
    · cases same
    · rw [← whole, ← lineHead_append_lineRest reading.rest]
      exact ((ih token later).behind _).behind _

/-! ## Lines of a source -/

namespace Source

variable {name text : String} {location : Location}

theorem lines_free (name text : String) :
    ∀ line ∈ (ofText name text).lines, '\n' ∉ line.toList := by
  intro line member
  obtain ⟨piece, cut, rfl⟩ := List.mem_map.mp member
  rw [String.toList_ofList]
  exact not_mem_of_mem_cutLines (by simp) piece cut

/-- Every character but a line feed stands in a line of the source. -/
theorem character_line {before after : List Char} {c : Char}
    (split : (ofText name text).chars = before ++ c :: after) (solid : c ≠ '\n') :
    ∃ line, (ofText name text).line? (Position.first.advance before).line = some line ∧
      ('\t' ∉ line.toList → 1 ≤ (Position.first.advance before).column ∧
        line.toList[(Position.first.advance before).column - 1]? = some c) := by
  obtain ⟨i, line, listed, place, column⟩ :=
    character_column (lines_free name text) 1 split solid
  refine ⟨line, ?_, column⟩
  change (Position.first.advance before).line = 1 + i at place
  rw [line?, if_neg (by omega), place, Nat.add_sub_cancel_left, listed]

/-- A range lies in the columns of a line. -/
def WithinLine (location : Location) (line : String) : Prop :=
  1 ≤ location.start.column ∧ location.start.column < location.stop.column ∧
    location.stop.column ≤ line.length + 1

/-- The range of some characters lies in their line. -/
theorem fits_of_bounds (bounds : location.Bounds .first (ofText name text).chars) :
    location.start.line = location.stop.line ∧
      ∃ line, (ofText name text).line? location.start.line = some line ∧
        ('\t' ∉ line.toList → WithinLine location line) := by
  obtain ⟨before, inside, after, split, filled, none, rfl⟩ := bounds
  have same : (Position.first.advance (before ++ inside)).line =
      (Position.first.advance before).line := by
    rw [Position.advance_append, Position.line_advance, List.count_eq_zero.mpr none]
    rfl
  refine ⟨same.symm, ?_⟩
  -- The first character tells the line, and the last one how far the range goes in it.
  obtain ⟨c, more, starts⟩ := List.exists_cons_of_ne_nil filled
  obtain ⟨front, last, ends⟩ := (List.eq_nil_or_concat inside).resolve_left filled
  rw [List.concat_eq_append] at ends
  have solid : ∀ d ∈ inside, d ≠ '\n' := fun d member same => none (same ▸ member)
  have head : (ofText name text).chars = before ++ c :: (more ++ after) := by
    rw [split, starts, List.append_assoc, List.cons_append]
  have tail : (ofText name text).chars = (before ++ front) ++ last :: after := by
    rw [split, ends]
    simp
  obtain ⟨line, found, first⟩ := character_line head (solid c (by simp [starts]))
  obtain ⟨other, found', final⟩ := character_line tail (solid last (by simp [ends]))
  refine ⟨line, found, fun plain => ?_⟩
  have here : (Position.first.advance (before ++ front)).line =
      (Position.first.advance before).line := by
    have clean : '\n' ∉ front := fun member => none (by simp [ends, member])
    rw [Position.advance_append, Position.line_advance, List.count_eq_zero.mpr clean]
    rfl
  rw [here, found] at found'
  cases found'
  obtain ⟨low, -⟩ := first plain
  obtain ⟨low', shown⟩ := final plain
  obtain ⟨high, -⟩ := List.getElem?_eq_some_iff.mp shown
  rw [String.length_toList] at high
  -- The last character is no tab, so the range ends in the next column.
  have stop : Position.first.advance (before ++ inside) =
      (Position.first.advance (before ++ front)).nextColumn := by
    have flat : last ≠ '\t' := fun tab => plain (tab ▸ List.mem_of_getElem? shown)
    rw [ends, ← List.append_assoc, Position.advance_append]
    change (Position.first.advance (before ++ front)).after last = _
    rw [Position.after, if_neg (solid last (by simp [ends])), if_neg flat]
  have further : (Position.first.advance before).Before
      (Position.first.advance (before ++ inside)) := by
    rw [Position.advance_append]
    exact Position.before_advance _ filled
  rw [Position.Before, same] at further
  unfold WithinLine
  dsimp only
  rw [stop] at further ⊢
  simp only [Position.nextColumn] at further ⊢
  omega

/-- A place of a token, or of an expression that is read from the tokens. -/
inductive Locates (source : Source) : Location → Prop
  | token {token : Located Token} : .ok token ∈ source.lex → Locates source token.location
  | expr {tokens : List (Located Token)} {budget : Nat} {cursor after : Cursor}
      {expr part : Ast.Expr} : source.tokens = .ok tokens → cursor.tokens <:+ tokens →
      (Parser.expression budget).run cursor = .ok (expr, after) → part ∈ expr.parts →
      Locates source part.location

/-- In one line, such a place takes at least one column and ends with the line at the latest. -/
theorem Locates.fits (located : (ofText name text).Locates location)
    (single : location.start.line = location.stop.line) :
    ∃ line, (ofText name text).line? location.start.line = some line ∧
      ('\t' ∉ line.toList → WithinLine location line) := by
  cases located with
  | token member => exact (fits_of_bounds (lexFrom_bounds _ _ _ _ member)).2
  | @expr tokens budget cursor after expr part lexed suffix ran member =>
    have bounds : ∀ token ∈ tokens, token.location.Bounds .first (ofText name text).chars := by
      intro token listed
      refine lexFrom_bounds _ _ _ token (?_ : _ ∈ (ofText name text).lex)
      rw [lex_of_tokens lexed]
      exact List.mem_map_of_mem listed
    obtain ⟨taken, ahead, -, rest, all, stands⟩ :=
      Parser.expression_stands budget [] cursor expr after (by simp) ran
    obtain rfl : taken = rest := by simpa using all
    have within : taken.Sublist tokens :=
      (ahead ▸ List.sublist_append_left taken after.tokens).trans suffix.sublist
    obtain ⟨first, last, order, place⟩ := (stands part member).mono within
    rw [place] at single ⊢
    obtain ⟨oneLine, line, found, fits⟩ :=
      fits_of_bounds (bounds first (order.elim (·.2) (·.subset (by simp))))
    obtain ⟨lastLine, other, found', fits'⟩ :=
      fits_of_bounds (bounds last (order.elim (fun same => same.1 ▸ same.2) (·.subset (by simp))))
    refine ⟨line, found, fun plain => ?_⟩
    change first.location.start.line = last.location.stop.line at single
    rw [lastLine, ← single, found] at found'
    cases found'
    have begun := fits plain
    have ended := fits' plain
    rcases order with ⟨rfl, -⟩ | both
    · exact begun
    · -- The last token starts behind the first one, in the same line.
      have later : first.location.start.Before last.location.start := by
        have pair := (tokens_ordered lexed).sublist both
        simpa using pair
      rw [Position.Before, single, ← lastLine] at later
      exact ⟨begun.1, by unfold WithinLine at ended; simp only [Location.span]; omega, ended.2.2⟩

/-! ## Marks -/

/-- In a line, marks stand from the first column of a range up to the last. -/
theorem underline_eq {line : String} (fits : WithinLine location line) :
    (Report.underline location).toList =
      List.replicate (location.start.column - 1) ' ' ++
        List.replicate (location.stop.column - location.start.column) '^' := by
  obtain ⟨low, less, -⟩ := fits
  have last : location.stop.previousColumn.column = location.stop.column - 1 := by
    simp only [Position.previousColumn]
    omega
  have smaller : min location.start.column (location.stop.column - 1) = location.start.column := by
    omega
  have larger : max location.start.column (location.stop.column - 1) -
      location.start.column + 1 = location.stop.column - location.start.column := by
    omega
  simp only [Report.underline, Report.fill, last, smaller, larger, String.toList_append,
    String.toList_ofList]

theorem marked_iff {line : String} (fits : WithinLine location line) (i : Nat) :
    (Report.underline location).toList[i]? = some '^' ↔
      location.start.column - 1 ≤ i ∧ i < location.stop.column - 1 := by
  rw [underline_eq fits, List.getElem?_append, List.length_replicate]
  unfold WithinLine at fits
  split
  · rw [List.getElem?_replicate, if_pos ‹_›]
    simp
    omega
  · rw [List.getElem?_replicate]
    split
    · simp
      omega
    · simp
      omega

/--
A message is shown with its line, and with marks under the characters that it speaks of.

Its place is that of a token or of an expression, in one line that has no tab. Behind the number
stands the line as it is written, and in the next line a mark is under each character that belongs
to the place and under no other one.
-/
theorem marks_underline (located : (ofText name text).Locates location)
    (single : location.start.line = location.stop.line) :
    ∃ line, (ofText name text).line? location.start.line = some line ∧ ('\t' ∉ line.toList →
      ∃ marks : String,
        (∀ heading fatal message, Report.render (ofText name text)
            ⟨heading, fatal, [⟨message, location⟩]⟩ =
          let number := toString location.start.line
          let margin := Report.fill number.length ' '
          String.join ([heading ++ ": " ++ message, " --> " ++ location.describe name,
            margin ++ " |", number ++ " | " ++ line, margin ++ " | " ++ marks, "",
            Report.summary ⟨heading, fatal, [⟨message, location⟩]⟩].map (· ++ "\n"))) ∧
        marks.length ≤ line.length ∧ (∀ c ∈ marks.toList, c = ' ' ∨ c = '^') ∧
        ∀ before c after, (ofText name text).chars = before ++ c :: after → c ≠ '\n' →
          (Position.first.advance before).line = location.start.line →
          line.toList[(Position.first.advance before).column - 1]? = some c ∧
          (marks.toList[(Position.first.advance before).column - 1]? = some '^' ↔
            location.Holds (Position.first.advance before))) := by
  obtain ⟨line, found, fits⟩ := located.fits single
  refine ⟨line, found, fun plain => ⟨Report.underline location, ?_, ?_, ?_, ?_⟩⟩
  · intro heading fatal message
    have shown : Report.excerpt (ofText name text) location =
        [toString location.start.line ++ " | " ++ line] := by
      rw [single] at found
      simp [Report.excerpt, found, Report.alignRight, Report.fill, single]
    simp only [Report.render, Report.entryLines, shown, List.isEmpty_cons, Bool.false_eq_true,
      ↓reduceIte, List.flatMap_cons, List.flatMap_nil, List.append_nil, single]
    rfl
  · have columns := fits plain
    unfold WithinLine at columns
    rw [← String.length_toList, underline_eq columns]
    simp only [List.length_append, List.length_replicate]
    omega
  · intro c member
    rw [underline_eq (fits plain)] at member
    rcases List.mem_append.mp member with blank | mark
    · exact .inl (List.eq_of_mem_replicate blank)
    · exact .inr (List.eq_of_mem_replicate mark)
  · intro before c after split solid here
    obtain ⟨other, found', column⟩ := character_line split solid
    rw [here, found] at found'
    cases found'
    obtain ⟨low, shown⟩ := column plain
    refine ⟨shown, ?_⟩
    have columns := fits plain
    rw [marked_iff columns, Location.Holds, Position.Before, Position.Before, here, ← single]
    unfold WithinLine at columns
    omega

/-- A sum, which takes all of its line. -/
def sum : Source :=
  .ofText "sum" "a+b"

/-- Marks stand under both ends of the sum. -/
theorem sum_underlined : ∃ marks : String, marks.length ≤ 3 ∧
    marks.toList[0]? = some '^' ∧ marks.toList[2]? = some '^' ∧
    Report.render sum ⟨"error", true, [⟨"Bad sum", ⟨⟨1, 1⟩, ⟨1, 4⟩⟩⟩]⟩ =
      String.join (["error: Bad sum", " --> sum:[1:1-1:3]", "  |", "1 | a+b", "  | " ++ marks, "",
        "Build failed with 1 error"].map (· ++ "\n")) := by
  have lexed : sum.tokens = .ok [⟨.id "a", ⟨⟨1, 1⟩, ⟨1, 2⟩⟩⟩, ⟨.punct .plus, ⟨⟨1, 2⟩, ⟨1, 3⟩⟩⟩,
      ⟨.id "b", ⟨⟨1, 3⟩, ⟨1, 4⟩⟩⟩] := by
    decide +kernel
  obtain ⟨expr, after, ran, place⟩ : ∃ expr after,
      (Parser.expression 3).run ⟨[⟨.id "a", ⟨⟨1, 1⟩, ⟨1, 2⟩⟩⟩, ⟨.punct .plus, ⟨⟨1, 2⟩, ⟨1, 3⟩⟩⟩,
        ⟨.id "b", ⟨⟨1, 3⟩, ⟨1, 4⟩⟩⟩], default⟩ = .ok (expr, after) ∧
        expr.location = ⟨⟨1, 1⟩, ⟨1, 4⟩⟩ := ⟨_, _, rfl, rfl⟩
  have located : sum.Locates ⟨⟨1, 1⟩, ⟨1, 4⟩⟩ :=
    place ▸ .expr lexed List.suffix_rfl ran expr.mem_parts
  obtain ⟨line, found, shown⟩ := marks_underline located rfl
  obtain rfl : "a+b" = line := Option.some.inj found
  obtain ⟨marks, rendered, short, -, under⟩ := shown (by decide)
  refine ⟨marks, short, ?_, ?_, rendered "error" true "Bad sum"⟩
  · refine (under [] 'a' ['+', 'b', '\n'] rfl (by decide) rfl).2.mpr ?_
    simp [Location.Holds, Position.Before, Position.advance, Position.first]
  · refine (under ['a', '+'] 'b' ['\n'] rfl (by decide) rfl).2.mpr ?_
    simp [Location.Holds, Position.Before, Position.advance, Position.first, Position.after,
      Position.nextColumn]

end Source

end Coro
