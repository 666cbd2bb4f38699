import Coro.Proofs.Token.Cutting
import Coro.Proofs.Token.Lines

/-!
What becomes of numbers that are badly written.

A number is a run of word characters that starts with a digit. The reader of numbers stops at the
first character that is no digit, and refuses it if it belongs to a word. Two kinds of bad numbers
escape this: behind a zero a word may follow, and behind an `x` there may be nothing.
-/

namespace Coro

/-- Decimal digits, or hexadecimal digits behind their mark. -/
def IsNumeral (run : List Char) : Prop :=
  (∀ c ∈ run, c.isDigit = true) ∨ ∃ mark digits, run = '0' :: mark :: digits ∧
    (mark = 'x' ∨ mark = 'X') ∧ digits ≠ [] ∧ ∀ c ∈ digits, digitValue? 16 c ≠ none

/-- Word characters up to one that is none, the first of them a digit. -/
structure IsNumberRun (run rest : List Char) : Prop where
  start : ∃ first ∈ run.head?, first.isDigit = true
  inside : ∀ c ∈ run, isWordChar c = true
  separates : Separates rest

/-- The lexer comes to the rest of a text between two tokens, with items for all before it. -/
def Source.LexesTo (source : Source) (items : List Lexed) (before rest : List Char) : Prop :=
  source.chars = before ++ rest ∧
    source.lex = items ++ lexFrom source.damaged (Position.first.advance before) rest

/-- A character has a value in base ten if it is a decimal digit, and only then. -/
theorem digitValue?_ten {c : Char} : digitValue? 10 c = none ↔ c.isDigit = false := by
  constructor
  · intro none
    cases digit : c.isDigit with
    | false => rfl
    | true =>
      rw [digitValue?_decimal digit] at none
      cases none
  · intro other
    have range : ¬ ('0' ≤ c ∧ c ≤ '9') := by
      intro bounds
      have digit : c.isDigit = true := by simpa [Char.isDigit, Char.le_def] using bounds
      rw [other] at digit
      cases digit
    -- Letters count on from ten, so none of them is a decimal digit.
    unfold digitValue?
    rw [if_neg range]
    split
    · simp
    · split <;> simp

/-- In a run that has more than digits, the first other character is refused, or a digit too many. -/
theorem readDigits_refuses (radix value : Nat) {run : List Char} (rest : List Char)
    (inside : ∀ c ∈ run, isWordChar c = true) (bad : ∃ c ∈ run, digitValue? radix c = none) :
    ∃ error taken c more, run = taken ++ c :: more ∧
      (error = .badChar c ∨ error = .intOverflow) ∧
      readDigits radix value (run ++ rest) = .refuse error taken (c :: more ++ rest) := by
  induction run generalizing value with
  | nil =>
    obtain ⟨c, member, -⟩ := bad
    cases member
  | cons c more ih =>
    obtain ⟨word, words⟩ := List.forall_mem_cons.mp inside
    cases known : digitValue? radix c with
    | none =>
      exact ⟨.badChar c, [], c, more, rfl, .inl rfl, by simp [readDigits, known, word]⟩
    | some digit =>
      by_cases fits : value * radix + digit ≤ literalMax
      · -- The digit is passed, so the bad character is among the others.
        have later : ∃ c ∈ more, digitValue? radix c = none := by
          obtain ⟨other, member, none⟩ := bad
          rcases List.mem_cons.mp member with rfl | later
          · rw [known] at none
            cases none
          · exact ⟨other, later, none⟩
        obtain ⟨error, taken, stop, behind, rfl, kind, read⟩ := ih (value * radix + digit) words later
        refine ⟨error, c :: taken, stop, behind, rfl, kind, ?_⟩
        simp only [List.cons_append, readDigits, known, if_pos fits, read]
        rfl
      · exact ⟨.intOverflow, [], c, more, rfl, .inr rfl, by simp [readDigits, known, fits]⟩

/-- Which way a badly written number is read. -/
theorem readToken_malformed {first : Char} {others rest : List Char}
    (number : IsNumberRun (first :: others) rest) (malformed : ¬ IsNumeral (first :: others)) :
    (∃ error taken c more, first :: others = taken ++ c :: more ∧
      (error = .badChar c ∨ error = .intOverflow) ∧
      readToken first (others ++ rest) = .refuse error taken (c :: more ++ rest)) ∨
    (first = '0' ∧ (others = ['x'] ∨ others = ['X']) ∧
      readToken first (others ++ rest) = .accept (.int 0) (first :: others) rest) ∨
    (first = '0' ∧ (∃ c more, others = c :: more ∧ isWordStart c = true ∧ c ≠ 'x' ∧ c ≠ 'X') ∧
      readToken first (others ++ rest) = .accept (.int 0) [first] (others ++ rest)) := by
  obtain ⟨digit, words⟩ : first.isDigit = true ∧ ∀ c ∈ others, isWordChar c = true := by
    obtain ⟨_, ⟨⟩, digit⟩ := number.start
    exact ⟨digit, (List.forall_mem_cons.mp number.inside).2⟩
  -- A decimal number that is badly written has a character that is no digit.
  have decimal : ∃ c ∈ others, digitValue? 10 c = none := by
    refine Classical.byContradiction fun none => malformed (.inl ?_)
    refine List.forall_mem_cons.mpr ⟨digit, fun c member => ?_⟩
    cases known : c.isDigit with
    | true => rfl
    | false => exact absurd ⟨c, member, digitValue?_ten.mpr known⟩ none
  have enters : readToken first (others ++ rest) = if first = '0' then
      (readAfterZero (others ++ rest)).push first else readDigits 10 0 (first :: others ++ rest) := by
    rw [readToken, if_neg (by simp [isWordStart_digit digit]), if_pos digit]
    rfl
  rw [enters]
  by_cases zero : first = '0'
  · rw [if_pos zero]
    cases others with
    | nil =>
      obtain ⟨c, member, -⟩ := decimal
      cases member
    | cons c more =>
      obtain ⟨word, inner⟩ := List.forall_mem_cons.mp words
      rw [List.cons_append, readAfterZero]
      by_cases mark : c = 'x' ∨ c = 'X'
      · rw [if_pos mark]
        by_cases empty : more = []
        · subst empty
          refine .inr (.inl ⟨zero, by simpa using mark, ?_⟩)
          rw [List.nil_append, readDigits_separates 16 0 number.separates]
          rfl
        · -- Behind the mark there is more than hexadecimal digits.
          have bad : ∃ d ∈ more, digitValue? 16 d = none := by
            refine Classical.byContradiction fun none => malformed (.inr ?_)
            exact ⟨c, more, by rw [zero], mark, empty, fun d member lacks =>
              none ⟨d, member, lacks⟩⟩
          obtain ⟨error, taken, d, behind, rfl, kind, read⟩ := readDigits_refuses 16 0 rest inner bad
          refine .inl ⟨error, first :: c :: taken, d, behind, rfl, kind, ?_⟩
          rw [read]
          rfl
      · rw [if_neg mark]
        by_cases digit' : c.isDigit = true
        · rw [if_pos digit']
          obtain ⟨error, taken, d, behind, same, kind, read⟩ :=
            readDigits_refuses 10 0 rest words decimal
          refine .inl ⟨error, first :: taken, d, behind, by rw [same]; rfl, kind, ?_⟩
          rw [← List.cons_append, read]
          rfl
        · rw [if_neg digit']
          have start : isWordStart c = true := by
            simpa [isWordChar, isWordStart, Char.isAlphanum, digit'] using word
          obtain ⟨small, large⟩ := not_or.mp mark
          exact .inr (.inr ⟨zero, ⟨c, more, rfl, start, small, large⟩, rfl⟩)
  · rw [if_neg zero]
    obtain ⟨c, member, none⟩ := decimal
    exact .inl (readDigits_refuses 10 0 rest number.inside ⟨c, List.mem_cons_of_mem _ member, none⟩)

namespace Source

section Steps

variable {source : Source} {items : List Lexed} {before others lexeme after : List Char}
  {first : Char} (lexes : source.LexesTo items before (first :: others))
  (word : isWordChar first = true)
include lexes word

/-- Behind a token that starts with a word character the lexer goes on. -/
theorem LexesTo.token {token : Token}
    (read : readToken first others = .accept token lexeme after) :
    source.LexesTo (items ++ [.ok ⟨token, ⟨Position.first.advance before,
      Position.first.advance (before ++ lexeme)⟩⟩]) (before ++ lexeme) after := by
  obtain ⟨blank, slash⟩ := isWordChar_plain word
  have whole := readToken_split first others
  rw [read] at whole
  refine ⟨by rw [lexes.1, List.append_assoc, ← whole]; rfl, ?_⟩
  rw [lexes.2, lexFrom_token (by simp [blank]) (fun comment => slash comment.1)
    (fun comment => slash comment.1) read, List.append_assoc, Position.advance_append]
  rfl

/-- Behind an error the lexer goes on in the next line. -/
theorem LexesTo.error {error : LexError}
    (read : readToken first others = .refuse error lexeme after) :
    source.LexesTo (items ++ [.error ⟨error, .point (Position.first.advance (before ++ lexeme))⟩])
      (before ++ lexeme ++ lineHead after) (lineRest after) := by
  obtain ⟨blank, slash⟩ := isWordChar_plain word
  have whole := readToken_split first others
  rw [read] at whole
  refine ⟨by rw [lexes.1, List.append_assoc, List.append_assoc, lineHead_append_lineRest,
    ← whole]; rfl, ?_⟩
  rw [lexes.2, lexFrom_error (by simp [blank]) (fun comment => slash comment.1)
    (fun comment => slash comment.1) read, List.append_assoc]
  simp only [Position.advance_append]
  rfl

end Steps

/--
A badly written number is an error of its text, but for two kinds.

The error stands at a character of the number, and nothing else of the line becomes a token. The mark
of hexadecimal digits without any digit is read as zero, and so is a zero before a word, which
becomes a token of its own.
-/
theorem malformed_number {source : Source} {items : List Lexed} {before run rest : List Char}
    (lexes : source.LexesTo items before (run ++ rest)) (number : IsNumberRun run rest)
    (malformed : ¬ IsNumeral run) :
    (∃ error taken c more, run = taken ++ c :: more ∧
      (error = .badChar c ∨ error = .intOverflow) ∧
      source.LexesTo
        (items ++ [.error ⟨error, .point (Position.first.advance (before ++ taken))⟩])
        (before ++ taken ++ lineHead (c :: more ++ rest)) (lineRest (c :: more ++ rest))) ∨
    ((run = ['0', 'x'] ∨ run = ['0', 'X']) ∧
      source.LexesTo (items ++ [.ok ⟨.int 0, ⟨Position.first.advance before,
        Position.first.advance (before ++ run)⟩⟩]) (before ++ run) rest) ∨
    ∃ c more, run = '0' :: c :: more ∧ isWordStart c = true ∧ c ≠ 'x' ∧ c ≠ 'X' ∧
      source.LexesTo (items ++ [.ok ⟨.int 0, ⟨Position.first.advance before,
          Position.first.advance (before ++ ['0'])⟩⟩] ++
        [.ok ⟨wordToken (String.ofList (c :: more)), ⟨Position.first.advance (before ++ ['0']),
          Position.first.advance (before ++ run)⟩⟩]) (before ++ run) rest := by
  cases run with
  | nil =>
    obtain ⟨_, ⟨⟩, _⟩ := number.start
  | cons first others =>
    obtain ⟨word, words⟩ := List.forall_mem_cons.mp number.inside
    rcases readToken_malformed number malformed with
      ⟨error, taken, c, more, same, kind, read⟩ | ⟨rfl, mark, read⟩ |
      ⟨rfl, ⟨c, more, rfl, start, small, large⟩, read⟩
    · exact .inl ⟨error, taken, c, more, same, kind, lexes.error word read⟩
    · refine .inr (.inl ⟨?_, lexes.token word read⟩)
      rcases mark with rfl | rfl <;> simp
    · refine .inr (.inr ⟨c, more, rfl, start, small, large, ?_⟩)
      -- The lexer goes on with the word right behind the zero.
      have next := lexes.token word read
      have all := number.separates.takeWhile
      have reads : readToken c (more ++ rest) =
          .accept (wordToken (String.ofList (c :: more))) (c :: more) rest := by
        rw [readToken, if_pos start, readWord, ← List.cons_append,
          List.takeWhile_append_of_pos words, List.dropWhile_append_of_pos words, all.1, all.2,
          List.append_nil]
      have last := next.token (List.forall_mem_cons.mp words).1 reads
      simpa using last

/-- A letter behind a digit is refused. -/
theorem lettered_refused : ∃ error place,
    .error ⟨error, place⟩ ∈ (ofText "lettered" "1a").lex ∧
      (error = .badChar '1' ∨ error = .badChar 'a' ∨ error = .intOverflow) := by
  have number : IsNumberRun ['1', 'a'] ['\n'] :=
    ⟨⟨'1', rfl, rfl⟩, by simp [isWordChar], by rintro _ ⟨⟩; rfl⟩
  have malformed : ¬ IsNumeral ['1', 'a'] := by
    rintro (digits | ⟨mark, digits, same, -⟩)
    · exact absurd (digits 'a' (by simp)) (by decide)
    · cases same
  have lexes : (ofText "lettered" "1a").LexesTo [] [] (['1', 'a'] ++ ['\n']) := ⟨rfl, rfl⟩
  rcases malformed_number lexes number malformed with
    ⟨error, taken, c, more, same, kind, found⟩ | ⟨none, -⟩ | ⟨_, _, none, -⟩
  · refine ⟨error, _, found.2 ▸ List.mem_append_left _ List.mem_cons_self, ?_⟩
    have member : c ∈ ['1', 'a'] := by simp [same]
    simp only [List.mem_cons, List.not_mem_nil, or_false] at member
    rcases member with rfl | rfl
    · exact kind.imp_right .inr
    · exact .inr kind
  · simp at none
  · simp at none

/-- A zero before a word, and the mark of hexadecimal digits alone, are no errors. -/
theorem malformed_zeros_accepted : ¬ IsNumeral ['0', 'a'] ∧ ¬ IsNumeral ['0', 'x'] ∧
    (ofText "zeros" "0a").tokens =
      .ok [⟨.int 0, ⟨⟨1, 1⟩, ⟨1, 2⟩⟩⟩, ⟨.id "a", ⟨⟨1, 2⟩, ⟨1, 3⟩⟩⟩] ∧
    (ofText "zeros" "0x").tokens = .ok [⟨.int 0, ⟨⟨1, 1⟩, ⟨1, 3⟩⟩⟩] := by
  refine ⟨?_, ?_, by decide +kernel, by decide +kernel⟩
  · rintro (digits | ⟨mark, digits, same, letter, -⟩)
    · exact absurd (digits 'a' (by simp)) (by decide)
    · cases same
      simp at letter
  · rintro (digits | ⟨mark, digits, same, -, filled, -⟩)
    · exact absurd (digits 'x' (by simp)) (by decide)
    · cases same
      exact filled rfl

end Source

end Coro
