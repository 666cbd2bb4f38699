import Coro.Proofs.Token.Cutting
import Coro.Proofs.Token.Lines

/-!
Tokens cover their text.

A text without errors consists of lexemes and of what stands between them, which is blanks and
comments. A token stands from the first character of its lexeme to the column behind the last one,
and the lexeme alone is a text of just that token.
-/

namespace Coro

/-! ## Places in reading order -/

/-- A place stands before another one, in an earlier line or further left. -/
def Position.Before (first second : Position) : Prop :=
  first.line < second.line ∨ first.line = second.line ∧ first.column < second.column

/-- A place belongs to a range. -/
def Location.Holds (location : Location) (position : Position) : Prop :=
  ¬ position.Before location.start ∧ position.Before location.stop

namespace Position

variable {first second third : Position}

theorem Before.trans (one : first.Before second) (other : second.Before third) :
    first.Before third := by
  unfold Before at *
  omega

theorem Before.asymm (one : first.Before second) : ¬ second.Before first := by
  unfold Before at *
  omega

theorem before_after (position : Position) (c : Char) : position.Before (position.after c) := by
  unfold after
  split
  · exact .inl (Nat.lt_succ_self _)
  · split
    · refine .inr ⟨rfl, ?_⟩
      dsimp only [tabStop]
      omega
    · exact .inr ⟨rfl, Nat.lt_succ_self _⟩

theorem before_advance (position : Position) {text : List Char} (filled : text ≠ []) :
    position.Before (position.advance text) := by
  -- The first character leads further, and the others do not lead back.
  induction text generalizing position with
  | nil => exact absurd rfl filled
  | cons c rest ih =>
    show position.Before ((position.after c).advance rest)
    by_cases last : rest = []
    · rw [last]
      exact position.before_after c
    · exact (position.before_after c).trans (ih (position.after c) last)

end Position

/-! ## Lexemes on their own -/

/-- A lexeme is a text of just one token. -/
def IsLexeme (lexeme : List Char) (token : Token) : Prop :=
  ∀ name, ∃ place, (Source.ofText name (String.ofList lexeme)).tokens = .ok [⟨token, place⟩]

theorem isLexeme_readToken {first : Char} {rest : List Char} {token : Token}
    (solid : ¬ isBlank first) (noLine : ¬ (first = '/' ∧ rest.head? = some '/'))
    (noBlock : ¬ (first = '/' ∧ rest.head? = some '*'))
    (read : (readToken first rest).outcome = .ok token) :
    IsLexeme (readToken first rest).lexeme token := by
  intro name
  obtain ⟨others, same, alone⟩ := readToken_alone read
  have inside := readToken_lexeme first rest
  have whole := readToken_split first rest
  rw [same] at inside whole ⊢
  rw [List.cons_append, List.cons.injEq] at whole
  -- What followed the first character made no comment of it, and neither does a line feed.
  have closed : first = '/' → ∀ c, (others ++ ['\n']).head? = some c → c ≠ '/' ∧ c ≠ '*' := by
    intro slash c ahead
    rw [← whole.2] at noLine noBlock
    cases others with
    | nil =>
      cases ahead
      decide
    | cons second others =>
      cases ahead
      exact ⟨fun same => noLine ⟨slash, congrArg some same⟩,
        fun same => noBlock ⟨slash, congrArg some same⟩⟩
  have cuts : Cuts (first :: others) [token] ['\n'] := .token (by simpa using solid) closed alone
  have single : Cuts (String.ofList (first :: others)).toList [token] ['\n'] := by simpa using cuts
  obtain ⟨located, lexed, values⟩ := Source.tokens_of_cuts name (by simpa using inside) (by simp)
    single
  obtain ⟨⟨_, place⟩, rfl, rfl⟩ := List.map_eq_singleton_iff.mp values
  exact ⟨place, lexed⟩

/-! ## What stands between lexemes -/

/-- A blank, or a comment with all that belongs to it. -/
inductive IsFiller : List Char → Prop where
  | blank {c : Char} : isBlank c → IsFiller [c]
  | line {body : List Char} : '\n' ∉ body → IsFiller ('/' :: '/' :: body ++ ['\n'])
  /-- A block comment is closed where it can be for the first time. -/
  | block {body : List Char} : ¬ ['*', '/'] <:+: body ++ ['*'] →
      IsFiller ('/' :: '*' :: body ++ ['*', '/'])

theorem isFiller_lineHead {rest : List Char} (feed : '\n' ∈ rest) :
    IsFiller (lineHead ('/' :: '/' :: rest)) := by
  obtain ⟨-, -, filled⟩ := span_append (p := (· != '\n')) (by decide) feed []
  -- The first character that does not belong to the body is a line feed.
  obtain ⟨c, others, ended⟩ := List.exists_cons_of_ne_nil filled
  have same : c = '\n' := by
    have stops := List.head?_dropWhile_not (fun c => c != '\n') rest
    simpa [ended] using stops
  have whole : lineHead ('/' :: '/' :: rest) =
      '/' :: '/' :: rest.takeWhile (· != '\n') ++ ['\n'] := by
    simp [lineHead, ended, same]
  rw [whole]
  exact .line fun member => absurd (List.mem_takeWhile_imp member) (by decide)

/-- A comment is closed at its end and nowhere before. -/
theorem closeComment_closes {text comment after : List Char}
    (closed : closeComment text = some (comment, after)) :
    ∃ body, comment = body ++ ['*', '/'] ∧ ¬ ['*', '/'] <:+: body ++ ['*'] := by
  induction text generalizing comment with
  | nil => cases closed
  | cons c rest ih =>
    rw [closeComment] at closed
    split at closed
    · rename_i ended
      obtain ⟨rfl, ahead⟩ := ended
      obtain ⟨others, rfl⟩ := List.head?_eq_some_iff.mp ahead
      cases closed
      exact ⟨[], rfl, by decide⟩
    · rename_i inside
      obtain ⟨⟨inner, behind⟩, found, same⟩ := Option.map_eq_some_iff.mp closed
      cases same
      have whole := closeComment_split found
      obtain ⟨body, rfl, first⟩ := ih found
      refine ⟨c :: body, rfl, fun part => ?_⟩
      rcases List.infix_cons_iff.mp part with head | later
      · -- A star in front of a slash would have closed the comment.
        obtain ⟨rfl, slash⟩ := List.cons_prefix_cons.mp head
        refine inside ⟨rfl, ?_⟩
        rw [← whole]
        cases body with
        | nil => simp at slash
        | cons d body =>
          obtain ⟨rfl, -⟩ := List.cons_prefix_cons.mp slash
          rfl
      · exact first later

/-! ## Whole texts -/

/--
A text from a given place on is made of lexemes and of what stands between them.

Each token stands from the place of the first character of its lexeme to the place that follows the
last one.
-/
inductive Covers : Position → List Char → List (Located Token) → Prop where
  | done {position : Position} : Covers position [] []
  | filler {position : Position} {filler rest : List Char} {tokens : List (Located Token)} :
      IsFiller filler → Covers (position.advance filler) rest tokens →
      Covers position (filler ++ rest) tokens
  | token {position : Position} {lexeme rest : List Char} {token : Token}
      {tokens : List (Located Token)} :
      lexeme ≠ [] → '\n' ∉ lexeme → IsLexeme lexeme token →
      Covers (position.advance lexeme) rest tokens →
      Covers position (lexeme ++ rest) (⟨token, ⟨position, position.advance lexeme⟩⟩ :: tokens)

theorem lexFrom_covers {damaged : Bool} {position : Position} {text : List Char}
    (ends : EndsLine text) {tokens : List (Located Token)}
    (lexed : lexFrom damaged position text = tokens.map .ok) : Covers position text tokens := by
  -- Item by item, as the lexer goes through the text; none of them is an error.
  fun_induction lexFrom damaged position text generalizing tokens with
  | case1 position | case5 position | case8 position => cases tokens <;> cases lexed
  | case2 position =>
    rw [List.map_eq_nil_iff.mp lexed.symm]
    exact .done
  | case3 position c rest blank ih => exact .filler (.blank blank) (ih (ends.right [c]) lexed)
  | case4 position c rest solid comment ih =>
    have filler : IsFiller (lineHead (c :: rest)) := by
      obtain ⟨rfl, ahead⟩ := comment
      have feed := ends.feed_rest solid
      obtain ⟨others, rfl⟩ := List.head?_eq_some_iff.mp ahead
      exact isFiller_lineHead (List.mem_of_ne_of_mem (by decide) feed)
    rw [← lineHead_append_lineRest (c :: rest)]
    exact .filler filler (ih ends.lineRest lexed)
  | case6 position c rest solid noLine comment inner after found ih =>
    have filler : IsFiller (c :: rest.take 1 ++ inner) := by
      obtain ⟨rfl, ahead⟩ := comment
      obtain ⟨others, rfl⟩ := List.head?_eq_some_iff.mp ahead
      obtain ⟨body, rfl, first⟩ := closeComment_closes found
      exact .block first
    rw [← closeComment_rest found] at ends ⊢
    exact .filler filler (ih (ends.right _) lexed)
  | case7 position c rest solid noLine noBlock reading stop token read =>
    rename_i ih
    have whole : reading.lexeme ++ reading.rest = c :: rest := readToken_split c rest
    obtain ⟨first, others, rfl, same, later⟩ := List.map_eq_cons_iff.mp lexed.symm
    cases same
    rw [← whole] at ends ⊢
    exact .token (readToken_lexeme_ne_nil read)
      (readToken_lexeme c rest)
      (isLexeme_readToken solid noLine noBlock read) (ih (ends.right _) later.symm)

namespace Covers

variable {position : Position} {text : List Char} {tokens : List (Located Token)}

variable (covers : Covers position text tokens)

include covers

/-- Every token stands in one line and takes at least one column of it. -/
theorem inLine : ∀ token ∈ tokens,
    token.location.start.line = token.location.stop.line ∧
      token.location.start.column < token.location.stop.column := by
  induction covers with
  | done => simp
  | filler _ _ ih => exact ih
  | @token position lexeme rest token tokens filled inside _ _ ih =>
    refine List.forall_mem_cons.mpr ⟨?_, ih⟩
    have line := Position.line_advance position lexeme
    rw [List.count_eq_zero.mpr inside] at line
    have further := position.before_advance filled
    unfold Position.Before at further
    dsimp only
    omega

/-- No token stands before the place where a text begins. -/
theorem behind : ∀ token ∈ tokens, ¬ token.location.start.Before position := by
  induction covers with
  | done => simp
  | @filler position filler rest tokens gap _ ih =>
    intro token member back
    have filled : filler ≠ [] := by
      cases gap <;> simp
    exact ih token member (back.trans (position.before_advance filled))
  | @token position lexeme rest token tokens filled _ _ _ ih =>
    intro other member back
    rcases List.mem_cons.mp member with rfl | later
    · exact back.asymm back
    · exact ih other later (back.trans (position.before_advance filled))

theorem ordered :
    tokens.Pairwise fun first second => ¬ second.location.start.Before first.location.stop := by
  induction covers with
  | done => exact .nil
  | filler _ _ ih => exact ih
  | token _ _ _ rest ih => exact .cons (fun other member => rest.behind other member) ih

end Covers

namespace Source

variable {source : Source} {tokens : List (Located Token)}

/-- A text without errors is lexed into its tokens alone. -/
theorem lex_of_tokens (lexed : source.tokens = .ok tokens) : source.lex = tokens.map .ok := by
  simp only [Source.tokens] at lexed
  split at lexed
  · rename_i clean
    cases lexed
    rw [List.isEmpty_iff, List.filterMap_eq_nil_iff] at clean
    -- Leaving out errors leaves nothing out.
    generalize source.lex = items at clean
    induction items with
    | nil => rfl
    | cons item items ih =>
      obtain ⟨here, later⟩ := List.forall_mem_cons.mp clean
      cases item with
      | error error => cases here
      | ok token => exact congrArg (Except.ok token :: ·) (ih later)
  · cases lexed

/-- Tokens start one behind the other. -/
theorem tokens_ordered (lexed : source.tokens = .ok tokens) :
    tokens.Pairwise fun first second => first.location.start.Before second.location.start := by
  have covers : Covers .first source.chars tokens :=
    lexFrom_covers (chars_endsLine source) (lex_of_tokens lexed)
  refine covers.ordered.imp_of_mem fun {first second} member _ later => ?_
  have := covers.inLine first member
  unfold Position.Before at later ⊢
  omega

/--
Tokens cover their text exactly.

What is no lexeme is blank or belongs to a comment. Each token stands where its lexeme does, in one
line of the text, behind the tokens before it, and shares no place with any other one.
-/
theorem tokens_cover (lexed : source.tokens = .ok tokens) :
    Covers .first source.chars tokens ∧
    (∀ token ∈ tokens, token.location.start.line = token.location.stop.line ∧
      token.location.start.column < token.location.stop.column) ∧
    tokens.Pairwise fun first second => first.location.start.Before second.location.start ∧
      ∀ position, ¬ (first.location.Holds position ∧ second.location.Holds position) := by
  have covers : Covers .first source.chars tokens :=
    lexFrom_covers (chars_endsLine source) (lex_of_tokens lexed)
  refine ⟨covers, covers.inLine, (tokens_ordered lexed).imp₂ (fun _ _ => And.intro) ?_⟩
  refine covers.ordered.imp fun later position => ?_
  rintro ⟨⟨-, high⟩, ⟨low, -⟩⟩
  unfold Position.Before at later high low
  omega

end Source

/-- A name, a number and a string with a tab in it, with comments between them. -/
def Source.remarked : Source :=
  .ofText "remarked" "a/*\n*/0x1f//\n\t\"\t\""

/-- The tokens between the comments are covered; the tab inside of the string takes its columns. -/
theorem Source.remarked_covered : ∃ tokens, remarked.tokens = .ok tokens ∧
    tokens.map Located.location =
      [⟨⟨1, 1⟩, ⟨1, 2⟩⟩, ⟨⟨2, 3⟩, ⟨2, 7⟩⟩, ⟨⟨3, 5⟩, ⟨3, 10⟩⟩] ∧
    Covers .first remarked.chars tokens := by
  have lexed : remarked.tokens = .ok [⟨.id "a", ⟨⟨1, 1⟩, ⟨1, 2⟩⟩⟩, ⟨.int 31, ⟨⟨2, 3⟩, ⟨2, 7⟩⟩⟩,
      ⟨.str "\t", ⟨⟨3, 5⟩, ⟨3, 10⟩⟩⟩] := by
    decide +kernel
  exact ⟨_, lexed, rfl, (tokens_cover lexed).1⟩

end Coro
