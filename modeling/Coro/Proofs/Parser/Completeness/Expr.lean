import Coro.Proofs.Parser.Bare
import Coro.Proofs.Parser.Contract
import Coro.Proofs.Parser.Grammar

/-!
All tokens that spell an expression are read as it, up to places.

A reader stops where the tokens of its tree end, so what comes next must not go on with them: behind
an expression stands no operator, parenthesis or bracket.
-/

namespace Coro.Parser

open Ast

variable {expr : Ast.Expr} {rest tokens : List Token} {budget level : Nat}

variable {α β : Type}

/-- A reader gives a value that is right, and leaves the given rest. -/
def Gives (parser : Parser α) (before : List Token) (right : α → Prop) (rest : List Token) : Prop :=
  Reads False parser before fun value after => right value ∧ after = rest

theorem Gives.bind {parser : Parser α} {next : α → Parser β} {before : List Token}
    {right : α → Prop} {final : β → List Token → Prop} (gives : Gives parser before right rest)
    (others : ∀ value, right value → Reads False (next value) rest final) :
    Reads False (parser >>= next) before final := by
  refine Reads.bind gives ?_
  rintro value _ ⟨holds, rfl⟩
  exact others value holds

/-- A budget for one or more is not used up. -/
theorem spare {first : α} {others : List α} (fits : (first :: others).length ≤ budget) :
    ∃ less, budget = less + 1 :=
  Nat.exists_eq_add_one_of_ne_zero (by simp at fits; omega)

/-- A reader that leaves no token succeeds on all of them. -/
theorem Gives.run {parser : Parser α} {right : α → Prop} {tokens : List (Located Token)}
    (gives : Gives parser (tokens.map Located.value) right []) (start : Location) :
    ∃ value last, parser.run ⟨tokens, start⟩ = .ok (value, ⟨[], last⟩) ∧ right value := by
  -- The contract allows no error.
  have reads := gives ⟨tokens, start⟩ rfl
  cases outcome : parser.run ⟨tokens, start⟩ with
  | error failure => simp only [outcome] at reads
  | ok result =>
    obtain ⟨value, after, last⟩ := result
    simp only [outcome, Cursor.ahead, List.map_eq_nil_iff] at reads
    obtain ⟨-, holds, rfl⟩ := reads
    exact ⟨value, last, rfl, holds⟩

/-! ## Lists -/

/-- Every piece of a list is read where a comma or the end of the list stands behind it. -/
def PiecesRead (item : Parser α) (bare : α → α) (close : Token) (limit : Nat)
    (pieces : List (α × List Token)) : Prop :=
  ∀ piece ∈ pieces, (∃ token others, piece.2 = token :: others ∧ token ≠ close) ∧
    ∀ token rest, token = .punct .comma ∨ token = close →
      (piece.2 ++ token :: rest).length ≤ limit →
      Gives item (piece.2 ++ token :: rest) (fun value => bare value = bare piece.1) (token :: rest)

section Lists

variable {item : Parser α} {bare : α → α} {close : Token} {limit : Nat}
  {pieces : List (α × List Token)}

variable (differ : close ≠ .punct .comma)

include differ

/-- The entries of a list are read one by one, with the commas between them. -/
theorem separatedTail_gives (filled : pieces ≠ []) (reads : PiecesRead item bare close limit pieces)
    (short : (commas (pieces.map Prod.snd) ++ close :: rest).length ≤ limit)
    (fits : (commas (pieces.map Prod.snd) ++ close :: rest).length ≤ budget) :
    Gives (separatedTail item close budget) (commas (pieces.map Prod.snd) ++ close :: rest)
      (fun values => values.map bare = (pieces.map Prod.fst).map bare) rest := by
  -- By induction on the entries, each of which takes a token of the budget.
  induction pieces generalizing budget with
  | nil => contradiction
  | cons piece pieces ih =>
    obtain ⟨budget, rfl⟩ := Nat.exists_eq_add_one_of_ne_zero (n := budget) (by simp at fits; omega)
    obtain ⟨⟨_, first⟩, others⟩ := List.forall_mem_cons.mp reads
    rw [Gives, separatedTail]
    by_cases more : pieces = []
    · -- The last entry stands before the end of the list.
      subst more
      simp only [List.map_cons, List.map_nil, commas_singleton] at short ⊢
      refine (first close rest (.inr rfl) short).bind fun value same => ?_
      refine .taken fun place => ?_
      rw [if_neg differ, if_pos rfl]
      exact .pure ⟨by simpa using same, rfl⟩
    · have follow : pieces.map Prod.snd ≠ [] := by simpa using more
      simp only [List.map_cons, commas_cons follow, List.append_assoc, List.cons_append]
        at short fits ⊢
      refine (first (.punct .comma) _ (.inl rfl) short).bind fun value same => ?_
      refine .taken fun place => ?_
      rw [if_pos rfl]
      refine (ih more others (by simp at short ⊢; omega) (by simp at fits ⊢; omega)).bind
        fun values same' => ?_
      exact .pure ⟨by simpa using ⟨same, by simpa using same'⟩, rfl⟩

/-- A list is read through the token that closes it. -/
theorem separated_gives (reads : PiecesRead item bare close limit pieces)
    (short : (commas (pieces.map Prod.snd) ++ close :: rest).length ≤ limit)
    (fits : (commas (pieces.map Prod.snd) ++ close :: rest).length ≤ budget) :
    Gives (separated item close budget) (commas (pieces.map Prod.snd) ++ close :: rest)
      (fun values => values.map bare = (pieces.map Prod.fst).map bare) rest := by
  -- Whether there is an entry shows in the first token.
  rw [Gives, separated]
  refine .peek ?_ (.inr (by simp))
  intro token others same
  by_cases filled : pieces = []
  · subst filled
    obtain ⟨rfl, rfl⟩ : close = token ∧ rest = others := by simpa using same
    rw [if_pos rfl]
    refine .taken fun place => ?_
    exact .pure ⟨rfl, rfl⟩
  · -- The first entry starts with another token than the one that closes the list.
    have other : token ≠ close := by
      obtain ⟨piece, pieces, rfl⟩ := List.exists_cons_of_ne_nil filled
      obtain ⟨first, tokens, begins, differs⟩ := (reads piece (by simp)).1
      obtain ⟨tail, whole⟩ := exists_commas_cons piece.2 (pieces.map Prod.snd)
      rw [List.map_cons, whole, begins] at same
      exact (List.cons.inj same).1 ▸ differs
    rw [if_neg other]
    exact separatedTail_gives differ filled reads short fits

theorem separated_gives_map {spell : α → List Token} {values : List α}
    (reads : PiecesRead item bare close limit (values.map fun value => (value, spell value)))
    (short : (commas (values.map spell) ++ close :: rest).length ≤ limit)
    (fits : (commas (values.map spell) ++ close :: rest).length ≤ budget) :
    Gives (separated item close budget) (commas (values.map spell) ++ close :: rest)
      (fun found => found.map bare = values.map bare) rest := by
  -- Every entry is paired with its spelling, and the pairs are taken apart again.
  have tokens : (values.map fun value => (value, spell value)).map Prod.snd = values.map spell := by
    simp
  have entries : (values.map fun value => (value, spell value)).map Prod.fst = values := by
    simp [Function.comp_def]
  rw [← tokens] at short fits ⊢
  have gives := separated_gives differ reads short fits
  rwa [entries] at gives

end Lists

/-! ## Expressions -/

/-- What comes next neither calls nor indexes a name before it. -/
def Apart (rest : List Token) : Prop :=
  rest.head? ≠ some (.punct .openParen) ∧ rest.head? ≠ some (.punct .openSquare)

/-- What comes next does not go on with an expression. -/
def Ends (rest : List Token) : Prop :=
  Apart rest ∧ bindingAhead rest = 0

theorem ends_mark {mark : Punct}
    (closing : mark ∈ [.comma, .semicolon, .closeParen, .closeSquare, .openCurly])
    (rest : List Token) : Ends (.punct mark :: rest) := by
  simp only [List.mem_cons, List.not_mem_nil, or_false] at closing
  rcases closing with rfl | rfl | rfl | rfl | rfl <;> exact ⟨⟨by simp, by simp⟩, rfl⟩

theorem ends_braced (tokens rest : List Token) : Ends (braced tokens ++ rest) :=
  ends_mark (by simp) _

theorem ends_likelihood (hint : Option Likelihood) (rest : List Token) :
    Ends (likelihoodTokens hint ++ .punct .semicolon :: rest) := by
  -- Both hints are words, which no operator starts with.
  cases hint with
  | none => exact ends_mark (by simp) rest
  | some hint =>
    cases hint <;> exact ⟨⟨by simp [likelihoodTokens], by simp [likelihoodTokens]⟩, rfl⟩

/-- An operand is read where nothing calls or indexes it. -/
def OperandReads (expr : Ast.Expr) (tokens : List Token) : Prop :=
  ∀ budget rest, Apart rest → (tokens ++ rest).length ≤ budget →
    Gives (operand budget) (tokens ++ rest) (fun found => found.bare = expr.bare) rest

/--
An expression of some level is read as a left operand, ahead of whatever extends it.

What comes next binds no more tightly than the expression, so its operators keep their operands.
-/
def ClimbReads (level : Nat) (expr : Ast.Expr) (tokens : List Token) : Prop :=
  ∀ (least budget : Nat) (rest : List Token) (final : Ast.Expr → List Token → Prop),
    least ≤ level → bindingAhead rest ≤ level → Apart rest → (tokens ++ rest).length ≤ budget →
    (∀ (left : Ast.Expr) (less : Nat), left.bare = expr.bare → rest.length ≤ less →
      Reads False (climb less least left) rest final) →
    Reads False (do climb budget least (← operand budget)) (tokens ++ rest) final

/-- An operand is an expression of every level. -/
theorem OperandReads.climb (reads : OperandReads expr tokens) (level : Nat) :
    ClimbReads level expr tokens := by
  -- The operand is read first, and then whatever extends it.
  intro least budget rest final _ _ apart short extend
  refine (reads budget rest apart short).bind fun left same => ?_
  exact extend left budget same (by simp at short; omega)

/-- Nothing extends an operand where no operator binds tightly enough. -/
theorem climb_stops {least : Nat} (stops : bindingAhead rest < least) (budget : Nat)
    (left : Ast.Expr) : Gives (climb budget least left) rest (fun found => found = left) rest := by
  -- Without a budget, an operator or a tight one the operand is left as it is.
  cases budget with
  | zero => exact .pure ⟨rfl, rfl⟩
  | succ budget =>
    rw [Gives, climb]
    refine .peek? ?_
    cases ahead : rest.head?.bind BinaryOp.ofToken? with
    | none => exact .pure ⟨rfl, rfl⟩
    | some op =>
      have weak : op.precedence < least := by simpa [bindingAhead, ahead] using stops
      simp only [if_pos weak]
      exact .pure ⟨rfl, rfl⟩

/-- A whole expression is read where nothing goes on with it. -/
theorem ClimbReads.whole (reads : ClimbReads 1 expr tokens) (ends : Ends rest)
    (short : (tokens ++ rest).length ≤ budget) :
    Gives (expression budget) (tokens ++ rest) (fun found => found.bare = expr.bare) rest := by
  -- Nothing binds at all, so the left operand is the whole expression.
  obtain ⟨apart, none⟩ := ends
  refine reads 1 budget rest _ (Nat.le_refl 1) (by omega) apart short fun left less same _ => ?_
  refine (climb_stops (by omega) less left).weaken ?_
  rintro _ _ ⟨rfl, rfl⟩
  exact ⟨same, rfl⟩

/-- What is read from its first token on is an operand, and so an expression of every level. -/
theorem operand_reads {token : Token} {others : List Token}
    (reads : ∀ budget rest, Apart rest → (others ++ rest).length ≤ budget →
      Gives (operand (budget + 1)) (token :: (others ++ rest)) (fun found => found.bare =
      expr.bare) rest) :
    (level = operandLevel → OperandReads expr (token :: others)) ∧
      ClimbReads level expr (token :: others) := by
  have operand : OperandReads expr (token :: others) := by
    intro budget rest apart short
    obtain ⟨budget, rfl⟩ := spare short
    exact reads budget rest apart (by simpa using short)
  exact ⟨fun _ => operand, operand.climb level⟩

/-- Arguments are read as whole expressions, ended by a comma or the parenthesis. -/
theorem arguments_read {pieces : List (Ast.Expr × List Token)} (budget : Nat)
    (spelled : ∀ piece ∈ pieces, piece.1.Spelled 1 piece.2)
    (reads : ∀ piece ∈ pieces, ClimbReads 1 piece.1 piece.2) :
    PiecesRead (expression budget) Ast.Expr.bare (.punct .closeParen) budget pieces := by
  -- No expression starts with the parenthesis that would end the list.
  refine fun piece member => ⟨?_, ?_⟩
  · obtain ⟨token, others, begins, other, -⟩ := (spelled piece member).opens
    exact ⟨token, others, begins, other⟩
  · rintro token rest (rfl | rfl) fits
    · exact (reads piece member).whole (ends_mark (by simp) rest) fits
    · exact (reads piece member).whole (ends_mark (by simp) rest) fits

/-- An expression that is spelled is read, as an operand if it is one. -/
theorem spelled_reads (spelled : expr.Spelled level tokens) :
    (level = operandLevel → OperandReads expr tokens) ∧ ClimbReads level expr tokens := by
  -- By induction on the spelling, where only an operator gives what is no operand.
  induction spelled with
  | int | yes | no | char =>
    refine operand_reads fun budget rest apart short => ?_
    rw [Gives, operand]
    refine .peeked ?_
    refine .taken fun place => ?_
    exact .pure ⟨rfl, rfl⟩
  | name =>
    refine operand_reads fun budget rest apart short => ?_
    rw [Gives, operand]
    refine .peeked ?_
    refine .named fun place => ?_
    -- Neither arguments nor an index stand behind the name.
    refine .sees ?_
    rw [if_neg (by simpa using apart.1)]
    refine .sees ?_
    rw [if_neg (by simpa using apart.2)]
    exact .pure ⟨rfl, rfl⟩
  | element inner ih =>
    refine operand_reads fun budget rest apart short => ?_
    simp only [bracketed, List.cons_append, List.append_assoc, List.nil_append] at short ⊢
    rw [Gives, operand]
    refine .peeked ?_
    refine .named fun place => ?_
    refine .sees ?_
    rw [if_neg (by simp)]
    refine .sees ?_
    rw [if_pos (by simp)]
    refine .marked ?_
    rw [← bind_assoc]
    refine (ih.2.whole (ends_mark (by simp) rest) (by simp at short ⊢; omega)).bind
      fun index same => ?_
    refine .marked ?_
    exact .spanFrom fun place => .pure ⟨by simp [Ast.Expr.bare, Located.bare, same], rfl⟩
  | call inner ih =>
    refine operand_reads fun budget rest apart short => ?_
    simp only [parenthesized, List.cons_append, List.append_assoc, List.nil_append] at short ⊢
    rw [Gives, operand]
    refine .peeked ?_
    refine .named fun place => ?_
    refine .sees ?_
    rw [if_pos (by simp)]
    refine .marked ?_
    -- The arguments are whole expressions again, whatever the level of the call.
    have reads := arguments_read budget inner fun piece member => (ih piece member).2
    refine (separated_gives (by simp) reads (by simp at short ⊢; omega)
      (by simp at short ⊢; omega)).bind fun args same => ?_
    exact .spanFrom fun place => .pure ⟨by simpa [Ast.Expr.bare, Located.bare] using same, rfl⟩
  | unary inner ih =>
    refine operand_reads fun budget rest apart short => ?_
    rw [Gives, operand]
    refine .peeked ?_
    rw [UnaryOp.ofToken?_eq_some.mpr rfl]
    refine .taken fun place => ?_
    refine (ih.1 rfl budget rest apart short).bind fun operand same => ?_
    exact .pure ⟨by simp [Ast.Expr.bare, same], rfl⟩
  | grouped inner ih =>
    rw [parenthesized, List.cons_append]
    refine operand_reads fun budget rest apart short => ?_
    simp only [List.append_assoc, List.cons_append, List.nil_append] at short ⊢
    rw [Gives, operand]
    refine .peeked ?_
    refine .marked ?_
    rw [← bind_assoc]
    refine (ih.2.whole (ends_mark (by simp) rest) (by simp at short ⊢; omega)).bind
      fun inner same => ?_
    refine .marked ?_
    exact .pure ⟨same, rfl⟩
  | @binary level op left right location first second binds before behind ihLeft ihRight =>
    -- No operator binds as tightly as an operand does.
    have tight : op.precedence < operandLevel := by cases op <;> decide
    refine ⟨fun same => absurd same (by omega), ?_⟩
    intro least budget rest final below ahead apart short extend
    have here : bindingAhead (op.token :: (second ++ rest)) = op.precedence := by
      simp [bindingAhead, BinaryOp.ofToken?_eq_some.mpr rfl]
    simp only [List.append_assoc, List.cons_append] at short ⊢
    -- The left operand is extended by this operator, and the whole by what comes next.
    refine ihLeft.2 least budget (op.token :: (second ++ rest)) final (by omega) (by omega)
      (by cases op <;> exact ⟨by simp [BinaryOp.token], by simp [BinaryOp.token]⟩) short
      fun found less same fits => ?_
    obtain ⟨less, rfl⟩ := spare fits
    have fewer : (second ++ rest).length ≤ less := by simpa using fits
    rw [climb]
    refine .peek? ?_
    simp only [List.head?_cons, Option.bind_some, BinaryOp.ofToken?_eq_some.mpr rfl]
    rw [if_neg (by omega)]
    refine .taken fun place => ?_
    rw [← bind_assoc]
    -- The right operand ends where it does: what comes next binds less tightly than it.
    have reads : Gives (do climb less (op.precedence + 1) (← operand less)) (second ++ rest)
        (fun found => found.bare = right.bare) rest := by
      refine ihRight.2 _ less rest _ (Nat.le_refl _) (by omega) apart fewer
        fun found smaller same _ => ?_
      refine (climb_stops (by omega) smaller found).weaken ?_
      rintro _ _ ⟨rfl, rfl⟩
      exact ⟨same, rfl⟩
    refine reads.bind fun right' same' => ?_
    exact extend _ less (by simp [Ast.Expr.bare, same, same']) (by simp at fewer; omega)

theorem expression_gives (spelled : expr.Spelled 1 tokens) (ends : Ends rest)
    (short : (tokens ++ rest).length ≤ budget) :
    Gives (expression budget) (tokens ++ rest) (fun found => found.bare = expr.bare) rest :=
  (spelled_reads spelled).2.whole ends short

/-- What is assigned to is read where the mark of an assignment follows. -/
theorem target_gives {target : Ast.Target} {sign : Punct} (spelled : target.Spelled tokens)
    (other : sign ≠ .openSquare) (short : (tokens ++ .punct sign :: rest).length ≤ budget) :
    Gives (Parser.target budget) (tokens ++ .punct sign :: rest)
      (fun found => found.bare = target.bare) (.punct sign :: rest) := by
  -- A bracket behind the name tells an element from a variable.
  rw [Gives, Parser.target]
  cases spelled with
  | name =>
    refine .named fun place => ?_
    refine .sees ?_
    rw [if_neg (by simpa using other)]
    exact .pure ⟨rfl, rfl⟩
  | element inner =>
    simp only [bracketed, List.cons_append, List.append_assoc, List.nil_append] at short ⊢
    refine .named fun place => ?_
    refine .sees ?_
    rw [if_pos (by simp)]
    refine .marked ?_
    refine (expression_gives inner (ends_mark (by simp) _) (by simp at short ⊢; omega)).bind
      fun index same => ?_
    refine .marked ?_
    exact .spanFrom fun place => .pure ⟨by simp [Ast.Target.bare, Located.bare, same], rfl⟩

end Coro.Parser
