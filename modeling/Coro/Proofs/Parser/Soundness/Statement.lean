import Coro.Proofs.Parser.Soundness.Expr

/-! Only tokens that spell a statement are read as it. -/

namespace Coro.Parser

open Ast

variable (budget : Nat) (before : List Token)

/-! ## Parts of statements -/

/-- The length of an array is spelled by what is read as it. -/
theorem length_takes : Takes length before fun length tokens => tokens = lengthTokens length := by
  -- A bracket tells that a length follows, and nothing but a number can stand in it.
  rw [Takes, length]
  refine .peek ?_ free
  rintro token others rfl
  split
  case isTrue =>
    refine .mark ?_ free
    rintro others ⟨⟩
    refine .next ?_ free
    rintro token place others rfl
    cases token with
    | int value =>
      refine .mark ?_ free
      rintro after rfl
      exact .pure ⟨_, by simp [lengthTokens, bracketed], rfl⟩
    | _ => exact .fail trivial _
  case isFalse => exact .pure ⟨[], rfl, rfl⟩

/-- So is an initial value. -/
theorem initializer_takes (short : before.length ≤ budget) :
    Takes (initializer budget) before (Value.Spelled [.punct .assign]) := by
  -- The mark of an assignment tells that a value follows.
  rw [Takes, initializer]
  refine .peek ?_ free
  rintro token others rfl
  split
  case isTrue =>
    refine .mark ?_ free
    rintro others ⟨⟩
    refine (expression_takes budget others (by simp at short; omega)).bind ?_
    rintro value after ⟨taken, rfl, spelled⟩
    exact .pure ⟨.punct .assign :: taken, rfl, .some spelled⟩
  case isFalse => exact .pure ⟨[], rfl, .none⟩

/-- So is the hint behind a condition. -/
theorem likelihood_takes :
    Takes likelihood before fun hint tokens => tokens = likelihoodTokens hint := by
  -- Two words are hints; any other token belongs to what comes next.
  rw [Takes, likelihood]
  refine .peek ?_ free
  rintro token others rfl
  split
  case h_1 | h_2 =>
    refine .next ?_ free
    rintro _ place _ ⟨⟩
    exact .pure ⟨[_], rfl, rfl⟩
  case h_3 => exact .pure ⟨[], rfl, rfl⟩

/-- So are arguments that may be left out. -/
theorem arguments_take (short : before.length ≤ budget) :
    Takes (optionalList (expression budget) budget) before Arguments.Spelled := by
  -- A parenthesis tells that a list follows, which may have no entry.
  rw [Takes, optionalList]
  refine .peek ?_ free
  rintro token others rfl
  split
  case isTrue =>
    refine .mark ?_ free
    rintro others ⟨⟩
    refine (separated_takes (expression_takes budget) _ budget others
      (by simp at short; omega)).weaken ?_
    rintro args after ⟨pieces, rfl, rfl, all⟩
    exact ⟨parenthesized (commas (pieces.map Prod.snd)), by simp [parenthesized], .some all⟩
  case isFalse => exact .pure ⟨[], rfl, .none⟩

/-- So is an assignment. -/
theorem assignment_takes (short : before.length ≤ budget) :
    Takes (assignment budget) before (Statement.Spelled true) := by
  -- The place comes first, and the mark behind it says what is assigned.
  rw [Takes, assignment]
  refine (target_takes budget before short).bind ?_
  rintro target _ ⟨first, rfl, place⟩
  refine .next ?_ free
  rintro sign _ others rfl
  split
  case h_1 => exact .fail trivial _
  case h_2 op found =>
    -- The operator has just one mark, so the mark that was read is its own.
    obtain ⟨sign, marked, same⟩ := assignOp?_eq_some.mp found
    simp only at same
    subst same
    refine (expression_takes budget others (by simp at short; omega)).bind ?_
    rintro value _ ⟨second, rfl, given⟩
    refine .mark ?_ free
    rintro after rfl
    exact .pure ⟨_, by simp, .assign place marked given⟩

/-- Where a name stands before a parenthesis, what is taken up to a semicolon begins with both. -/
theorem begins_of_second {name : String} {others taken after : List Token}
    (same : .id name :: others = taken ++ .punct .semicolon :: after)
    (second : ((.id name :: others)[1]? == some (Token.punct .openParen)) = true) :
    ∃ rest, taken = .id name :: .punct .openParen :: rest := by
  -- What is taken has at least one token, the name itself.
  cases taken with
  | nil => cases same
  | cons token taken =>
    obtain ⟨rfl, rfl⟩ := List.cons.inj same
    -- The token behind the name is a parenthesis, so it is not the semicolon.
    cases taken with
    | nil => simp at second
    | cons token rest =>
      have paren : token = .punct .openParen := by simpa using second
      exact ⟨rest, by rw [paren]⟩

/-! ## Blocks and statements -/

/-- What a block or the rest of one takes spells its statements, through the closing brace. -/
def BlockTakes (parser : Parser (List Statement)) (lead : List Token) (before : List Token) :
    Prop :=
  Reads True parser before fun statements after =>
    ∃ pieces : List (Statement × List Token), statements = pieces.map Prod.fst ∧
      before = lead ++ pieces.flatMap Prod.snd ++ .punct .closeCurly :: after ∧
      ∀ piece ∈ pieces, piece.1.Spelled true piece.2

/--
A statement is spelled by what is read as it, given that its blocks are.

A block starts behind the first token of the statement, and so does what follows an `if`.
-/
theorem statementWith_takes {block : Parser (List Statement)} {conditional : Parser Statement}
    {budget : Nat}
    (blocks : ∀ before, before.length ≤ budget → BlockTakes block [.punct .openCurly] before)
    (choices : ∀ before, before.length ≤ budget → Takes conditional before fun statement tokens =>
      statement.Spelled true (.keyword .ifCondition :: tokens))
    (before : List Token) (short : before.length ≤ budget + 1) :
    Takes (statementWith (budget + 1) block conditional) before (Statement.Spelled true) := by
  rw [Takes, statementWith]
  refine .peek ?_ free
  rintro token others rfl
  have fewer : others.length ≤ budget := by simpa using short
  -- The cases are the tokens that a statement can start with.
  split
  case h_1 =>
    refine .next ?_ free
    rintro _ _ _ ⟨⟩
    refine .type ?_ free
    rintro type _ others rfl
    refine .identifier ?_ free
    rintro name _ others rfl
    -- Both the length and the value may be left out.
    refine (length_takes others).bind ?_
    rintro length _ ⟨_, rfl, rfl⟩
    refine (initializer_takes (budget + 1) _ (by simp at fewer; omega)).bind ?_
    rintro value _ ⟨tokens, rfl, given⟩
    refine .mark ?_ free
    rintro after rfl
    exact .pure ⟨_, by simp, .letVar given⟩
  case h_2 =>
    refine .next ?_ free
    rintro _ _ _ ⟨⟩
    refine .mark ?_ free
    rintro after rfl
    exact .pure ⟨[_, _], rfl, .yield⟩
  case h_3 =>
    refine .next ?_ free
    rintro _ _ _ ⟨⟩
    refine (expression_takes (budget + 1) others (by omega)).bind ?_
    rintro condition _ ⟨tokens, rfl, tested⟩
    refine (likelihood_takes _).bind ?_
    rintro hint _ ⟨_, rfl, rfl⟩
    refine .mark ?_ free
    rintro after rfl
    exact .pure ⟨_, by simp, .waitUntil tested⟩
  case h_4 =>
    refine .next ?_ free
    rintro _ _ _ ⟨⟩
    refine .identifier ?_ free
    rintro name _ others rfl
    refine (arguments_take (budget + 1) others (by simp at fewer; omega)).bind ?_
    rintro args _ ⟨tokens, rfl, given⟩
    refine .mark ?_ free
    rintro after rfl
    exact .pure ⟨_, by simp, .call given⟩
  case h_5 =>
    -- What follows the first word of a conditional is read on its own.
    refine .next ?_ free
    rintro _ _ _ ⟨⟩
    refine (choices others fewer).weaken ?_
    rintro statement after ⟨tokens, rfl, spelled⟩
    exact ⟨_, rfl, spelled⟩
  case h_6 =>
    refine .next ?_ free
    rintro _ _ _ ⟨⟩
    refine (expression_takes (budget + 1) others (by omega)).bind ?_
    rintro condition _ ⟨tokens, rfl, tested⟩
    refine (blocks _ (by simp at fewer; omega)).bind ?_
    rintro _ after ⟨pieces, rfl, rfl, all⟩
    exact .pure ⟨_, by simp [braced], .whileLoop tested all⟩
  case h_7 =>
    refine .next ?_ free
    rintro _ _ _ ⟨⟩
    refine (blocks _ fewer).bind ?_
    rintro _ after ⟨pieces, rfl, rfl, all⟩
    exact .pure ⟨_, by simp [braced], .loop all⟩
  case h_8 =>
    refine .next ?_ free
    rintro _ _ _ ⟨⟩
    refine .mark ?_ free
    rintro after rfl
    exact .pure ⟨[_, _], rfl, .breakLoop⟩
  case h_9 =>
    refine .next ?_ free
    rintro _ _ _ ⟨⟩
    refine .mark ?_ free
    rintro after rfl
    exact .pure ⟨[_, _], rfl, .continueLoop⟩
  case h_10 =>
    refine .next ?_ free
    rintro _ place _ ⟨⟩
    -- With or without a value, the statement ends in the same way.
    have ending : ∀ value tokens after, Value.Spelled [] value tokens → others = tokens ++ after →
        Reads True (do mark .semicolon; return Statement.returnFrom value place) after
          fun statement left => ∃ taken, .keyword .returnFrom :: others = taken ++ left ∧
            statement.Spelled true taken := by
      rintro value tokens _ given rfl
      refine .mark ?_ free
      rintro after rfl
      exact .pure ⟨_, by simp, .returnFrom given⟩
    refine .peek ?_ free
    rintro token more _
    split
    case isTrue => exact ending none [] others .none rfl
    case isFalse =>
      refine .bind (?_ : Reads True (some <$> expression (budget + 1)) others fun value after =>
        ∃ taken, others = taken ++ after ∧ Value.Spelled [] value taken) ?_
      · refine .map ((expression_takes (budget + 1) others (by omega)).weaken ?_)
        rintro value after ⟨taken, same, spelled⟩
        exact ⟨taken, same, .some spelled⟩
      · rintro value after ⟨taken, same, given⟩
        exact ending value taken after given same
  case h_11 name =>
    refine .seesSecond ?_
    -- A parenthesis behind the name tells a call from an assignment.
    split
    case isTrue second =>
      refine (expression_takes (budget + 1) _ short).bind ?_
      rintro expr _ ⟨taken, same, spelled⟩
      refine .mark ?_ free
      rintro after rfl
      obtain ⟨rest, rfl⟩ := begins_of_second same second
      exact .pure ⟨_, by simp [same], .eval spelled (.inl rfl)⟩
    case isFalse => exact assignment_takes (budget + 1) _ short
  case h_12 =>
    -- Any other token is taken, only to say that it starts no statement.
    refine .next ?_ free
    rintro _ _ _ _
    exact .fail trivial _

/-- A block is spelled by its statements between braces. -/
theorem block_takes {budget : Nat}
    (rests : ∀ before, before.length ≤ budget → BlockTakes (statements budget) [] before)
    (before : List Token) (short : before.length ≤ budget) :
    BlockTakes (block budget) [.punct .openCurly] before := by
  -- Behind the opening brace, a block is the rest of one.
  rw [BlockTakes, block]
  refine .mark ?_ free
  rintro others rfl
  refine (rests others (by simp at short; omega)).weaken ?_
  rintro _ after ⟨pieces, rfl, rfl, all⟩
  exact ⟨pieces, rfl, rfl, all⟩

/-- Statements and what follows an `if`, by induction on the tokens to come. -/
theorem statements_conditional_take (budget : Nat) :
    (∀ before, before.length ≤ budget → BlockTakes (statements budget) [] before) ∧
      ∀ before, before.length ≤ budget → Takes (conditional budget) before fun statement tokens =>
        statement.Spelled true (.keyword .ifCondition :: tokens) := by
  induction budget with
  | zero => exact ⟨fun _ _ => .fail trivial _, fun _ _ => .fail trivial _⟩
  | succ budget ih =>
    obtain ⟨rests, choices⟩ := ih
    constructor
    · intro before short
      rw [BlockTakes, statements]
      refine .peek ?_ free
      rintro token others rfl
      split
      case isTrue closed =>
        subst closed
        refine .mark ?_ free
        rintro _ ⟨⟩
        exact .pure ⟨[], rfl, rfl, by simp⟩
      case isFalse =>
        refine (statementWith_takes (block_takes rests) choices _ short).bind ?_
        rintro first behind ⟨taken, same, spelled⟩
        rw [same] at short ⊢
        -- The statement has taken a token, so the budget is enough for those behind it.
        have some := List.length_pos_iff.mpr spelled.ne_nil
        refine (rests behind (by simp at short; omega)).bind ?_
        rintro _ after ⟨pieces, rfl, rfl, all⟩
        exact .pure ⟨(first, taken) :: pieces, rfl, by simp,
          List.forall_mem_cons.mpr ⟨spelled, all⟩⟩
    · intro before short
      rw [Takes, conditional]
      refine (expression_takes (budget + 1) before short).bind ?_
      rintro condition _ ⟨tokens, rfl, tested⟩
      refine .mark ?_ free
      rintro others rfl
      refine (rests others (by simp at short; omega)).bind ?_
      rintro _ behind ⟨pieces, rfl, rfl, inner⟩
      -- The other branch is a block, a conditional without braces, or missing.
      refine .sees ?_
      split
      case isTrue found =>
        obtain ⟨others, rfl⟩ := List.head?_eq_some_iff.mp (beq_iff_eq.mp found)
        refine .next ?_ free
        rintro _ _ _ ⟨⟩
        refine .peek ?_ free
        rintro token others rfl
        split
        case isTrue chain =>
          subst chain
          refine .next ?_ free
          rintro _ _ _ ⟨⟩
          refine (choices others (by simp at short; omega)).bind ?_
          rintro nested after ⟨rest, rfl, chained⟩
          exact .pure ⟨_, by simp [braced], .elseIf tested inner chained⟩
        case isFalse =>
          refine .mark ?_ free
          rintro _ ⟨⟩
          refine (rests others (by simp at short; omega)).bind ?_
          rintro _ after ⟨more, rfl, rfl, outer⟩
          exact .pure ⟨_, by simp [braced], .ifElse tested inner outer⟩
      case isFalse => exact .pure ⟨_, by simp [braced], .ifThen tested inner⟩

/-- A statement is spelled by what is read as it. -/
theorem statement_takes (short : before.length ≤ budget + 1) :
    Takes (statement (budget + 1)) before (Statement.Spelled true) := by
  -- Blocks and conditionals have been seen to be spelled by what is read as them.
  obtain ⟨rests, choices⟩ := statements_conditional_take (budget + 1)
  exact statementWith_takes (fun others fits => block_takes rests others (by omega))
    (fun others fits => choices others (by omega)) before short

end Coro.Parser
