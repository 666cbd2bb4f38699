import Coro.Proofs.Parser.Completeness.Expr

/-!
All tokens that spell a statement are read as it, up to places.

Behind a conditional no `else` may stand that does not belong to it.
-/

namespace Coro.Parser

open Ast

variable {rest tokens : List Token} {budget : Nat} {op : Option BinaryOp} {sign : Punct}
  {pieces : List (Statement × List Token)}

/-! ## Parts of statements -/

/-- The length of an array is read where no bracket follows. -/
theorem length_gives (length : Option (Located Nat)) (filled : rest ≠ [])
    (other : rest.head? ≠ some (.punct .openSquare)) :
    Gives Parser.length (lengthTokens length ++ rest)
      (fun found => found.map Located.bare = length.map Located.bare) rest := by
  -- A bracket tells that there is a length.
  rw [Gives, Parser.length]
  cases length with
  | none =>
    refine .peek ?_ (.inr filled)
    rintro token others same
    obtain rfl : rest = token :: others := same
    rw [if_neg (by simpa using other)]
    exact .pure ⟨rfl, rfl⟩
  | some length =>
    simp only [lengthTokens, bracketed, List.cons_append, List.nil_append]
    refine .peeked ?_
    rw [if_pos rfl]
    refine .marked ?_
    refine .taken fun place => ?_
    refine .marked ?_
    exact .pure ⟨rfl, rfl⟩

/-- An initial value is read where a semicolon follows. -/
theorem initializer_gives {value : Option Ast.Expr}
    (given : Value.Spelled [.punct .assign] value tokens)
    (short : (tokens ++ .punct .semicolon :: rest).length ≤ budget) :
    Gives (initializer budget) (tokens ++ .punct .semicolon :: rest)
      (fun found => found.map Ast.Expr.bare = value.map Ast.Expr.bare)
      (.punct .semicolon :: rest) := by
  -- The mark of an assignment tells that there is a value.
  rw [Gives, initializer]
  cases given with
  | none =>
    refine .peeked ?_
    rw [if_neg (by simp)]
    exact .pure ⟨rfl, rfl⟩
  | some value =>
    refine .peeked ?_
    rw [if_pos rfl]
    refine .marked ?_
    refine (expression_gives value (ends_mark (by simp) rest) (by simp at short ⊢; omega)).bind
      fun found same => ?_
    exact .pure ⟨by simpa using same, rfl⟩

/-- The hint behind a condition is read where a semicolon follows. -/
theorem likelihood_gives (hint : Option Likelihood) (rest : List Token) :
    Gives likelihood (likelihoodTokens hint ++ .punct .semicolon :: rest)
      (fun found => found = hint) (.punct .semicolon :: rest) := by
  -- Without a hint the semicolon is seen, which is none of the two words.
  rw [Gives, likelihood]
  refine .peek ?_ (.inr (by simp))
  intro token others same
  cases hint with
  | none =>
    cases same
    exact .pure ⟨rfl, rfl⟩
  | some hint =>
    cases hint <;>
    · cases same
      refine .next ?_ (.inr (by simp [likelihoodTokens]))
      rintro _ place _ ⟨⟩
      exact .pure ⟨rfl, rfl⟩

/-- Arguments are read where a semicolon follows, whether or not they were left out. -/
theorem optionalArguments_give {args : List Ast.Expr} (given : Arguments.Spelled args tokens)
    (short : (tokens ++ .punct .semicolon :: rest).length ≤ budget) :
    Gives (optionalList (expression budget) budget) (tokens ++ .punct .semicolon :: rest)
      (fun found => found.map Ast.Expr.bare = args.map Ast.Expr.bare)
      (.punct .semicolon :: rest) := by
  -- A parenthesis tells that there is a list.
  rw [Gives, optionalList]
  cases given with
  | none =>
    refine .peeked ?_
    rw [if_neg (by simp)]
    exact .pure ⟨rfl, rfl⟩
  | some inner =>
    simp only [parenthesized, List.cons_append, List.append_assoc, List.nil_append] at short ⊢
    refine .peeked ?_
    rw [if_pos rfl]
    refine .marked ?_
    have reads := arguments_read budget inner fun piece member =>
      (spelled_reads (inner piece member)).2
    exact separated_gives (by simp) reads (by simp at short ⊢; omega) (by simp at short ⊢; omega)

theorem assignMark?_ne (marked : assignMark? op = some sign) :
    sign ≠ .openParen ∧ sign ≠ .openSquare := by
  unfold assignMark? at marked
  split at marked <;> cases marked <;> exact ⟨by simp, by simp⟩

/-- An assignment is read through its semicolon. -/
theorem assignment_gives {target : Ast.Target} {value : Ast.Expr} {first second : List Token}
    (place : target.Spelled first) (marked : assignMark? op = some sign)
    (given : value.Spelled 1 second)
    (short : (first ++ .punct sign :: (second ++ .punct .semicolon :: rest)).length ≤ budget) :
    Gives (assignment budget) (first ++ .punct sign :: (second ++ .punct .semicolon :: rest))
      (fun found => found.bare = (Statement.assign target op value).bare) rest := by
  -- The mark is none that a target could go on with.
  rw [Gives, assignment]
  refine (target_gives place (assignMark?_ne marked).2 short).bind fun target same => ?_
  refine .taken fun _ => ?_
  rw [assignOp?_eq_some.mpr ⟨sign, marked, rfl⟩]
  refine (expression_gives given (ends_mark (by simp) rest) (by simp at short ⊢; omega)).bind
    fun value same' => ?_
  refine .marked ?_
  exact .pure ⟨by simp [Statement.bare, same, same'], rfl⟩

/-! ## Blocks -/

/-- No other branch follows. -/
def NoElse (rest : List Token) : Prop :=
  rest.head? ≠ some (.keyword .elseBranch)

/-- A statement is read where no other branch follows; its blocks may have a smaller budget. -/
def StatementReads (statement : Statement) (tokens : List Token) : Prop :=
  ∀ budget inner rest, NoElse rest → (tokens ++ rest).length ≤ budget →
    (tokens ++ rest).length ≤ inner + 1 →
    Gives (statementWith budget (block inner) (conditional inner)) (tokens ++ rest)
      (fun found => found.bare = statement.bare) rest

/-- A conditional is read behind its first word. -/
def ConditionalReads (statement : Statement) (tokens : List Token) : Prop :=
  ∀ budget rest, NoElse rest → (tokens ++ rest).length ≤ budget →
    Gives (conditional budget) (tokens ++ rest) (fun found => found.bare = statement.bare) rest

/-- A conditional is a statement. -/
theorem ConditionalReads.statement {statement : Statement}
    (reads : ConditionalReads statement tokens) :
    StatementReads statement (.keyword .ifCondition :: tokens) := by
  -- The first word is the only token it takes of the budget.
  intro budget inner rest alone _ fits
  rw [Gives, statementWith]
  refine .peeked ?_
  refine .taken fun _ => ?_
  exact reads inner rest alone (by simp at fits ⊢; omega)

section Blocks

variable {pieces : List (Statement × List Token)} {rest : List Token} {budget : Nat}
  (spelled : ∀ piece ∈ pieces, piece.1.Spelled true piece.2)
  (reads : ∀ piece ∈ pieces, StatementReads piece.1 piece.2)

include spelled

/-- Behind a statement of a block stands another one or the brace. -/
theorem noElse_block : NoElse (pieces.flatMap Prod.snd ++ .punct .closeCurly :: rest) := by
  -- No statement starts with the word of another branch.
  cases pieces with
  | nil => simp [NoElse]
  | cons piece pieces =>
    obtain ⟨token, others, begins, other⟩ := (spelled piece (by simp)).begins
    simp only [List.mem_cons, not_or] at other
    simpa [NoElse, begins] using other.2.1

include reads

/-- The statements of a block are read one by one, through the brace that closes it. -/
theorem statements_give
    (short : (pieces.flatMap Prod.snd ++ .punct .closeCurly :: rest).length ≤ budget) :
    Gives (statements budget) (pieces.flatMap Prod.snd ++ .punct .closeCurly :: rest)
      (fun found => found.map Statement.bare = (pieces.map Prod.fst).map Statement.bare) rest := by
  -- By induction on the statements, each of which takes a token of the budget.
  induction pieces generalizing budget with
  | nil =>
    obtain ⟨budget, rfl⟩ := spare short
    rw [Gives, statements]
    refine .peeked ?_
    rw [if_pos rfl]
    refine .marked ?_
    exact .pure ⟨rfl, rfl⟩
  | cons piece pieces ih =>
    obtain ⟨first, others⟩ := List.forall_mem_cons.mp spelled
    obtain ⟨firstReads, othersRead⟩ := List.forall_mem_cons.mp reads
    obtain ⟨token, tokens, begins, other⟩ := first.begins
    simp only [List.mem_cons, not_or] at other
    simp only [List.flatMap_cons, List.append_assoc] at short ⊢
    -- The statement starts with another token than the brace, and takes at least this one.
    obtain ⟨budget, rfl⟩ := Nat.exists_eq_add_one_of_ne_zero (n := budget) (by simp at short; omega)
    have some := List.length_pos_iff.mpr first.ne_nil
    rw [Gives, statements]
    refine .peek ?_ (.inr (by simp))
    intro found _ same
    obtain rfl : token = found := by
      rw [begins] at same
      exact (List.cons.inj same).1
    rw [if_neg other.1]
    refine (firstReads (budget + 1) budget _ (noElse_block others) short short).bind
      fun found same => ?_
    refine (ih others othersRead (by simp at short ⊢; omega)).bind fun founds sames => ?_
    exact .pure ⟨by simpa using ⟨same, by simpa using sames⟩, rfl⟩

/-- A block is read with its braces. -/
theorem block_gives (short : (braced (pieces.flatMap Prod.snd) ++ rest).length ≤ budget + 1) :
    Gives (block budget) (braced (pieces.flatMap Prod.snd) ++ rest)
      (fun found => found.map Statement.bare = (pieces.map Prod.fst).map Statement.bare) rest := by
  -- Its first brace is not counted against the budget.
  simp only [braced, List.cons_append, List.append_assoc, List.nil_append] at short ⊢
  rw [Gives, block]
  refine .marked ?_
  exact statements_give spelled reads (by simpa using short)

end Blocks

/-! ## Conditionals -/

/-- Reads the other branch of a conditional, if there is one. -/
def otherBranch (budget : Nat) (condition : Ast.Expr) (taken : List Statement) :
    Parser Statement := do
  if ← sees (.keyword .elseBranch) then
    let _ ← next
    if (← peek) = .keyword .ifCondition then
      let _ ← next
      let nested ← conditional budget
      return .ifThen condition taken [nested]
    else
      mark .openCurly
      return .ifThen condition taken (← statements budget)
  else return .ifThen condition taken []

theorem conditional_succ (budget : Nat) : conditional (budget + 1) = (do
    let condition ← expression (budget + 1)
    let taken ← block budget
    otherBranch budget condition taken) := by
  -- The two readings differ in how their steps are grouped only.
  rw [conditional]
  simp only [block, otherBranch, bind_assoc]

/-- The other branch of a conditional is read behind it. -/
def OtherReads (otherwise : List Statement) (tail : List Token) : Prop :=
  ∀ budget rest found taken, NoElse rest → (tail ++ rest).length ≤ budget →
    Gives (otherBranch budget found taken) (tail ++ rest) (fun statement =>
      statement.bare = .ifThen found.bare (taken.map Statement.bare)
        (otherwise.map Statement.bare)) rest

theorem otherBranch_none : OtherReads [] [] := by
  -- What follows is no `else`, so nothing is taken.
  intro budget rest found taken alone _
  rw [Gives, otherBranch]
  refine .sees ?_
  rw [if_neg (by simpa [NoElse] using alone)]
  exact .pure ⟨by simp [Statement.bare], rfl⟩

/-- The other branch may be a block. -/
theorem otherBranch_block (spelled : ∀ piece ∈ pieces, piece.1.Spelled true piece.2)
    (reads : ∀ piece ∈ pieces, StatementReads piece.1 piece.2) :
    OtherReads (pieces.map Prod.fst)
      (.keyword .elseBranch :: braced (pieces.flatMap Prod.snd)) := by
  -- Behind `else` stands no second condition.
  intro budget rest found taken _ short
  simp only [braced, List.cons_append, List.append_assoc, List.nil_append] at short ⊢
  rw [Gives, otherBranch]
  refine .sees ?_
  rw [if_pos (by simp)]
  refine .taken fun _ => ?_
  refine .peeked ?_
  rw [if_neg (by simp)]
  refine .marked ?_
  refine (statements_give spelled reads (by simp at short ⊢; omega)).bind fun others same => ?_
  exact .pure ⟨by simp [Statement.bare, same], rfl⟩

/-- The other branch may be another conditional. -/
theorem otherBranch_chain {nested : Statement} (reads : ConditionalReads nested tokens) :
    OtherReads [nested] (.keyword .elseBranch :: .keyword .ifCondition :: tokens) := by
  -- The condition behind `else` belongs to a conditional of its own.
  intro budget rest found taken alone short
  rw [Gives, otherBranch]
  refine .sees ?_
  rw [if_pos (by simp)]
  refine .taken fun _ => ?_
  refine .peeked ?_
  rw [if_pos rfl]
  refine .taken fun _ => ?_
  refine (reads budget rest alone (by simp at short ⊢; omega)).bind fun other same => ?_
  exact .pure ⟨by simp [Statement.bare, same], rfl⟩

/-- A conditional is read if its other branch is. -/
theorem conditional_reads {condition : Ast.Expr} {tail : List Token} {otherwise : List Statement}
    (tested : condition.Spelled 1 tokens)
    (spelled : ∀ piece ∈ pieces, piece.1.Spelled true piece.2)
    (reads : ∀ piece ∈ pieces, StatementReads piece.1 piece.2)
    (others : OtherReads otherwise tail) :
    ConditionalReads (.ifThen condition (pieces.map Prod.fst) otherwise)
      (tokens ++ braced (pieces.flatMap Prod.snd) ++ tail) := by
  -- The brace of the block ends the condition.
  intro budget rest alone short
  simp only [List.append_assoc] at short ⊢
  obtain ⟨budget, rfl⟩ := Nat.exists_eq_add_one_of_ne_zero (n := budget)
    (by simp [braced] at short; omega)
  rw [Gives, conditional_succ]
  refine (expression_gives tested (ends_braced _ _) short).bind fun found same => ?_
  refine (block_gives spelled reads (by simp at short ⊢; omega)).bind fun taken sames => ?_
  refine (others budget rest found taken alone (by simp [braced] at short ⊢; omega)).weaken ?_
  rintro statement _ ⟨right, rfl⟩
  exact ⟨by simpa [Statement.bare, same, sames] using right, rfl⟩

/-! ## All statements -/

/-- A statement that is spelled is read, and behind its first word if it is a conditional. -/
theorem statement_reads {statement : Statement} (spelled : statement.Spelled true tokens) :
    StatementReads statement tokens ∧
      ∀ others, tokens = .keyword .ifCondition :: others → ConditionalReads statement others := by
  -- What is read behind the first word of a conditional is a statement with it.
  have conditionals : ∀ {statement others}, ConditionalReads statement others →
      StatementReads statement (.keyword .ifCondition :: others) ∧ ∀ tokens,
        Token.keyword .ifCondition :: others = .keyword .ifCondition :: tokens →
          ConditionalReads statement tokens := by
    intro statement others reads
    refine ⟨reads.statement, ?_⟩
    rintro _ ⟨⟩
    exact reads
  -- Every other statement is told by its first token, which `peeked` sees and `taken` takes.
  induction spelled with
  | letVar given =>
    refine ⟨fun budget inner rest alone short fits => ?_, by simp⟩
    simp only [List.cons_append, List.append_assoc, List.nil_append] at short ⊢
    rw [Gives, statementWith]
    refine .peeked ?_
    refine .taken fun _ => ?_
    refine .typed fun _ => ?_
    refine .named fun _ => ?_
    -- Behind the length stands a value or the semicolon, and neither starts with a bracket.
    refine (length_gives _ (by simp) (by cases given <;> simp)).bind fun length same => ?_
    refine (initializer_gives given (by simp at short ⊢; omega)).bind fun value same' => ?_
    refine .marked ?_
    exact .pure ⟨by simp [Statement.bare, Located.bare, same, same'], rfl⟩
  | yield | breakLoop | continueLoop =>
    refine ⟨fun budget inner rest alone short fits => ?_, by simp⟩
    rw [Gives, statementWith]
    refine .peeked ?_
    refine .taken fun _ => ?_
    refine .marked ?_
    exact .pure ⟨rfl, rfl⟩
  | waitUntil tested =>
    refine ⟨fun budget inner rest alone short fits => ?_, by simp⟩
    simp only [List.cons_append, List.append_assoc, List.nil_append] at short ⊢
    rw [Gives, statementWith]
    refine .peeked ?_
    refine .taken fun _ => ?_
    refine (expression_gives tested (ends_likelihood _ rest) (by simp at short ⊢; omega)).bind
      fun condition same => ?_
    refine (likelihood_gives _ rest).bind ?_
    rintro _ rfl
    refine .marked ?_
    exact .pure ⟨by simp [Statement.bare, same], rfl⟩
  | call given =>
    refine ⟨fun budget inner rest alone short fits => ?_, by simp⟩
    simp only [List.cons_append, List.append_assoc, List.nil_append] at short ⊢
    rw [Gives, statementWith]
    refine .peeked ?_
    refine .taken fun _ => ?_
    refine .named fun _ => ?_
    refine (optionalArguments_give given (by simp at short ⊢; omega)).bind fun args same => ?_
    refine .marked ?_
    exact .pure ⟨by simp [Statement.bare, Located.bare, same], rfl⟩
  | ifThen tested inner ih =>
    refine conditionals ?_
    -- The branch that is missing is spelled by nothing.
    have reads := conditional_reads tested inner (fun piece member => (ih piece member).1)
      otherBranch_none
    rwa [List.append_nil] at reads
  | ifElse tested inner outer taken otherwise =>
    exact conditionals (conditional_reads tested inner (fun piece member => (taken piece member).1)
      (otherBranch_block outer fun piece member => (otherwise piece member).1))
  | elseIf tested inner chained taken otherwise =>
    exact conditionals (conditional_reads tested inner (fun piece member => (taken piece member).1)
      (otherBranch_chain (otherwise.2 _ rfl)))
  | whileLoop tested inner ih =>
    refine ⟨fun budget limit rest alone short fits => ?_, by simp⟩
    simp only [List.cons_append, List.append_assoc] at short fits ⊢
    rw [Gives, statementWith]
    refine .peeked ?_
    refine .taken fun _ => ?_
    refine (expression_gives tested (ends_braced _ _) (by simp at short ⊢; omega)).bind
      fun condition same => ?_
    refine (block_gives inner (fun piece member => (ih piece member).1)
      (by simp at fits ⊢; omega)).bind fun body sames => ?_
    exact .pure ⟨by simp [Statement.bare, same, sames], rfl⟩
  | loop inner ih =>
    refine ⟨fun budget limit rest alone short fits => ?_, by simp⟩
    rw [Gives, statementWith]
    refine .peeked ?_
    refine .taken fun _ => ?_
    refine (block_gives inner (fun piece member => (ih piece member).1)
      (by simp at fits ⊢; omega)).bind fun body sames => ?_
    exact .pure ⟨by simp [Statement.bare, sames], rfl⟩
  | returnFrom given =>
    refine ⟨fun budget inner rest alone short fits => ?_, by simp⟩
    simp only [List.cons_append, List.append_assoc, List.nil_append] at short ⊢
    rw [Gives, statementWith]
    refine .peeked ?_
    refine .taken fun _ => ?_
    refine .peek ?_ (.inr (by simp))
    intro token others same
    cases given with
    | none =>
      cases same
      simp only [if_pos, pure_bind]
      refine .marked ?_
      exact .pure ⟨rfl, rfl⟩
    | some value =>
      -- A value starts with another token than the semicolon.
      obtain ⟨first, tokens, rfl, -, other⟩ := value.opens
      obtain ⟨rfl, -⟩ := List.cons.inj same
      simp only [if_neg other, map_eq_pure_bind, bind_assoc, pure_bind]
      refine (expression_gives value (ends_mark (by simp) rest) (by simp at short ⊢; omega)).bind
        fun found same => ?_
      refine .marked ?_
      exact .pure ⟨by simp [Statement.bare, same], rfl⟩
  | assign place marked given =>
    refine ⟨fun budget inner rest alone short fits => ?_, by cases place <;> simp⟩
    simp only [List.cons_append, List.append_assoc, List.nil_append] at short ⊢
    have reads := assignment_gives place marked given short
    rw [Gives, statementWith]
    refine .peek ?_ (.inr (by simp))
    intro token others same
    -- The target starts with a name, and no parenthesis follows it.
    cases place with
    | name =>
      cases same
      refine .seesSecond ?_
      rw [if_neg (by simpa using (assignMark?_ne marked).1)]
      exact reads
    | element inner =>
      cases same
      refine .seesSecond ?_
      rw [if_neg (by simp [bracketed])]
      exact reads
  | eval value allowed =>
    refine ⟨fun budget inner rest alone short fits => ?_, by simp⟩
    simp only [List.cons_append, List.append_assoc, List.nil_append] at short ⊢
    rw [Gives, statementWith]
    refine .peeked ?_
    -- The parenthesis behind the name tells that no assignment follows.
    refine .seesSecond ?_
    rw [if_pos (by simp)]
    refine (expression_gives value (ends_mark (by simp) rest) (by simpa using short)).bind
      fun found same => ?_
    refine .marked ?_
    exact .pure ⟨by simp [Statement.bare, same], rfl⟩

end Coro.Parser
