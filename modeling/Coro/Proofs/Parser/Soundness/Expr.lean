import Coro.Proofs.Parser.Contract
import Coro.Proofs.Parser.Grammar

/-!
Only tokens that spell an expression are read as it.

A reader takes tokens that spell the value it gives. What extends an operand leaves no operator
behind that binds more tightly.
-/

namespace Coro.Parser

open Ast

variable {α β : Type}

/-- Whatever a reader takes spells the value that it gives. -/
def Takes (parser : Parser α) (before : List Token) (spells : α → List Token → Prop) : Prop :=
  Reads True parser before fun value after => ∃ taken, before = taken ++ after ∧ spells value taken

/-! ## Lists -/

section Lists

variable {item : Parser α} {spells : α → List Token → Prop} {limit : Nat}
  (takes : ∀ before, before.length ≤ limit → Takes item before spells) (close : Token)

include takes

variable (budget : Nat) (before : List Token) (short : before.length ≤ limit)

include short

/-- A list with an entry is spelled by its entries and the commas between them. -/
theorem separatedTail_takes :
    Reads True (separatedTail item close budget) before fun values after =>
      ∃ pieces : List (α × List Token), pieces ≠ [] ∧ values = pieces.map Prod.fst ∧
        before = commas (pieces.map Prod.snd) ++ close :: after ∧
        ∀ piece ∈ pieces, spells piece.1 piece.2 := by
  -- By induction on the budget, which bounds the number of entries.
  induction budget generalizing before with
  | zero => exact .fail trivial _
  | succ budget ih =>
    rw [separatedTail]
    refine (takes before short).bind ?_
    rintro first _ ⟨taken, rfl, spelled⟩
    refine .next ?_ free
    rintro found place others rfl
    -- Behind an entry stands a comma and another entry, or the end of the list.
    split
    case isTrue comma =>
      refine (ih others (by simp at short; omega)).bind ?_
      rintro values after ⟨pieces, filled, rfl, rfl, all⟩
      refine .pure ⟨(first, taken) :: pieces, by simp, rfl, ?_, ?_⟩
      · have more : pieces.map Prod.snd ≠ [] := by simpa using filled
        simp only [List.map_cons, commas_cons more, List.append_assoc, List.cons_append]
        exact congrArg (fun token => taken ++ token :: _) comma
      · simpa using ⟨spelled, fun value tokens member => all (value, tokens) member⟩
    case isFalse =>
      split
      case isTrue closed =>
        exact .pure ⟨[(first, taken)], by simp, rfl, by simpa using closed, by simpa using spelled⟩
      case isFalse => exact .fail trivial _

/-- The same of a list that may have no entry. -/
theorem separated_takes :
    Reads True (separated item close budget) before fun values after =>
      ∃ pieces : List (α × List Token), values = pieces.map Prod.fst ∧
        before = commas (pieces.map Prod.snd) ++ close :: after ∧
        ∀ piece ∈ pieces, spells piece.1 piece.2 := by
  -- The end of the list may come at once, before any entry.
  rw [separated]
  refine .peek ?_ free
  rintro token others rfl
  split
  case isTrue closed =>
    subst closed
    refine .next ?_ free
    rintro _ place _ ⟨⟩
    exact .pure ⟨[], rfl, rfl, by simp⟩
  case isFalse =>
    refine (separatedTail_takes takes close budget _ short).weaken ?_
    rintro values after ⟨pieces, -, given⟩
    exact ⟨pieces, given⟩

end Lists

/-! ## Expressions -/

/-- A literal spells itself. -/
theorem literal_takes (before : List Token) :
    Takes literal before (Ast.Expr.Spelled operandLevel) := by
  -- Numbers, characters and truth values are the only literals.
  rw [Takes, literal]
  refine .next ?_ free
  rintro token place others rfl
  cases token with
  | int value => exact .pure ⟨[.int value], rfl, .int⟩
  | char byte => exact .pure ⟨[.char byte], rfl, .char⟩
  | keyword word =>
    cases word with
    | trueValue => exact .pure ⟨[.keyword .trueValue], rfl, .yes⟩
    | falseValue => exact .pure ⟨[.keyword .falseValue], rfl, .no⟩
    | _ => exact .fail trivial _
  | _ => exact .fail trivial _

/--
Whatever extends a left operand spells an expression together with it.

The operand is extended only by operators that bind less tightly than all it holds already, and at
the end no operator is left that should have extended it.
-/
def ClimbTakes (budget : Nat) : Prop :=
  ∀ least left first before, 0 < least → before.length ≤ budget →
    left.Spelled (max least (bindingAhead before)) first →
    Reads True (climb budget least left) before fun expr after =>
      ∃ taken, before = taken ++ after ∧ expr.Spelled least (first ++ taken) ∧
        bindingAhead after < least

/-- A whole expression is an operand and what extends it. -/
theorem whole_takes {budget : Nat}
    (operandTakes : ∀ before, before.length ≤ budget →
      Takes (operand budget) before (Ast.Expr.Spelled operandLevel))
    (climbTakes : ClimbTakes budget) (before : List Token) (short : before.length ≤ budget) :
    Takes (expression budget) before (Ast.Expr.Spelled 1) := by
  -- The operand is read at the highest level, and extended from the lowest on.
  refine (operandTakes before short).bind ?_
  rintro left after ⟨taken, rfl, spelled⟩
  -- An operand binds more tightly than whatever comes next.
  have below := bindingAhead_lt after
  simp only [operandLevel] at below spelled
  refine (climbTakes 1 left taken after (by omega) (by simp at short; omega)
    (spelled.lower (by omega))).weaken ?_
  rintro expr _ ⟨more, rfl, given, -⟩
  exact ⟨taken ++ more, by simp, given⟩

section Step

variable {budget : Nat}
  (operandTakes : ∀ before, before.length ≤ budget →
    Takes (operand budget) before (Ast.Expr.Spelled operandLevel))
  (climbTakes : ClimbTakes budget)

include operandTakes climbTakes

theorem operand_takes_succ (before : List Token) (short : before.length ≤ budget + 1) :
    Takes (operand (budget + 1)) before (Ast.Expr.Spelled operandLevel) := by
  -- Arguments and what stands in brackets are whole expressions.
  have whole := whole_takes operandTakes climbTakes
  rw [Takes, operand]
  refine .peek ?_ free
  rintro token others rfl
  have fewer : others.length ≤ budget := by simpa using short
  split
  case h_1 op sign =>
    -- An operator applies to the operand behind it.
    obtain rfl := UnaryOp.ofToken?_eq_some.mp sign
    refine .next ?_ free
    rintro _ place _ ⟨⟩
    refine (operandTakes others fewer).bind ?_
    rintro inner after ⟨taken, rfl, spelled⟩
    exact .pure ⟨op.token :: taken, rfl, .unary spelled⟩
  case h_2 =>
    split
    case h_1 name _ =>
      refine .identifier ?_ free
      rintro _ place _ ⟨⟩
      refine .sees ?_
      -- A name is followed by arguments, by an index, or by something else.
      split
      case isTrue =>
        refine .mark ?_ free
        rintro others rfl
        refine (separated_takes whole _ budget others (by simp at fewer; omega)).bind ?_
        rintro args after ⟨pieces, rfl, rfl, all⟩
        refine .spanFrom fun place => .pure ⟨_, ?_, .call all⟩
        simp [parenthesized]
      case isFalse =>
        refine .sees ?_
        split
        case isTrue =>
          refine .mark ?_ free
          rintro others rfl
          rw [← bind_assoc]
          refine (whole others (by simp at fewer; omega)).bind ?_
          rintro index _ ⟨taken, rfl, spelled⟩
          refine .mark ?_ free
          rintro after rfl
          exact .spanFrom fun place => .pure
            ⟨.id name :: bracketed taken, by simp [bracketed], .element spelled⟩
        case isFalse => exact .pure ⟨[.id name], rfl, .name⟩
    case h_2 =>
      -- Parentheses are taken with what they hold, and make an operand of it.
      refine .mark ?_ free
      rintro _ ⟨⟩
      rw [← bind_assoc]
      refine (whole others fewer).bind ?_
      rintro inner _ ⟨taken, rfl, spelled⟩
      refine .mark ?_ free
      rintro after rfl
      exact .pure ⟨parenthesized taken, by simp [parenthesized], .grouped spelled⟩
    case h_3 => exact literal_takes _

theorem climb_takes_succ : ClimbTakes (budget + 1) := by
  intro least left first before positive short spelled
  rw [climb]
  refine .peek? ?_
  split
  case h_1 none =>
    -- Without an operator the left operand is all there is.
    exact .pure ⟨[], rfl, by simpa using spelled.lower (Nat.le_max_left ..),
      by simpa [bindingAhead, none] using positive⟩
  case h_2 op found =>
    have ahead : bindingAhead before = op.precedence := by simp [bindingAhead, found]
    split
    case isTrue weak =>
      -- An operator that binds too loosely is left to whoever asked.
      exact .pure ⟨[], rfl, by simpa using spelled.lower (Nat.le_max_left ..), ahead ▸ weak⟩
    case isFalse strong =>
      refine .next ?_ free
      rintro token place others rfl
      obtain rfl := BinaryOp.ofToken?_eq_some.mp found
      have fewer : others.length ≤ budget := by simpa using short
      have left : left.Spelled op.precedence first := spelled.lower (by omega)
      -- The right operand takes all that binds more tightly than this operator.
      refine (operandTakes others fewer).bind ?_
      rintro operand middle ⟨taken, rfl, inner⟩
      have rest : middle.length ≤ budget := by simp at fewer; omega
      have below := bindingAhead_lt middle
      have tight : op.precedence + 1 ≤ operandLevel := by cases op <;> decide
      refine (climbTakes (op.precedence + 1) operand taken middle (by omega) rest
        (inner.lower (by omega))).bind ?_
      rintro right behind ⟨more, rfl, given, ended⟩
      -- What is left binds no more tightly, so the whole operation is a left operand for it.
      refine (climbTakes least _ (first ++ op.token :: (taken ++ more)) behind positive
        (by simp at rest; omega) (.binary (by omega) left given)).weaken ?_
      rintro expr after ⟨last, rfl, final, stopped⟩
      exact ⟨op.token :: (taken ++ more) ++ last, by simp, by simpa using final, stopped⟩

end Step

/-- Operands and what extends them, by induction on the tokens to come. -/
theorem operand_climb_take (budget : Nat) :
    (∀ before, before.length ≤ budget →
      Takes (operand budget) before (Ast.Expr.Spelled operandLevel)) ∧ ClimbTakes budget := by
  induction budget with
  | zero =>
    -- Without tokens there is no operand, and nothing extends one.
    refine ⟨fun _ _ => .fail trivial _, fun least left first before positive short spelled => ?_⟩
    obtain rfl : before = [] := by simpa using short
    exact .pure ⟨[], rfl, by simpa using spelled.lower (Nat.le_max_left ..), positive⟩
  | succ budget ih =>
    exact ⟨operand_takes_succ ih.1 ih.2, climb_takes_succ ih.1 ih.2⟩

theorem expression_takes (budget : Nat) (before : List Token) (short : before.length ≤ budget) :
    Takes (expression budget) before (Ast.Expr.Spelled 1) :=
  whole_takes (operand_climb_take budget).1 (operand_climb_take budget).2 before short

/-- So is something that is assigned to. -/
theorem target_takes (budget : Nat) (before : List Token) (short : before.length ≤ budget) :
    Takes (target budget) before Ast.Target.Spelled := by
  -- A variable stands alone, or with an index behind it.
  rw [Takes, target]
  refine .identifier ?_ free
  rintro name place others rfl
  refine .sees ?_
  split
  case isTrue =>
    refine .mark ?_ free
    rintro others rfl
    refine (expression_takes budget others (by simp at short; omega)).bind ?_
    rintro index _ ⟨taken, rfl, spelled⟩
    refine .mark ?_ free
    rintro after rfl
    exact .spanFrom fun place => .pure
      ⟨.id name :: bracketed taken, by simp [bracketed], .element spelled⟩
  case isFalse => exact .pure ⟨[.id name], rfl, .name⟩

end Coro.Parser
