import Coro.Parser.Expr

/-! Reading statements and blocks. -/

namespace Coro.Parser

/-- Reads the length of an array, if one is given. -/
def length : Parser (Option (Located Nat)) := do
  if (← peek) = .punct .openSquare then
    mark .openSquare
    let token ← next
    match token.value with
    | .int value =>
      mark .closeSquare
      return some ⟨value, token.location⟩
    | _ => fail .expectedInteger
  else return none

/-- Reads the value behind an equals sign, if there is one. -/
def initializer (budget : Nat) : Parser (Option Ast.Expr) := do
  if (← peek) = .punct .assign then
    mark .assign
    return some (← expression budget)
  else return none

/-- Reads a list of arguments in parentheses, if there is one. -/
def optionalList {α : Type} (item : Parser α) (budget : Nat) : Parser (List α) := do
  if (← peek) = .punct .openParen then
    mark .openParen
    separated item (.punct .closeParen) budget
  else return []

/-- Reads the hint behind a condition, if there is one. -/
def likelihood : Parser (Option Likelihood) := do
  match ← peek with
  | .keyword .likely => let _ ← next; return some .likely
  | .keyword .unlikely => let _ ← next; return some .unlikely
  | _ => return none

/-- The operator that an assignment applies before it stores; outer `none` for other tokens. -/
def assignOp? : Token → Option (Option BinaryOp)
  | .punct .assign => some none
  | .punct .addAssign => some (some .add)
  | .punct .subAssign => some (some .sub)
  | .punct .andAssign => some (some .and)
  | .punct .orAssign => some (some .or)
  | .punct .xorAssign => some (some .xor)
  | _ => none

/-- Reads an assignment. -/
def assignment (budget : Nat) : Parser Ast.Statement := do
  let target ← target budget
  let sign ← next
  match assignOp? sign.value with
  | none => fail .expectedAssignment
  | some op =>
    let value ← expression budget
    mark .semicolon
    return .assign target op value

/-- Whether the token after the next one is a given mark. -/
def seesSecond (wanted : Punct) : Parser Bool := do
  match (← get).tokens with
  | _ :: second :: _ => return second.value == .punct wanted
  | _ => return false

/--
Reads one statement, given how to read a block and what follows an `if`.

The budget bounds the tokens still to come, the first token of the statement included.
-/
def statementWith (budget : Nat) (block : Parser (List Ast.Statement))
    (conditional : Parser Ast.Statement) : Parser Ast.Statement := do
  match ← peek with
  | .keyword .letVar =>
    let _ ← next
    let type ← type
    let name ← identifier
    let length ← length
    let value ← initializer budget
    mark .semicolon
    return .letVar type name length value
  | .keyword .yield =>
    let word ← next
    mark .semicolon
    return .yield word.location
  | .keyword .waitUntil =>
    let _ ← next
    let condition ← expression budget
    let hint ← likelihood
    mark .semicolon
    return .waitUntil condition hint
  | .keyword .call =>
    let _ ← next
    let subroutine ← identifier
    let args ← optionalList (expression budget) budget
    mark .semicolon
    return .call subroutine args
  | .keyword .ifCondition =>
    let _ ← next
    conditional
  | .keyword .whileLoop =>
    let _ ← next
    let condition ← expression budget
    return .whileLoop condition (← block)
  | .keyword .loop =>
    let _ ← next
    return .loop (← block)
  | .keyword .breakLoop =>
    let word ← next
    mark .semicolon
    return .breakLoop word.location
  | .keyword .continueLoop =>
    let word ← next
    mark .semicolon
    return .continueLoop word.location
  | .keyword .returnFrom =>
    let word ← next
    let value ← if (← peek) = .punct .semicolon then pure none else some <$> expression budget
    mark .semicolon
    return .returnFrom value word.location
  | .id _ =>
    -- A name before a parenthesis is called, any other is assigned to.
    if ← seesSecond .openParen then
      let call ← expression budget
      mark .semicolon
      return .eval call
    else assignment budget
  -- The error stands at the token that starts no statement.
  | _ =>
    let _ ← next
    fail .expectedStatement

mutual

/-- Reads statements through the brace that closes their block. -/
def statements : Nat → Parser (List Ast.Statement)
  | 0 => fail .unexpectedEof
  | budget + 1 => do
    if (← peek) = .punct .closeCurly then
      mark .closeCurly
      return []
    else
      let first ← statementWith (budget + 1) (do mark .openCurly; statements budget)
        (conditional budget)
      return first :: (← statements budget)

/-- Reads what follows an `if`; an `else if` is a block of one statement. -/
def conditional : Nat → Parser Ast.Statement
  | 0 => fail .unexpectedEof
  | budget + 1 => do
    let condition ← expression (budget + 1)
    mark .openCurly
    let taken ← statements budget
    if ← sees (.keyword .elseBranch) then
      let _ ← next
      if (← peek) = .keyword .ifCondition then
        let _ ← next
        let nested ← conditional budget
        return .ifThen condition taken [nested]
      else
        mark .openCurly
        return .ifThen condition taken (← statements budget)
    else return .ifThen condition taken []

end

/-- Reads a block between braces. -/
def block (budget : Nat) : Parser (List Ast.Statement) := do
  mark .openCurly
  statements budget

/-- Reads one statement. -/
def statement (budget : Nat) : Parser Ast.Statement :=
  statementWith budget (block budget) (conditional budget)

end Coro.Parser
