import Coro.Parser.Statement

/-! Reading declarations, hints and whole descriptions. -/

namespace Coro.Parser

/-- Reads the mark of volatile storage, if it is there. -/
def volatileMark : Parser Bool := do
  if (← peek) = .keyword .volatile then
    let _ ← next
    return true
  else return false

/-- Reads a static declaration behind its keyword. -/
def staticDecl (budget : Nat) : Parser Ast.StaticDecl := do
  let volatile ← volatileMark
  let type ← type
  let name ← identifier
  let length ← length
  let initial ← initializer budget
  mark .semicolon
  return ⟨type, name, volatile, length, initial⟩

/-- Reads a parameter. -/
def parameter : Parser Ast.Parameter := do
  let type ← type
  return ⟨type, ← identifier⟩

/--
Reads what stands in a body, through the brace that closes it.

The budget bounds the tokens still to come.
-/
def bodyRest : Nat → Parser Ast.Body
  | 0 => fail .unexpectedEof
  | budget + 1 => do
    match ← peek with
    | .punct .closeCurly =>
      let _ ← next
      return ⟨[], [], []⟩
    | .keyword .static =>
      let _ ← next
      let decl ← staticDecl budget
      let body ← bodyRest budget
      return { body with statics := decl :: body.statics }
    | .keyword .subroutine =>
      let _ ← next
      let name ← identifier
      let parameters ← optionalList parameter budget
      mark .openCurly
      let inner ← bodyRest budget
      let body ← bodyRest budget
      return { body with subroutines := .ofBody name parameters inner :: body.subroutines }
    | _ =>
      let first ← statement (budget + 1)
      let body ← bodyRest budget
      return { body with statements := first :: body.statements }

/-- Reads a body between braces. -/
def body (budget : Nat) : Parser Ast.Body := do
  mark .openCurly
  bodyRest budget

/-- Reads the names of a path behind its first one. -/
def pathRest : Nat → Parser (List String)
  | 0 => return []
  | budget + 1 => do
    if ← sees (.punct .period) then
      mark .period
      let name ← identifier
      return name.value :: (← pathRest budget)
    else return []

/-- Reads a path of names with periods between them. -/
def path (budget : Nat) : Parser (Located Path) := do
  let first ← identifier
  let rest ← pathRest budget
  return ⟨⟨first.value :: rest⟩, ← spanFrom first.location⟩

/-- Reads a name, unless a semicolon follows. -/
def optionalName : Parser (Option (Located String)) := do
  if (← peek) = .punct .semicolon then return none else return some (← identifier)

/-- Reads an external declaration behind its keyword. -/
def external : Parser Ast.Item := do
  let kind ← if (← peek) = .keyword .function then do
      let _ ← next
      pure ExternalKind.function
    else do
      let volatile ← volatileMark
      let type ← type
      pure (.data type.value volatile)
  let name ← identifier
  mark .semicolon
  return .external name kind

/-- Reads a function behind its keyword. -/
def function (budget : Nat) : Parser Ast.Function := do
  let name ← identifier
  mark .openParen
  let parameters ← separated parameter (.punct .closeParen) budget
  let returns ← if (← peek) = .punct .arrow then do
      mark .arrow
      some <$> type
    else pure none
  return ⟨name, parameters, returns, ← body budget⟩

/-- Reads a hook behind the words that say when it runs. -/
def hook (kind : HookKind) (budget : Nat) : Parser Ast.Item := do
  let name ← identifier
  return .hook name kind (← body budget)

/-- Reads one declaration or hint. -/
def item (budget : Nat) : Parser Ast.Item := do
  -- The first token alone decides what is declared.
  let first ← next
  match first.value with
  | .keyword .header =>
    let token ← next
    match token.value with
    | .str name =>
      mark .semicolon
      return .header ⟨name, token.location⟩
    | _ => fail .expectedString
  | .keyword .external => external
  | .keyword .static => return .static (← staticDecl budget)
  | .keyword .function => return .function (← function budget)
  | .keyword .thread =>
    let name ← identifier
    return .thread (.ofBody name [] (← body budget))
  | .keyword .every =>
    let name ← identifier
    match Interval.ofName? name.value with
    | some interval => hook (.every interval) budget
    | none => throw ⟨.unknownInterval name.value, name.location⟩
  | .keyword .init => hook .init budget
  | .keyword .runnable => hook .runnable budget
  | .keyword .main => return .entry first.location (← body budget)
  | .keyword .useReg =>
    let path ← path budget
    let group ← optionalName
    mark .semicolon
    return .useReg path group
  | .keyword .tune =>
    let path ← path budget
    return .tune path (← separated identifier (.punct .semicolon) budget)
  | .keyword .cflags =>
    let name ← identifier
    let profile ← optionalName
    mark .semicolon
    return .cflags name profile
  | _ => fail .expectedItem

/-- Reads declarations and hints up to the end of the tokens. -/
def items : Nat → Parser (List Ast.Item)
  | 0 => return []
  | budget + 1 => do
    match ← peek? with
    | none => return []
    | some _ =>
      let first ← item (budget + 1)
      return first :: (← items budget)

end Coro.Parser

namespace Coro.Ast

/-- The description that a list of tokens spells, in a text that starts at a given place. -/
def Description.parse (start : Location) (tokens : List (Located Token)) :
    Except (Located ParseError) Ast.Description := do
  -- Every declaration takes a token, so their number is budget enough.
  let (items, cursor) ← (Parser.items tokens.length).run ⟨tokens, start⟩
  return ⟨items, cursor.last⟩

end Coro.Ast
