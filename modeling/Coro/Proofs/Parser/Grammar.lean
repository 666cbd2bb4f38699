import Coro.Parser.Item

/-!
The grammar of descriptions: which tokens spell which syntax tree.

A tree may be spelled in many ways. Expressions may have more parentheses than they need, a list
without entries may be left out where it is optional, and the declarations of a body stand anywhere
between its statements. Places in the text have no part in it. Subroutines may stand in every body
and any word may name a register, a flag or a profile: refusing those is up to the resolution.
-/

namespace Coro

/-- The token of a unary operator. -/
def UnaryOp.token : UnaryOp → Token
  | .negate => .punct .minus
  | .not => .punct .bang
  | .complement => .punct .tilde

/-- The token of a binary operator. -/
def BinaryOp.token : BinaryOp → Token
  | .add => .punct .plus
  | .sub => .punct .minus
  | .mul => .punct .times
  | .div => .punct .slash
  | .mod => .punct .percent
  | .and => .punct .amp
  | .or => .punct .pipe
  | .xor => .punct .caret
  | .shl => .punct .shl
  | .shr => .punct .shr
  | .equal => .punct .equal
  | .notEqual => .punct .notEqual
  | .less => .punct .less
  | .lessOrEqual => .punct .lessOrEqual
  | .greater => .punct .greater
  | .greaterOrEqual => .punct .greaterOrEqual
  | .logicAnd => .punct .andAnd
  | .logicOr => .punct .orOr

/-- The mark of an assignment that applies an operator before it stores, if there is one. -/
def assignMark? : Option BinaryOp → Option Punct
  | none => some .assign
  | some .add => some .addAssign
  | some .sub => some .subAssign
  | some .and => some .andAssign
  | some .or => some .orAssign
  | some .xor => some .xorAssign
  | some _ => none

theorem UnaryOp.ofToken?_eq_some {token : Token} {op : UnaryOp} :
    ofToken? token = some op ↔ token = op.token := by
  -- Each operator has a token of its own, so both directions go through the table.
  constructor
  · intro found
    unfold ofToken? at found
    split at found <;> cases found <;> rfl
  · rintro rfl
    cases op <;> rfl

theorem BinaryOp.ofToken?_eq_some {token : Token} {op : BinaryOp} :
    ofToken? token = some op ↔ token = op.token := by
  -- Each operator has a token of its own, so both directions go through the table.
  constructor
  · intro found
    unfold ofToken? at found
    split at found <;> cases found <;> rfl
  · rintro rfl
    cases op <;> rfl

/-- A token stands for a kind of assignment exactly if it is its mark. -/
theorem Parser.assignOp?_eq_some {token : Token} {op : Option BinaryOp} :
    assignOp? token = some op ↔ ∃ sign, assignMark? op = some sign ∧ token = .punct sign := by
  -- Only five operators can be joined with an assignment; the others have no mark.
  constructor
  · intro found
    unfold assignOp? at found
    split at found <;> cases found <;> exact ⟨_, rfl, rfl⟩
  · rintro ⟨sign, marked, rfl⟩
    unfold assignMark? at marked
    split at marked <;> cases marked <;> rfl

/-- A name stands for an interval exactly if it is its name, in any case of letters. -/
theorem Interval.ofName?_eq_some {name : String} {interval : Interval} :
    ofName? name = some interval ↔ sameWord interval.name name = true := by
  -- Intervals are tried one after the other, and the first that fits is taken.
  constructor
  · intro found
    exact List.find?_some (p := fun listed : Interval => sameWord listed.name name) found
  · intro same
    -- The names differ in more than the case of letters, so no other interval is found before.
    have folded := (beq_iff_eq.mp same).symm
    cases interval <;> simp only [ofName?, all, sameWord, folded] <;> decide

namespace Ast

variable {loose : Bool}

/-! ## Parts of all rules -/

/-- Tokens between parentheses. -/
def parenthesized (tokens : List Token) : List Token :=
  .punct .openParen :: tokens ++ [.punct .closeParen]

/-- Tokens between square brackets. -/
def bracketed (tokens : List Token) : List Token :=
  .punct .openSquare :: tokens ++ [.punct .closeSquare]

/-- Tokens between braces. -/
def braced (tokens : List Token) : List Token :=
  .punct .openCurly :: tokens ++ [.punct .closeCurly]

/-- The parts of a list with commas between them. -/
def commas (parts : List (List Token)) : List Token :=
  [Token.punct .comma].intercalate parts

@[simp] theorem commas_nil : commas [] = [] := rfl

@[simp] theorem commas_singleton (part : List Token) : commas [part] = part := by
  simp [commas, List.intercalate]

theorem commas_cons {part : List Token} {parts : List (List Token)} (more : parts ≠ []) :
    commas (part :: parts) = part ++ .punct .comma :: commas parts := by
  -- With another part behind it, the first one is followed by a comma.
  obtain ⟨second, others, rfl⟩ := List.exists_cons_of_ne_nil more
  simp [commas, List.intercalate]

theorem exists_commas_cons (part : List Token) (parts : List (List Token)) :
    ∃ tail, commas (part :: parts) = part ++ tail := by
  -- What comes behind is nothing, or a comma with the other parts.
  by_cases more : parts = []
  · exact ⟨[], by rw [more, commas_singleton, List.append_nil]⟩
  · exact ⟨_, commas_cons more⟩

/-- The length of an array, if one is given. -/
def lengthTokens : Option (Located Nat) → List Token
  | none => []
  | some length => bracketed [.int length.value]

/-- The hint behind a condition, if there is one. -/
def likelihoodTokens : Option Likelihood → List Token
  | none => []
  | some .likely => [.keyword .likely]
  | some .unlikely => [.keyword .unlikely]

/-- The mark of volatile storage, if it is there. -/
def volatileTokens (volatile : Bool) : List Token :=
  if volatile then [.keyword .volatile] else []

/-- A name that may be left out. -/
def optionalNameTokens (name : Option (Located String)) : List Token :=
  (name.map fun name => Token.id name.value).toList

/-- The names of a path with periods between them. -/
def pathTokens (path : Path) : List Token :=
  [Token.punct .period].intercalate (path.names.map fun name => [.id name])

theorem pathTokens_cons (first : String) (names : List String) :
    pathTokens ⟨first :: names⟩ =
      .id first :: names.flatMap fun name => [.punct .period, .id name] := by
  -- The period before a name is the one that separates it from the name before.
  induction names generalizing first with
  | nil => rfl
  | cons second names ih =>
    have rest := ih second
    simp only [pathTokens, List.map_cons, List.intercalate] at rest ⊢
    simpa using rest

/-! ## Expressions -/

/-- The level of operands, above the precedence of every binary operator. -/
def operandLevel : Nat := 11

/-- How tightly the operator binds that comes next; zero if none does. -/
def bindingAhead (tokens : List Token) : Nat :=
  ((tokens.head?.bind BinaryOp.ofToken?).map BinaryOp.precedence).getD 0

theorem bindingAhead_lt (tokens : List Token) : bindingAhead tokens < operandLevel := by
  -- The operators are few enough to look at each.
  unfold bindingAhead
  cases tokens.head?.bind BinaryOp.ofToken? with
  | none => decide
  | some op => cases op <;> decide

/--
The expressions of some level, and how they are spelled.

An operand is of every level, and a binary operation of those up to the precedence of its operator.
Its left operand may be an operation of the same precedence, and its right operand may not.
-/
inductive Expr.Spelled : Nat → Expr → List Token → Prop
  -- Truth values are written as words, and are the numbers one and zero.
  | int {level value location} : Spelled level (.int value location) [.int value]
  | yes {level location} : Spelled level (.int 1 location) [.keyword .trueValue]
  | no {level location} : Spelled level (.int 0 location) [.keyword .falseValue]
  | char {level byte location} : Spelled level (.char byte location) [.char byte]
  | name {level written} : Spelled level (.name written) [.id written.value]
  | element {level written index location tokens} (inner : Spelled 1 index tokens) :
      Spelled level (.element written index location) (.id written.value :: bracketed tokens)
  | call {level function location} {pieces : List (Expr × List Token)}
      (inner : ∀ piece ∈ pieces, Spelled 1 piece.1 piece.2) :
      Spelled level (.call function (pieces.map Prod.fst) location)
        (.id function.value :: parenthesized (commas (pieces.map Prod.snd)))
  | unary {level op operand location tokens} (inner : Spelled operandLevel operand tokens) :
      Spelled level (.unary op operand location) (op.token :: tokens)
  -- Parentheses make an operand of any expression, and leave no mark in the tree.
  | grouped {level expr tokens} (inner : Spelled 1 expr tokens) :
      Spelled level expr (parenthesized tokens)
  | binary {level op left right location first second} (binds : level ≤ op.precedence)
      (before : Spelled op.precedence left first)
      (behind : Spelled (op.precedence + 1) right second) :
      Spelled level (.binary op left right location) (first ++ op.token :: second)

/-- What is spelled at some level is spelled at every lower one. -/
theorem Expr.Spelled.lower {level least : Nat} {expr : Expr} {tokens : List Token}
    (spelled : expr.Spelled level tokens) (below : least ≤ level) : expr.Spelled least tokens := by
  -- Only operations have a bound on their level, and a lower one keeps it.
  cases spelled with
  | int => exact .int
  | yes => exact .yes
  | no => exact .no
  | char => exact .char
  | name => exact .name
  | element inner => exact .element inner
  | call inner => exact .call inner
  | unary inner => exact .unary inner
  | grouped inner => exact .grouped inner
  | binary binds before behind => exact .binary (Nat.le_trans below binds) before behind

/-- An expression starts with a token that ends no list and no statement. -/
theorem Expr.Spelled.opens {level : Nat} {expr : Expr} {tokens : List Token}
    (spelled : expr.Spelled level tokens) :
    ∃ token others, tokens = token :: others ∧ token ≠ .punct .closeParen ∧
      token ≠ .punct .semicolon := by
  -- Operands start with a literal, a name, an operator or a parenthesis.
  induction spelled with
  | @unary _ op =>
    cases op <;> exact ⟨_, _, rfl, by simp [UnaryOp.token], by simp [UnaryOp.token]⟩
  | binary _ _ _ ih =>
    -- An operation starts as its left operand does.
    obtain ⟨token, others, rfl, given⟩ := ih
    exact ⟨token, _, rfl, given⟩
  | _ => exact ⟨_, _, rfl, by simp, by simp⟩

/-- An expression is a call. -/
def Expr.IsCall : Expr → Prop
  | .call .. => True
  | _ => False

/-- How a value that may be left out is spelled behind what leads to it. -/
inductive Value.Spelled (lead : List Token) : Option Expr → List Token → Prop
  | none : Spelled lead none []
  | some {expr tokens} (value : expr.Spelled 1 tokens) : Spelled lead (some expr) (lead ++ tokens)

/-- How arguments are spelled that may be left out together with their parentheses. -/
inductive Arguments.Spelled : List Expr → List Token → Prop
  | none : Spelled [] []
  | some {pieces : List (Expr × List Token)}
      (inner : ∀ piece ∈ pieces, piece.1.Spelled 1 piece.2) :
      Spelled (pieces.map Prod.fst) (parenthesized (commas (pieces.map Prod.snd)))

/-- How something that is assigned to is spelled. -/
inductive Target.Spelled : Target → List Token → Prop
  | name {name location} : Spelled ⟨name, none, location⟩ [.id name.value]
  | element {name index location tokens} (inner : index.Spelled 1 tokens) :
      Spelled ⟨name, some index, location⟩ (.id name.value :: bracketed tokens)

/-! ## Statements -/

/--
How a statement is spelled.

An expression that stands for a statement is a call. In a loose reading, any expression may stand
there that begins with one.
-/
inductive Statement.Spelled (loose : Bool) : Statement → List Token → Prop
  | letVar {type name length value tokens} (given : Value.Spelled [.punct .assign] value tokens) :
      Spelled loose (.letVar type name length value)
        (.keyword .letVar :: .keyword (.type type.value) :: .id name.value ::
          (lengthTokens length ++ tokens ++ [.punct .semicolon]))
  | yield {location} : Spelled loose (.yield location) [.keyword .yield, .punct .semicolon]
  | waitUntil {condition hint tokens} (tested : condition.Spelled 1 tokens) :
      Spelled loose (.waitUntil condition hint)
        (.keyword .waitUntil :: (tokens ++ likelihoodTokens hint ++ [.punct .semicolon]))
  | call {subroutine args tokens} (given : Arguments.Spelled args tokens) :
      Spelled loose (.call subroutine args)
        (.keyword .call :: .id subroutine.value :: (tokens ++ [.punct .semicolon]))
  -- Without another branch, the list of its statements is empty.
  | ifThen {condition tokens} {pieces : List (Statement × List Token)}
      (tested : condition.Spelled 1 tokens)
      (inner : ∀ piece ∈ pieces, Spelled loose piece.1 piece.2) :
      Spelled loose (.ifThen condition (pieces.map Prod.fst) [])
        (.keyword .ifCondition :: (tokens ++ braced (pieces.flatMap Prod.snd)))
  | ifElse {condition tokens} {pieces others : List (Statement × List Token)}
      (tested : condition.Spelled 1 tokens)
      (inner : ∀ piece ∈ pieces, Spelled loose piece.1 piece.2)
      (outer : ∀ piece ∈ others, Spelled loose piece.1 piece.2) :
      Spelled loose (.ifThen condition (pieces.map Prod.fst) (others.map Prod.fst))
        (.keyword .ifCondition :: (tokens ++ braced (pieces.flatMap Prod.snd) ++
          .keyword .elseBranch :: braced (others.flatMap Prod.snd)))
  -- A conditional behind the other branch's keyword needs no braces.
  | elseIf {condition tokens nested rest} {pieces : List (Statement × List Token)}
      (tested : condition.Spelled 1 tokens)
      (inner : ∀ piece ∈ pieces, Spelled loose piece.1 piece.2)
      (chained : Spelled loose nested (.keyword .ifCondition :: rest)) :
      Spelled loose (.ifThen condition (pieces.map Prod.fst) [nested])
        (.keyword .ifCondition :: (tokens ++ braced (pieces.flatMap Prod.snd) ++
          .keyword .elseBranch :: .keyword .ifCondition :: rest))
  | whileLoop {condition tokens} {pieces : List (Statement × List Token)}
      (tested : condition.Spelled 1 tokens)
      (inner : ∀ piece ∈ pieces, Spelled loose piece.1 piece.2) :
      Spelled loose (.whileLoop condition (pieces.map Prod.fst))
        (.keyword .whileLoop :: (tokens ++ braced (pieces.flatMap Prod.snd)))
  | loop {pieces : List (Statement × List Token)}
      (inner : ∀ piece ∈ pieces, Spelled loose piece.1 piece.2) :
      Spelled loose (.loop (pieces.map Prod.fst))
        (.keyword .loop :: braced (pieces.flatMap Prod.snd))
  | breakLoop {location} :
      Spelled loose (.breakLoop location) [.keyword .breakLoop, .punct .semicolon]
  | continueLoop {location} :
      Spelled loose (.continueLoop location) [.keyword .continueLoop, .punct .semicolon]
  | returnFrom {value location tokens} (given : Value.Spelled [] value tokens) :
      Spelled loose (.returnFrom value location)
        (.keyword .returnFrom :: (tokens ++ [.punct .semicolon]))
  | assign {target op value sign first second} (place : target.Spelled first)
      (marked : assignMark? op = some sign) (given : value.Spelled 1 second) :
      Spelled loose (.assign target op value)
        (first ++ .punct sign :: (second ++ [.punct .semicolon]))
  -- A name and a parenthesis tell an expression from an assignment.
  | eval {expr name rest} (value : expr.Spelled 1 (.id name :: .punct .openParen :: rest))
      (allowed : loose = true ∨ expr.IsCall) :
      Spelled loose (.eval expr) (.id name :: .punct .openParen :: (rest ++ [.punct .semicolon]))

/-- A statement starts with a token that starts or ends nothing else in a body. -/
theorem Statement.Spelled.begins {statement : Statement} {tokens : List Token}
    (spelled : statement.Spelled loose tokens) :
    ∃ token others, tokens = token :: others ∧ token ∉ [.punct .closeCurly,
      .keyword .elseBranch, .keyword .static, .keyword .subroutine] := by
  -- All but an assignment and a call start with a keyword of their own.
  cases spelled with
  | assign place => cases place <;> exact ⟨_, _, rfl, by simp⟩
  | _ => exact ⟨_, _, rfl, by simp⟩

theorem Statement.Spelled.ne_nil {statement : Statement} {tokens : List Token}
    (spelled : statement.Spelled loose tokens) : tokens ≠ [] := by
  obtain ⟨_, _, rfl, -⟩ := spelled.begins
  simp

/-! ## Declarations -/

/-- How a static variable is spelled behind its keyword. -/
inductive StaticDecl.Spelled : StaticDecl → List Token → Prop
  | intro {type name volatile length initial tokens}
      (given : Value.Spelled [.punct .assign] initial tokens) :
      Spelled ⟨type, name, volatile, length, initial⟩
        (volatileTokens volatile ++ .keyword (.type type.value) :: .id name.value ::
          (lengthTokens length ++ tokens ++ [.punct .semicolon]))

/-- How a parameter is spelled. -/
def Parameter.tokens (parameter : Parameter) : List Token :=
  [.keyword (.type parameter.type.value), .id parameter.name.value]

/-- How parameters are spelled that may be left out together with their parentheses. -/
inductive Parameters.Spelled : List Parameter → List Token → Prop
  | none : Spelled [] []
  | some {parameters : List Parameter} :
      Spelled parameters (parenthesized (commas (parameters.map Parameter.tokens)))

/-- What can stand in a body. -/
inductive Member where
  | static (decl : StaticDecl)
  | subroutine (written : Coroutine)
  | statement (written : Statement)

namespace Member

/-- A static variable, if the member is one. -/
def static? : Member → Option StaticDecl
  | static decl => some decl
  | _ => none

/-- A subroutine, if the member is one. -/
def subroutine? : Member → Option Coroutine
  | subroutine written => some written
  | _ => none

/-- A statement, if the member is one. -/
def statement? : Member → Option Statement
  | statement written => some written
  | _ => none

end Member

/-- The body that has some members, each kind in their order. -/
def Body.ofMembers (members : List Member) : Body :=
  ⟨members.filterMap Member.static?, members.filterMap Member.subroutine?,
    members.filterMap Member.statement?⟩

theorem Body.ofMembers_static (decl : StaticDecl) (members : List Member) :
    ofMembers (.static decl :: members) =
      { ofMembers members with statics := decl :: (ofMembers members).statics } := rfl

theorem Body.ofMembers_subroutine (written : Coroutine) (members : List Member) :
    ofMembers (.subroutine written :: members) =
      { ofMembers members with subroutines := written :: (ofMembers members).subroutines } := rfl

theorem Body.ofMembers_statement (written : Statement) (members : List Member) :
    ofMembers (.statement written :: members) =
      { ofMembers members with statements := written :: (ofMembers members).statements } := rfl

/-- How a member of a body is spelled. -/
inductive Member.Spelled (loose : Bool) : Member → List Token → Prop
  | static {decl tokens} (declared : decl.Spelled tokens) :
      Spelled loose (.static decl) (.keyword .static :: tokens)
  | subroutine {name parameters tokens} {pieces : List (Member × List Token)}
      (given : Parameters.Spelled parameters tokens)
      (inner : ∀ piece ∈ pieces, Spelled loose piece.1 piece.2) :
      Spelled loose (.subroutine (.ofBody name parameters (.ofMembers (pieces.map Prod.fst))))
        (.keyword .subroutine :: .id name.value ::
          (tokens ++ braced (pieces.flatMap Prod.snd)))
  -- Statements need no keyword that tells them from declarations.
  | statement {written tokens} (stated : written.Spelled loose tokens) :
      Spelled loose (.statement written) tokens

/-- How a body is spelled: its members in any order. -/
inductive Body.Spelled (loose : Bool) : Body → List Token → Prop
  | intro {pieces : List (Member × List Token)}
      (inner : ∀ piece ∈ pieces, piece.1.Spelled loose piece.2) :
      Spelled loose (.ofMembers (pieces.map Prod.fst)) (braced (pieces.flatMap Prod.snd))

/-- What stands between the keyword and the name of an external entity. -/
def externalTokens : ExternalKind → List Token
  | .data type volatile => volatileTokens volatile ++ [.keyword (.type type)]
  | .function => [.keyword .function]

/-- The type of what a function returns, if it returns something. -/
def returnTokens : Option (Located IntType) → List Token
  | none => []
  | some type => [.punct .arrow, .keyword (.type type.value)]

/-- How the occasion of a hook is spelled; the name of an interval is one in any case of letters. -/
inductive Occasion.Spelled : HookKind → List Token → Prop
  | init : Spelled .init [.keyword .init]
  | runnable : Spelled .runnable [.keyword .runnable]
  | every {interval word} (named : sameWord interval.name word = true) :
      Spelled (.every interval) [.keyword .every, .id word]

/--
How an item is spelled.

A tuning hint has at least one flag. In a loose reading it may have none.
-/
inductive Item.Spelled (loose : Bool) : Item → List Token → Prop
  | header {name} :
      Spelled loose (.header name) [.keyword .header, .str name.value, .punct .semicolon]
  | external {name kind} :
      Spelled loose (.external name kind)
        (.keyword .external :: (externalTokens kind ++ [.id name.value, .punct .semicolon]))
  | static {decl tokens} (declared : decl.Spelled tokens) :
      Spelled loose (.static decl) (.keyword .static :: tokens)
  | function {name parameters returns body tokens} (inner : body.Spelled loose tokens) :
      Spelled loose (.function ⟨name, parameters, returns, body⟩)
        (.keyword .function :: .id name.value ::
          (parenthesized (commas (parameters.map Parameter.tokens)) ++ returnTokens returns ++
            tokens))
  -- Threads have no parameters, not even an empty list of them.
  | thread {name body tokens} (inner : body.Spelled loose tokens) :
      Spelled loose (.thread (.ofBody name [] body))
        (.keyword .thread :: .id name.value :: tokens)
  | hook {name kind body first second} (occasion : Occasion.Spelled kind first)
      (inner : body.Spelled loose second) :
      Spelled loose (.hook name kind body) (first ++ .id name.value :: second)
  | entry {location body tokens} (inner : body.Spelled loose tokens) :
      Spelled loose (.entry location body) (.keyword .main :: tokens)
  | useReg {path group} (named : path.value.names ≠ []) :
      Spelled loose (.useReg path group)
        (.keyword .useReg :: (pathTokens path.value ++ optionalNameTokens group ++
          [.punct .semicolon]))
  | tune {path} {flags : List (Located String)} (named : path.value.names ≠ [])
      (flagged : loose = true ∨ flags ≠ []) :
      Spelled loose (.tune path flags)
        (.keyword .tune :: (pathTokens path.value ++
          commas (flags.map fun flag => [.id flag.value]) ++ [.punct .semicolon]))
  | cflags {name profile} :
      Spelled loose (.cflags name profile)
        (.keyword .cflags :: .id name.value :: (optionalNameTokens profile ++ [.punct .semicolon]))

theorem Item.Spelled.ne_nil {item : Item} {tokens : List Token}
    (spelled : item.Spelled loose tokens) : tokens ≠ [] := by
  -- Every item starts with a keyword.
  cases spelled <;> simp

/-- How a description is spelled: its items one behind the other. -/
inductive Description.Spelled (loose : Bool) : Description → List Token → Prop
  | intro {last} {pieces : List (Item × List Token)}
      (inner : ∀ piece ∈ pieces, piece.1.Spelled loose piece.2) :
      Spelled loose ⟨pieces.map Prod.fst, last⟩ (pieces.flatMap Prod.snd)

end Ast

end Coro
