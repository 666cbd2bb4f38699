import Coro.Proofs.Parser.Completeness.Item
import Coro.Proofs.Parser.Strictness

/-!
Writing descriptions as tokens.

An expression has only the parentheses that precedence and grouping to the left require, and a body
has its static variables first, then its subroutines and its statements. Where the grammar leaves a
choice, between `else if` and a block or between an empty list and none, either form may be written.
What is written is read as the same description.
-/

namespace Coro.Ast

/-! ## Choices -/

/-- The form that is chosen where a tree can have two; places are paths into the tree. -/
abbrev Choice := List Bool → Bool

namespace Choice

/-- The form chosen at the root. -/
def here (choice : Choice) : Bool :=
  choice []

/-- The choices in the first part of a tree. -/
def first (choice : Choice) : Choice :=
  fun path => choice (false :: path)

/-- The choices in the other parts. -/
def others (choice : Choice) : Choice :=
  fun path => choice (true :: path)

end Choice

/-! ## Expressions -/

mutual

/-- An expression where one of some level is wanted. -/
def Expr.printed : Expr → Nat → List Token
  | .int value _, _ => [.int value]
  | .char byte _, _ => [.char byte]
  | .name written, _ => [.id written.value]
  | .element written index _, _ => .id written.value :: bracketed (index.printed 1)
  | .call function args _, _ => .id function.value :: parenthesized (commas (printedAll args))
  | .unary op operand _, _ => op.token :: operand.printed operandLevel
  | .binary op left right _, level =>
    let tokens := left.printed op.precedence ++ op.token :: right.printed (op.precedence + 1)
    if level ≤ op.precedence then tokens else parenthesized tokens

/-- Expressions that stand in a list. -/
def Expr.printedAll : List Expr → List (List Token)
  | [] => []
  | expr :: others => expr.printed 1 :: printedAll others

end

/-- A list in parentheses, which is left out if it has no entry and may be missing. -/
def optionalPrinted (missing : Bool) (parts : List (List Token)) : List Token :=
  if missing && parts.isEmpty then [] else parenthesized (commas parts)

/-- A value behind what leads to it, if there is one. -/
def valuePrinted (lead : List Token) : Option Expr → List Token
  | none => []
  | some value => lead ++ value.printed 1

/-- Something that is assigned to. -/
def Target.printed : Target → List Token
  | ⟨name, none, _⟩ => [.id name.value]
  | ⟨name, some index, _⟩ => .id name.value :: bracketed (index.printed 1)

/-! ## Statements -/

/-- A statement is a conditional. -/
def Statement.isConditional : Statement → Bool
  | .ifThen .. => true
  | _ => false

mutual

/-- A statement. -/
def Statement.printed : Statement → Choice → List Token
  | .letVar type name length value, _ =>
    .keyword .letVar :: .keyword (.type type.value) :: .id name.value ::
      (lengthTokens length ++ valuePrinted [.punct .assign] value ++ [.punct .semicolon])
  | .yield _, _ => [.keyword .yield, .punct .semicolon]
  | .waitUntil condition hint, _ =>
    .keyword .waitUntil :: (condition.printed 1 ++ likelihoodTokens hint ++ [.punct .semicolon])
  | .call subroutine args, choice =>
    .keyword .call :: .id subroutine.value ::
      (optionalPrinted choice.here (Expr.printedAll args) ++ [.punct .semicolon])
  | .ifThen condition taken otherwise, choice =>
    .keyword .ifCondition :: (condition.printed 1 ++ braced (printedAll taken choice.first) ++
      otherPrinted otherwise choice.others)
  | .whileLoop condition body, choice =>
    .keyword .whileLoop :: (condition.printed 1 ++ braced (printedAll body choice))
  | .loop body, choice => .keyword .loop :: braced (printedAll body choice)
  | .breakLoop _, _ => [.keyword .breakLoop, .punct .semicolon]
  | .continueLoop _, _ => [.keyword .continueLoop, .punct .semicolon]
  | .returnFrom value _, _ =>
    .keyword .returnFrom :: (valuePrinted [] value ++ [.punct .semicolon])
  | .assign target op value, _ =>
    target.printed ++ (assignMark? op).toList.map Token.punct ++
      (value.printed 1 ++ [.punct .semicolon])
  | .eval expr, _ => expr.printed 1 ++ [.punct .semicolon]

/-- The statements of a block. -/
def Statement.printedAll : List Statement → Choice → List Token
  | [], _ => []
  | statement :: statements, choice =>
    statement.printed choice.first ++ printedAll statements choice.others

/-- The other branch of a conditional, with `else if` only if it is another conditional. -/
def Statement.otherPrinted : List Statement → Choice → List Token
  | [], _ => []
  | statement :: statements, choice =>
    if choice.here && statement.isConditional && statements.isEmpty then
      .keyword .elseBranch :: statement.printed choice.first
    else
      .keyword .elseBranch ::
        braced (statement.printed choice.first ++ printedAll statements choice.others)

end

/-! ## Declarations -/

/-- A static variable. -/
def StaticDecl.printed (decl : StaticDecl) : List Token :=
  .keyword .static :: (volatileTokens decl.volatile ++ .keyword (.type decl.type.value) ::
    .id decl.name.value :: (lengthTokens decl.length ++
      valuePrinted [.punct .assign] decl.initial ++ [.punct .semicolon]))

mutual

/-- A subroutine. -/
def Coroutine.printed : Coroutine → Choice → List Token
  | ⟨name, parameters, statics, subroutines, statements⟩, choice =>
    .keyword .subroutine :: .id name.value ::
      (optionalPrinted choice.here (parameters.map Parameter.tokens) ++
        braced (statics.flatMap StaticDecl.printed ++ printedAll subroutines choice.first ++
          Statement.printedAll statements choice.others))

/-- The subroutines of a body. -/
def Coroutine.printedAll : List Coroutine → Choice → List Token
  | [], _ => []
  | coroutine :: coroutines, choice =>
    coroutine.printed choice.first ++ printedAll coroutines choice.others

end

/-- A body. -/
def Body.printed (body : Body) (choice : Choice) : List Token :=
  braced (body.statics.flatMap StaticDecl.printed ++
    Coroutine.printedAll body.subroutines choice.first ++
    Statement.printedAll body.statements choice.others)

/-- The words that say when a hook runs. -/
def occasionTokens : HookKind → List Token
  | .init => [.keyword .init]
  | .runnable => [.keyword .runnable]
  | .every interval => [.keyword .every, .id interval.name]

/-- An item. -/
def Item.printed : Item → Choice → List Token
  | .header name, _ => [.keyword .header, .str name.value, .punct .semicolon]
  | .external name kind, _ =>
    .keyword .external :: (externalTokens kind ++ [.id name.value, .punct .semicolon])
  | .static decl, _ => decl.printed
  | .function written, choice =>
    .keyword .function :: .id written.name.value ::
      (parenthesized (commas (written.parameters.map Parameter.tokens)) ++
        returnTokens written.returns ++ written.body.printed choice)
  | .thread written, choice =>
    .keyword .thread :: .id written.name.value :: written.body.printed choice
  | .hook name kind body, choice => occasionTokens kind ++ .id name.value :: body.printed choice
  | .entry _ body, choice => .keyword .main :: body.printed choice
  | .useReg path group, _ =>
    .keyword .useReg :: (pathTokens path.value ++ optionalNameTokens group ++ [.punct .semicolon])
  | .tune path flags, _ =>
    .keyword .tune :: (pathTokens path.value ++ commas (flags.map fun flag => [.id flag.value]) ++
      [.punct .semicolon])
  | .cflags name profile, _ =>
    .keyword .cflags :: .id name.value :: (optionalNameTokens profile ++ [.punct .semicolon])

/-- Items one behind the other. -/
def Item.printedAll : List Item → Choice → List Token
  | [], _ => []
  | item :: items, choice => item.printed choice.first ++ printedAll items choice.others

/-- A description. -/
def Description.printed (description : Description) (choice : Choice) : List Token :=
  Item.printedAll description.items choice

/-! ## What can be written -/

/-- A statement that has a spelling: only calls stand alone, and few operators assign. -/
def Statement.Writable : Statement → Prop
  | .eval expr => expr.IsCall
  | .assign _ op _ => ∀ applied ∈ op, applied ∈ [.add, .sub, .and, .or, .xor]
  | _ => True

/-- An item that has a spelling: threads have no parameters, and hints are about something. -/
def Item.Writable : Item → Prop
  | .thread written => written.parameters = []
  | .useReg path _ => path.value.names ≠ []
  | .tune path _ => path.value.names ≠ []
  | _ => True

/-- A description that has a spelling. -/
structure Description.Writable (description : Description) : Prop where
  statements : ∀ statement ∈ description.within, statement.Writable
  items : ∀ item ∈ description.items, item.Writable

/-! ## What is written spells the tree -/

/-- Tokens consist of pieces, one for each value, that spell the values. -/
def Pieced {α : Type} (spelled : α → List Token → Prop) (values : List α) (tokens : List Token) :
    Prop :=
  ∃ pieces : List (α × List Token), values = pieces.map Prod.fst ∧
    tokens = pieces.flatMap Prod.snd ∧ ∀ piece ∈ pieces, spelled piece.1 piece.2

theorem Pieced.nil {α : Type} {spelled : α → List Token → Prop} : Pieced spelled [] [] :=
  ⟨[], rfl, rfl, by simp⟩

theorem Pieced.cons {α : Type} {spelled : α → List Token → Prop} {value : α} {values : List α}
    {first tokens : List Token} (here : spelled value first)
    (others : Pieced spelled values tokens) :
    Pieced spelled (value :: values) (first ++ tokens) := by
  obtain ⟨pieces, rfl, rfl, all⟩ := others
  exact ⟨(value, first) :: pieces, rfl, by rw [List.flatMap_cons],
    List.forall_mem_cons.mpr ⟨here, all⟩⟩

mutual

/-- An expression is spelled by what is written for it. -/
theorem Expr.printed_spelled (expr : Expr) (level : Nat) :
    expr.Spelled level (expr.printed level) := by
  cases expr with
  | int value location => exact .int
  | char byte location => exact .char
  | name written => exact .name
  | element written index location => exact .element (index.printed_spelled 1)
  | call function args location =>
    obtain ⟨pieces, rfl, same, all⟩ := printedAll_spelled args
    rw [printed, same]
    exact .call all
  | unary op operand location => exact .unary (operand.printed_spelled operandLevel)
  | binary op left right location =>
    have spelled : ∀ least ≤ op.precedence, (Expr.binary op left right location).Spelled least
        (left.printed op.precedence ++ op.token :: right.printed (op.precedence + 1)) :=
      fun least below => .binary below (left.printed_spelled _) (right.printed_spelled _)
    rw [printed]
    -- Parentheses make an operand of an operation that binds too loosely.
    by_cases binds : level ≤ op.precedence
    · rw [if_pos binds]
      exact spelled level binds
    · rw [if_neg binds]
      exact .grouped (spelled 1 (by cases op <;> decide))

theorem Expr.printedAll_spelled (exprs : List Expr) :
    ∃ pieces : List (Expr × List Token), exprs = pieces.map Prod.fst ∧
      printedAll exprs = pieces.map Prod.snd ∧ ∀ piece ∈ pieces, piece.1.Spelled 1 piece.2 := by
  cases exprs with
  | nil => exact ⟨[], rfl, rfl, by simp⟩
  | cons expr others =>
    obtain ⟨pieces, rfl, same, all⟩ := printedAll_spelled others
    exact ⟨(expr, expr.printed 1) :: pieces, rfl, by rw [printedAll, same, List.map_cons],
      List.forall_mem_cons.mpr ⟨expr.printed_spelled 1, all⟩⟩

end

theorem valuePrinted_spelled (lead : List Token) (value : Option Expr) :
    Value.Spelled lead value (valuePrinted lead value) := by
  cases value with
  | none => exact .none
  | some value => exact .some (value.printed_spelled 1)

/-- So are arguments, whether or not they are left out. -/
theorem arguments_spelled (missing : Bool) (args : List Expr) :
    Arguments.Spelled args (optionalPrinted missing (Expr.printedAll args)) := by
  -- An empty list has both spellings; any other is written in full.
  obtain ⟨pieces, rfl, same, all⟩ := Expr.printedAll_spelled args
  rw [same, optionalPrinted]
  by_cases skip : missing && (pieces.map Prod.snd).isEmpty
  · rw [if_pos skip]
    obtain ⟨-, rfl⟩ : missing = true ∧ pieces = [] := by simpa using skip
    exact .none
  · rw [if_neg skip]
    exact .some all

theorem Target.printed_spelled (target : Target) : target.Spelled target.printed := by
  -- The index is a whole expression, in its brackets.
  obtain ⟨name, index, location⟩ := target
  cases index with
  | none => exact .name
  | some index => exact .element (index.printed_spelled 1)

/-- An assignment that has a spelling has a mark. -/
theorem exists_assignMark {op : Option BinaryOp}
    (writable : ∀ applied ∈ op, applied ∈ [.add, .sub, .and, .or, .xor]) :
    ∃ sign, assignMark? op = some sign := by
  -- The operators that may be left of an assignment are those with a mark.
  cases op with
  | none => exact ⟨_, rfl⟩
  | some applied =>
    have listed := writable applied rfl
    simp only [List.mem_cons, List.not_mem_nil, or_false] at listed
    rcases listed with rfl | rfl | rfl | rfl | rfl <;> exact ⟨_, rfl⟩

mutual

/-- A statement is spelled by what is written for it. -/
theorem Statement.printed_spelled (statement : Statement) (choice : Choice)
    (writable : ∀ inner ∈ statement.within, inner.Writable) :
    statement.Spelled true (statement.printed choice) := by
  -- One case for each kind, where blocks give their pieces.
  cases statement with
  | letVar type name length value => exact .letVar (valuePrinted_spelled _ value)
  | yield location => exact .yield
  | waitUntil condition hint => exact .waitUntil (condition.printed_spelled 1)
  | call subroutine args => exact .call (arguments_spelled _ args)
  | ifThen condition taken otherwise =>
    simp only [within, List.forall_mem_cons, List.forall_mem_append] at writable
    obtain ⟨-, takenWritable, otherWritable⟩ := writable
    have tested := condition.printed_spelled 1
    obtain ⟨pieces, same, written, inner⟩ := printedAll_spelled taken choice.first takenWritable
    rw [printed, written, same]
    -- The other branch is missing, behind `else`, or a block of its own.
    cases otherwise with
    | nil => simpa [otherPrinted] using Spelled.ifThen tested inner
    | cons nested rest =>
      rw [otherPrinted]
      by_cases chains : choice.others.here && nested.isConditional && rest.isEmpty
      · -- Here it is a conditional alone.
        rw [if_pos chains]
        obtain ⟨⟨-, conditional⟩, rfl⟩ :
            (choice.others.here = true ∧ nested.isConditional = true) ∧ rest = [] := by
          simpa using chains
        rw [withinAll, List.forall_mem_append] at otherWritable
        have chained := nested.printed_spelled choice.others.first otherWritable.1
        cases nested with
        | ifThen =>
          rw [printed] at chained ⊢
          exact .elseIf tested inner chained
        | _ => cases conditional
      · rw [if_neg chains]
        obtain ⟨others, same, written, outer⟩ :=
          printedAll_spelled (nested :: rest) choice.others otherWritable
        rw [printedAll] at written
        rw [written, same]
        exact .ifElse tested inner outer
  | whileLoop condition body =>
    simp only [within, List.forall_mem_cons] at writable
    obtain ⟨pieces, same, written, inner⟩ := printedAll_spelled body choice writable.2
    rw [printed, written, same]
    exact .whileLoop (condition.printed_spelled 1) inner
  | loop body =>
    simp only [within, List.forall_mem_cons] at writable
    obtain ⟨pieces, same, written, inner⟩ := printedAll_spelled body choice writable.2
    rw [printed, written, same]
    exact .loop inner
  | breakLoop location => exact .breakLoop
  | continueLoop location => exact .continueLoop
  | returnFrom value location => exact .returnFrom (valuePrinted_spelled [] value)
  | assign target op value =>
    -- The operator has a mark, which is the only one that is written.
    have here : (Statement.assign target op value).Writable := writable _ (by simp [within])
    obtain ⟨sign, marked⟩ := exists_assignMark here
    have spelled : Spelled true (.assign target op value) _ :=
      .assign target.printed_spelled marked (value.printed_spelled 1)
    simpa [printed, marked] using spelled
  | eval expr =>
    have call : (Statement.eval expr).Writable := writable _ (by simp [within])
    -- A call starts with a name and a parenthesis.
    cases expr with
    | call function args location =>
      exact .eval ((Expr.call function args location).printed_spelled 1) (.inr call)
    | _ => exact call.elim

theorem Statement.printedAll_spelled (statements : List Statement) (choice : Choice)
    (writable : ∀ inner ∈ withinAll statements, inner.Writable) :
    Pieced (Spelled true) statements (printedAll statements choice) := by
  cases statements with
  | nil => exact .nil
  | cons statement statements =>
    rw [withinAll, List.forall_mem_append] at writable
    have spelled := statement.printed_spelled choice.first writable.1
    rw [printedAll]
    exact .cons spelled (printedAll_spelled statements choice.others writable.2)

end

theorem StaticDecl.printed_spelled (decl : StaticDecl) :
    (Member.static decl).Spelled true decl.printed :=
  .static (.intro (valuePrinted_spelled _ decl.initial))

/-- So are parameters, whether or not they are left out. -/
theorem parameters_spelled (missing : Bool) (parameters : List Parameter) :
    Parameters.Spelled parameters
      (optionalPrinted missing (parameters.map Parameter.tokens)) := by
  -- An empty list has both spellings; any other is written in full.
  rw [optionalPrinted]
  by_cases skip : missing && (parameters.map Parameter.tokens).isEmpty
  · rw [if_pos skip]
    obtain ⟨-, rfl⟩ : missing = true ∧ parameters = [] := by simpa using skip
    exact .none
  · rw [if_neg skip]
    exact .some

/-- Static variables, subroutines and statements, in this order, are the members of a body. -/
theorem exists_members (statics : List StaticDecl) {subroutines : List (Coroutine × List Token)}
    {statements : List (Statement × List Token)}
    (inner : ∀ piece ∈ subroutines, (Member.subroutine piece.1).Spelled true piece.2)
    (stated : ∀ piece ∈ statements, piece.1.Spelled true piece.2) :
    ∃ pieces : List (Member × List Token),
      Body.ofMembers (pieces.map Prod.fst) =
        ⟨statics, subroutines.map Prod.fst, statements.map Prod.fst⟩ ∧
      statics.flatMap StaticDecl.printed ++ subroutines.flatMap Prod.snd ++
        statements.flatMap Prod.snd = pieces.flatMap Prod.snd ∧
      ∀ piece ∈ pieces, piece.1.Spelled true piece.2 := by
  -- The order is chosen here; the body keeps its three lists in any order.
  refine ⟨statics.map (fun decl => (.static decl, decl.printed)) ++
    subroutines.map (fun piece => (.subroutine piece.1, piece.2)) ++
    statements.map (fun piece => (.statement piece.1, piece.2)), ?_, ?_, ?_⟩
  · -- Each list finds its own kind of members only.
    have none : ∀ {α β : Type} (list : List α), list.filterMap (fun _ => (none : Option β)) = [] :=
      fun list => List.filterMap_eq_nil_iff.mpr fun _ _ => rfl
    simp [Body.ofMembers, List.filterMap_append, List.filterMap_map, Function.comp_def,
      Member.static?, Member.subroutine?, Member.statement?, none]
  · simp [List.flatMap_append, List.flatMap_map]
  · simp only [List.forall_mem_append, List.forall_mem_map]
    exact ⟨⟨fun decl _ => decl.printed_spelled, inner⟩, fun piece member =>
      .statement (stated piece member)⟩

mutual

/-- A subroutine is spelled by what is written for it. -/
theorem Coroutine.printed_spelled (coroutine : Coroutine) (choice : Choice)
    (writable : ∀ inner ∈ coroutine.within, inner.Writable) :
    (Member.subroutine coroutine).Spelled true (coroutine.printed choice) := by
  -- A subroutine is a name and parameters before a body with subroutines of its own.
  cases coroutine with
  | mk name parameters statics subroutines statements =>
    rw [within, List.forall_mem_append] at writable
    obtain ⟨inside, rfl, same, inner⟩ := printedAll_spelled subroutines choice.first writable.1
    obtain ⟨parts, rfl, same', stated⟩ :=
      Statement.printedAll_spelled statements choice.others writable.2
    obtain ⟨pieces, body, tokens, all⟩ := exists_members statics inner stated
    have spelled : Member.Spelled true (.subroutine (.ofBody name parameters _)) _ :=
      .subroutine (parameters_spelled choice.here parameters) all
    rw [body] at spelled
    rw [printed, same, same', tokens]
    exact spelled

theorem Coroutine.printedAll_spelled (coroutines : List Coroutine) (choice : Choice)
    (writable : ∀ inner ∈ withinAll coroutines, inner.Writable) :
    Pieced (fun coroutine => (Member.subroutine coroutine).Spelled true) coroutines
      (printedAll coroutines choice) := by
  cases coroutines with
  | nil => exact .nil
  | cons coroutine coroutines =>
    rw [withinAll, List.forall_mem_append] at writable
    have spelled := coroutine.printed_spelled choice.first writable.1
    rw [printedAll]
    exact .cons spelled (printedAll_spelled coroutines choice.others writable.2)

end

/-- A body is spelled by what is written for it. -/
theorem Body.printed_spelled (body : Body) (choice : Choice)
    (writable : ∀ inner ∈ body.within, inner.Writable) :
    body.Spelled true (body.printed choice) := by
  -- Its three lists are written as members, which give it back.
  obtain ⟨statics, subroutines, statements⟩ := body
  rw [within, List.forall_mem_append] at writable
  obtain ⟨inside, rfl, same, inner⟩ :=
    Coroutine.printedAll_spelled subroutines choice.first writable.1
  obtain ⟨parts, rfl, same', stated⟩ :=
    Statement.printedAll_spelled statements choice.others writable.2
  obtain ⟨pieces, whole, tokens, all⟩ := exists_members statics inner stated
  have spelled : Body.Spelled true _ _ := .intro all
  rw [whole] at spelled
  rw [printed, same, same', tokens]
  exact spelled

/-- An item is spelled by what is written for it. -/
theorem Item.printed_spelled (item : Item) (choice : Choice)
    (statements : ∀ inner ∈ item.within, inner.Writable) (writable : item.Writable) :
    item.Spelled true (item.printed choice) := by
  cases item with
  | header name => exact .header
  | external name kind => exact .external
  | static decl => exact .static (.intro (valuePrinted_spelled _ decl.initial))
  | function written => exact .function (written.body.printed_spelled choice statements)
  | thread written =>
    obtain ⟨name, parameters, statics, subroutines, body⟩ := written
    -- Parameters of a thread would have no place to be written.
    obtain rfl : parameters = [] := writable
    simp only [within, Coroutine.within] at statements
    exact .thread (Body.printed_spelled ⟨statics, subroutines, body⟩ choice statements)
  | hook name kind body =>
    -- The name of an interval can be written in other ways, too.
    have occasion : Occasion.Spelled kind (occasionTokens kind) := by
      cases kind with
      | init => exact .init
      | runnable => exact .runnable
      | every interval => exact .every (by simp [sameWord])
    exact .hook occasion (body.printed_spelled choice statements)
  | entry location body => exact .entry (body.printed_spelled choice statements)
  | useReg path group => exact .useReg writable
  | tune path flags => exact .tune writable (.inl rfl)
  | cflags name profile => exact .cflags

/-- Items are spelled by what is written for them. -/
theorem Item.printedAll_spelled (items : List Item) (choice : Choice)
    (statements : ∀ item ∈ items, ∀ inner ∈ item.within, inner.Writable)
    (writable : ∀ item ∈ items, item.Writable) :
    Pieced (Spelled true) items (printedAll items choice) := by
  induction items generalizing choice with
  | nil => exact .nil
  | cons item items ih =>
    rw [List.forall_mem_cons] at statements writable
    have spelled := item.printed_spelled choice.first statements.1 writable.1
    exact .cons spelled (ih choice.others statements.2 writable.2)

/-- A description is spelled by what is written for it. -/
theorem Description.printed_spelled {description : Description} (writable : description.Writable)
    (choice : Choice) : description.Spelled true (description.printed choice) := by
  -- What can be written as a whole can be written item by item.
  obtain ⟨items, last⟩ := description
  obtain ⟨statements, writable⟩ := writable
  obtain ⟨pieces, rfl, same, all⟩ := Item.printedAll_spelled items choice
    (fun item listed inner found =>
      statements inner (List.mem_flatMap.mpr ⟨item, listed, found⟩)) writable
  rw [printed, same]
  exact .intro all

/-! ## Reading back -/

/--
What is written for a description is read as it.

All tokens are taken, wherever they stand, and the description that is read differs from the written
one only in the places of its parts.
-/
theorem Description.parse_printed {description : Description} (writable : description.Writable)
    (choice : Choice) (start : Location) {tokens : List (Located Token)}
    (written : tokens.map Located.value = description.printed choice) :
    ∃ items last, (Parser.items tokens.length).run ⟨tokens, start⟩ = .ok (items, ⟨[], last⟩) ∧
      parse start tokens = .ok ⟨items, last⟩ ∧
      (Description.mk items last).bare = description.bare := by
  -- Writing spells the description, and all that spells it is read as it.
  have spelled := printed_spelled writable choice
  rw [← written] at spelled
  obtain ⟨items, last, outcome, same⟩ := items_of_spelled spelled start
  refine ⟨items, last, outcome, ?_, ?_⟩
  · rw [parse, outcome]
    rfl
  · rw [bare, bare, same]

/-- `use_reg t; main { if a { } else if b { f(); } }` -/
def chainedDescription : Description :=
  ⟨[.useReg ⟨⟨["t"]⟩, default⟩ none,
    .entry default ⟨[], [], [.ifThen (.name ⟨"a", default⟩) []
      [.ifThen (.name ⟨"b", default⟩) [.eval (.call ⟨"f", default⟩ [] default)] []]]⟩], default⟩

/-- A conditional in the other branch of another one is read back from `else if`. -/
theorem Description.chained_printed :
    chainedDescription.printed (fun _ => true) = [.keyword .useReg, .id "t", .punct .semicolon,
      .keyword .main, .punct .openCurly, .keyword .ifCondition, .id "a", .punct .openCurly,
      .punct .closeCurly, .keyword .elseBranch, .keyword .ifCondition, .id "b", .punct .openCurly,
      .id "f", .punct .openParen, .punct .closeParen, .punct .semicolon, .punct .closeCurly,
      .punct .closeCurly] ∧
    ∃ items last, parse default (unplaced (chainedDescription.printed fun _ => true)) =
        .ok ⟨items, last⟩ ∧ (Description.mk items last).bare = chainedDescription.bare := by
  have writable : chainedDescription.Writable := by
    constructor
    · simp [chainedDescription, within, Item.within, Body.within, Coroutine.withinAll,
        Statement.withinAll, Statement.within, Statement.Writable, Expr.IsCall]
    · simp [chainedDescription, Item.Writable]
  obtain ⟨items, last, -, parsed, same⟩ :=
    parse_printed writable (fun _ => true) default (unplaced_value _)
  exact ⟨rfl, items, last, parsed, same⟩

end Coro.Ast
