import Coro.Ast
import Coro.Resolution.Scope

/-! Resolving the statements and expressions of one body. -/

namespace Coro

/-- The declarations that names stand for, as far as they are known. -/
structure Tables where
  headers : List String
  externals : List External
  statics : List StaticVariable
  coroutines : List Coroutine
  functions : List Function
  hooks : List Hook
  entry : Option Entry
  flags : Option FlagsRequest
  /-- The names on the top level. -/
  globals : Scope
  /-- The names of each body that has been resolved. -/
  members : List (Owner × Scope)
deriving Inhabited

/-- Nothing declared. -/
def Tables.empty : Tables := ⟨[], [], [], [], [], [], none, none, [], []⟩

/-- Whose body is resolved, as far as its statements depend on it. -/
inductive BodyRole where
  | coroutine
  | function (name : String) (returns : Option IntType)
  | routine
deriving Repr, DecidableEq

/-- All that a body refers to and that it does not change. -/
structure Surroundings where
  tables : Tables
  /-- The scopes around the body, the innermost first. -/
  outer : List Scope
  role : BodyRole

/-- What the statements of a body have declared so far. -/
structure BodyNames where
  scope : Scope
  locals : List Local

/-- The number of elements of an array, which must be in range. -/
def arrayLength (length : Located Nat) : Except (Located ResolutionError) Nat :=
  if 1 ≤ length.value ∧ length.value ≤ 65535 then return length.value
  else throw ⟨.badLength, length.location⟩

/-- The length written in a declaration, if it is one of an array. -/
def declaredLength : Option (Located Nat) → Except (Located ResolutionError) (Option Nat)
  | none => return none
  | some length => return some (← arrayLength length)

namespace Surroundings

/-- What a name of the body stands for. -/
def entity (around : Surroundings) (names : BodyNames) (name : Located String) :
    Except (Located ResolutionError) Entity :=
  lookup (names.scope :: around.outer) name

/-- The variable that a name stands for, with its length if it is an array. -/
def storage (around : Surroundings) (names : BodyNames) (name : Located String) :
    Except (Located ResolutionError) (Var × Option Nat) := do
  match ← around.entity names name with
  | .static id => return (.static id, around.tables.statics[id]?.bind (·.length))
  | .localVar id => return (.localVar id, names.locals[id]?.bind (·.length))
  | .external id =>
    -- External variables are never arrays.
    match around.tables.externals[id]?.map External.kind with
    | some (.data ..) => return (.external id, none)
    | _ => throw ⟨.expectedVariable name.value, name.location⟩
  | _ => throw ⟨.expectedVariable name.value, name.location⟩

/-- A use of a name without an index. -/
def scalar (around : Surroundings) (names : BodyNames) (name : Located String) :
    Except (Located ResolutionError) Var := do
  let (var, length) ← around.storage names name
  if length.isSome then throw ⟨.expectedIndex name.value, name.location⟩
  return var

/-- A use of a name with an index. -/
def array (around : Surroundings) (names : BodyNames) (name : Located String) :
    Except (Located ResolutionError) Var := do
  let (var, length) ← around.storage names name
  if length.isNone then throw ⟨.notAnArray name.value, name.location⟩
  return var

/-- As many arguments as parameters. -/
def checkArity (name : Located String) (expected found : Nat) :
    Except (Located ResolutionError) Unit :=
  if expected = found then return ()
  else throw ⟨.arityMismatch name.value expected found, name.location⟩

/-- The function that a name stands for; a statement may leave its value unused. -/
def callee (around : Surroundings) (names : BodyNames) (name : Located String) (count : Nat)
    (isStatement : Bool) : Except (Located ResolutionError) Callee := do
  match ← around.entity names name with
  | .function id =>
    match around.tables.functions[id]? with
    | some function =>
      checkArity name function.arity count
      if !isStatement && function.returns.isNone then
        throw ⟨.voidValue name.value, name.location⟩
      return .function id
    | none => throw ⟨.expectedFunction name.value, name.location⟩
  | .external id =>
    -- External functions take any arguments and always have a value.
    match around.tables.externals[id]?.map External.kind with
    | some .function => return .external id
    | _ => throw ⟨.expectedFunction name.value, name.location⟩
  | _ => throw ⟨.expectedFunction name.value, name.location⟩

/-- The subroutine that a name stands for. -/
def subroutine (around : Surroundings) (names : BodyNames) (name : Located String) (count : Nat) :
    Except (Located ResolutionError) CoroutineId := do
  match ← around.entity names name with
  | .coroutine id =>
    match around.tables.coroutines[id]? with
    | some coroutine =>
      -- A thread goes on by itself and cannot be called.
      if coroutine.isThread then throw ⟨.expectedSubroutine name.value, name.location⟩
      checkArity name coroutine.parameters.length count
      return id
    | none => throw ⟨.expectedSubroutine name.value, name.location⟩
  | _ => throw ⟨.expectedSubroutine name.value, name.location⟩

mutual

/-- Resolves an expression. -/
def expression (around : Surroundings) (names : BodyNames) :
    Ast.Expr → Except (Located ResolutionError) Expr
  | .int value _ => return .const (Int64.ofNat value)
  | .char byte _ => return .const (Int64.ofNat byte.toNat)
  | .name name => return .read (← around.scalar names name)
  | .element name index _ => do
    -- The name comes before the index, and so does its fault.
    let var ← around.array names name
    return .element var (← around.expression names index)
  | .call function args _ => do
    -- The number of arguments is checked before any of them.
    let callee ← around.callee names function args.length false
    return .call callee (← around.expressions names args)
  | .unary op operand _ => return .unary op (← around.expression names operand)
  | .binary op left right _ => do
    let left ← around.expression names left
    return .binary op left (← around.expression names right)

/-- Resolves expressions from left to right. -/
def expressions (around : Surroundings) (names : BodyNames) :
    List Ast.Expr → Except (Located ResolutionError) (List Expr)
  | [] => return []
  | first :: rest => do
    let first ← around.expression names first
    return first :: (← around.expressions names rest)

end

/-- Resolves an expression that stands for a statement. -/
def evaluated (around : Surroundings) (names : BodyNames) :
    Ast.Expr → Except (Located ResolutionError) Expr
  | .call function args _ => do
    -- Only the call that makes up the statement may go without a value.
    let callee ← around.callee names function args.length true
    return .call callee (← around.expressions names args)
  | expr => around.expression names expr

/-- Resolves what is assigned to. -/
def place (around : Surroundings) (names : BodyNames) (target : Ast.Target) :
    Except (Located ResolutionError) Place := do
  match target.index with
  | none => return ⟨← around.scalar names target.name, none⟩
  | some index =>
    let var ← around.array names target.name
    return ⟨var, some (← around.expression names index)⟩

/-- Only coroutines can be suspended. -/
def checkSuspension (around : Surroundings) (construct : String) (location : Location) :
    Except (Located ResolutionError) Unit :=
  match around.role with
  | .coroutine => return ()
  | _ => throw ⟨.suspensionOutsideCoroutine construct, location⟩

/-- Only loops can be left or continued. -/
def checkLoop (inLoop : Bool) (construct : String) (location : Location) :
    Except (Located ResolutionError) Unit :=
  if inLoop then return () else throw ⟨.outsideLoop construct, location⟩

/-- Resolves a return, which carries a value exactly in functions that have one. -/
def returned (around : Surroundings) (names : BodyNames) (value : Option Ast.Expr)
    (location : Location) : Except (Located ResolutionError) Stmt :=
  match around.role, value with
  | .function _ (some _), some value => do
    return .returnFrom (some (← around.expression names value))
  | .function name (some _), none => throw ⟨.missingReturnValue name, location⟩
  | _, some value => throw ⟨.unexpectedReturnValue, value.location⟩
  | _, none => return .returnFrom none

/-- Resolves the value that a new variable starts with. -/
def initialValue (around : Surroundings) (names : BodyNames) (length : Option Nat) :
    Option Ast.Expr → Except (Located ResolutionError) (Option Expr)
  | none => return none
  | some value => do
    if length.isSome then throw ⟨.arrayInitializer, value.location⟩
    return some (← around.expression names value)

/-- Resolves a declaration, which later statements of the body can use. -/
def declaration (around : Surroundings) (names : BodyNames) (type : IntType)
    (name : Located String) (length : Option (Located Nat)) (value : Option Ast.Expr) :
    Except (Located ResolutionError) (Stmt × BodyNames) := do
  let length ← declaredLength length
  -- The value comes before the name, so a variable cannot start from itself.
  let value ← around.initialValue names length value
  let id := names.locals.length
  let scope ← names.scope.define name (.localVar id)
  let locals := names.locals ++ [⟨name.value, type, length, none, name.location⟩]
  return (.letVar id value, ⟨scope, locals⟩)

mutual

/-- Resolves a statement and gives the names known behind it. -/
def statement (around : Surroundings) (inLoop : Bool) (names : BodyNames) :
    Ast.Statement → Except (Located ResolutionError) (Stmt × BodyNames)
  | .letVar type name length value =>
    around.declaration names type.value name length value
  | .yield location => do
    around.checkSuspension "yield" location
    return (.yield location, names)
  | .waitUntil condition hint => do
    around.checkSuspension "wait_until" condition.location
    return (.waitUntil (← around.expression names condition) hint condition.location, names)
  | .call subroutine args => do
    around.checkSuspension "call" subroutine.location
    let callee ← around.subroutine names subroutine args.length
    return (.call callee (← around.expressions names args) subroutine.location, names)
  | .ifThen condition taken otherwise => do
    let condition ← around.expression names condition
    let (taken, names) ← around.statements inLoop names taken
    let (otherwise, names) ← around.statements inLoop names otherwise
    return (.ifThen condition taken otherwise, names)
  | .whileLoop condition body => do
    let condition ← around.expression names condition
    let (body, names) ← around.statements true names body
    return (.whileLoop condition body, names)
  | .loop body => do
    let (body, names) ← around.statements true names body
    return (.loop body, names)
  | .breakLoop location => do
    checkLoop inLoop "break" location
    return (.breakLoop, names)
  | .continueLoop location => do
    checkLoop inLoop "continue" location
    return (.continueLoop, names)
  | .returnFrom value location => return (← around.returned names value location, names)
  | .assign target op value => do
    let place ← around.place names target
    return (.assign place op (← around.expression names value), names)
  | .eval expr => return (.eval (← around.evaluated names expr), names)

/-- Resolves statements in the order of the text; names declared in a block outlive it. -/
def statements (around : Surroundings) (inLoop : Bool) (names : BodyNames) :
    List Ast.Statement → Except (Located ResolutionError) (List Stmt × BodyNames)
  | [] => return ([], names)
  | first :: rest => do
    let (first, names) ← around.statement inLoop names first
    let (rest, names) ← around.statements inLoop names rest
    return (first :: rest, names)

end

end Surroundings

end Coro
