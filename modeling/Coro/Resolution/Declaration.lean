import Coro.Resolution.Body
import Coro.Text.Letters

/-! Declaring entities and resolving their bodies. -/

namespace Coro

/-- Steps that add declarations, or stop at a fault. -/
abbrev Resolver := StateT Tables (Except (Located ResolutionError))

/-- The value of an expression that names nothing; both operands of every operator are computed. -/
def Ast.Expr.constant : Ast.Expr → Except (Located ResolutionError) Int64
  | .int value _ => return Int64.ofNat value
  | .char byte _ => return Int64.ofNat byte.toNat
  | .unary op operand _ => return op.apply (← operand.constant)
  | .binary op left right location => do
    -- A division by zero is found even where execution would leave it out.
    let left ← left.constant
    let right ← right.constant
    match op.result? left right with
    | some value => return value
    | none => throw ⟨.notConstant, location⟩
  | .name written => throw ⟨.notConstant, written.location⟩
  | .element _ _ location => throw ⟨.notConstant, location⟩
  | .call _ _ location => throw ⟨.notConstant, location⟩

/-- The value that a static variable starts with, made to fit its type. -/
def staticInitial (type : IntType) (length : Option Nat) :
    Option Ast.Expr → Except (Located ResolutionError) (Option Int64)
  | none => return none
  | some initial => do
    if length.isSome then throw ⟨.arrayInitializer, initial.location⟩
    return some (type.wrap (← initial.constant))

namespace Resolver

/-- Adds a static variable and gives its place. -/
def addStatic (storage : StaticVariable) : Resolver StaticId :=
  modifyGet fun tables =>
    (tables.statics.length, { tables with statics := tables.statics ++ [storage] })

/-- Declares a static variable under a given path. -/
def static (owner : Owner) (path : Path) (decl : Ast.StaticDecl) : Resolver StaticId := do
  let length ← declaredLength decl.length
  let initial ← staticInitial decl.type.value length decl.initial
  addStatic
    ⟨path, owner, decl.type.value, length, decl.volatile, initial, none, decl.name.location⟩

/-- Declares the static variables of a body. -/
def statics (owner : Owner) (path : Path) (scope : Scope) :
    List Ast.StaticDecl → Resolver Scope
  | [] => return scope
  | decl :: rest => do
    -- Faults of length and value come before those of the name.
    let id ← static owner (path.member decl.name.value) decl
    let scope ← scope.define decl.name (.static id)
    statics owner path scope rest

/-- Declares the parameters of a coroutine, which keep their values over suspensions. -/
def parameters (id : CoroutineId) (path : Path) : List Ast.Parameter → Resolver (List StaticId)
  | [] => return []
  | parameter :: rest => do
    let first ← addStatic
      ⟨path.member parameter.name.value, .coroutine id, parameter.type.value, none, false, none,
        none, parameter.name.location⟩
    return first :: (← parameters id path rest)

/-- Declares a coroutine, without its body, and gives its place. -/
def declareCoroutine (path : Path) (parent : Option CoroutineId) (thread : Option CoroutineId)
    (written : Ast.Coroutine) : Resolver CoroutineId := do
  -- The place is known before the coroutine is, because its parameters refer to it.
  let id := (← get).coroutines.length
  let parameters ← parameters id path written.parameters
  modify fun tables => { tables with
    coroutines := tables.coroutines ++
      [⟨path, parent, thread.getD id, parameters, [], none, .none, [], written.name.location⟩] }
  return id

/-- Declares the subroutines of a coroutine. -/
def declareSubroutines (path : Path) (parent thread : CoroutineId) (scope : Scope) :
    List Ast.Coroutine → Resolver Scope
  | [] => return scope
  | written :: rest => do
    let path' := path.member written.name.value
    let id ← declareCoroutine path' (some parent) (some thread) written
    let scope ← scope.define written.name (.coroutine id)
    declareSubroutines path parent thread scope rest

/-- Resolves the statements of a body whose other declarations are known. -/
def statements (outer : List Scope) (role : BodyRole) (names : BodyNames)
    (written : List Ast.Statement) : Resolver (List Stmt × BodyNames) := do
  let around : Surroundings := ⟨← get, outer, role⟩
  around.statements false names written

mutual

/--
Resolves the body of a declared coroutine.

Its subroutines come before its statements, so that they see none of its local variables.
-/
def coroutine (outer : List Scope) (id : CoroutineId) : Ast.Coroutine → Resolver Unit
  | ⟨_, written, statics, subroutines, body⟩ => do
    let known := (← get).coroutines.getD id default
    let named := (written.zip known.parameters).map fun (parameter, id) =>
      (parameter.name, Entity.static id)
    let scope ← Scope.defineAll [] named
    let scope ← Resolver.statics (.coroutine id) known.path scope statics
    -- Subroutines are declared one behind the other, so their places follow from the first.
    let first := (← get).coroutines.length
    let scope ← declareSubroutines known.path id known.thread scope subroutines
    coroutines (scope :: outer) first subroutines
    -- Only now do local variables join the scope, when no subroutine can see them.
    let (body, names) ← statements outer .coroutine ⟨scope, []⟩ body
    modify fun tables => { tables with
      coroutines := tables.coroutines.modify id fun known =>
        { known with locals := names.locals, body }
      members := (.coroutine id, names.scope) :: tables.members }

/-- Resolves the bodies of coroutines that were declared one after the other. -/
def coroutines (outer : List Scope) (id : CoroutineId) : List Ast.Coroutine → Resolver Unit
  | [] => return ()
  | written :: rest => do
    coroutine outer id written
    coroutines outer (id + 1) rest

end

/-- Declares what a body other than a coroutine's declares; it has no subroutines. -/
def routineStatics (owner : Owner) (name : String) (scope : Scope) (body : Ast.Body) :
    Resolver Scope := do
  match body.subroutines with
  | [] => statics owner (.ofName name) scope body.statics
  -- The first subroutine is told before any other fault of the body.
  | first :: _ => throw ⟨.subroutineOutsideThread first.name.value, first.name.location⟩

/-- A parameter of a function as one of its local variables. -/
def parameterLocal (parameter : Ast.Parameter) : Local :=
  ⟨parameter.name.value, parameter.type.value, none, none, parameter.name.location⟩

/-- Resolves the body of a declared function. -/
def function (id : FunctionId) (written : Ast.Function) : Resolver Unit := do
  let globals := (← get).globals
  -- Parameters are the first local variables, in the same order.
  let named := written.parameters.mapIdx fun id parameter =>
    (parameter.name, Entity.localVar id)
  let scope ← Scope.defineAll [] named
  let scope ← routineStatics (.function id) written.name.value scope written.body
  let role := BodyRole.function written.name.value (written.returns.map Located.value)
  let (body, names) ← statements [globals] role
    ⟨scope, written.parameters.map parameterLocal⟩ written.body.statements
  modify fun tables => { tables with
    functions := tables.functions.modify id fun known =>
      { known with locals := names.locals, body }
    members := (.function id, names.scope) :: tables.members }

/-- Resolves the body of a declared hook. -/
def hook (id : HookId) (name : String) (written : Ast.Body) : Resolver Unit := do
  let globals := (← get).globals
  let scope ← routineStatics (.hook id) name [] written
  let (body, names) ← statements [globals] .routine ⟨scope, []⟩ written.statements
  modify fun tables => { tables with
    hooks := tables.hooks.modify id fun known => { known with locals := names.locals, body }
    members := (.hook id, names.scope) :: tables.members }

/-- Resolves the body of the entry point. -/
def entry (location : Location) (written : Ast.Body) : Resolver Unit := do
  let globals := (← get).globals
  let scope ← routineStatics .entry "main" [] written
  let (body, names) ← statements [globals] .routine ⟨scope, []⟩ written.statements
  modify fun tables => { tables with entry := some ⟨names.locals, body, location⟩ }

/-- A body that waits until every global name is known. -/
inductive Pending where
  | thread (id : CoroutineId) (written : Ast.Coroutine)
  | function (id : FunctionId) (written : Ast.Function)
  | hook (id : HookId) (name : String) (written : Ast.Body)
  | entry (location : Location) (written : Ast.Body)

/-- Resolves a body that has waited. -/
def Pending.resolve : Pending → Resolver Unit
  | .thread id written => do coroutine [(← get).globals] id written
  | .function id written => Resolver.function id written
  | .hook id name written => Resolver.hook id name written
  | .entry location written => Resolver.entry location written

/-- Adds a name to the top level. -/
def defineGlobal (name : Located String) (entity : Entity) : Resolver Unit := do
  let globals ← (← get).globals.define name entity
  modify fun tables => { tables with globals }

/-- The profile that a name stands for. -/
def profile : Option (Located String) → Except (Located ResolutionError) Profile
  | none => return .size
  | some name =>
    if sameWord name.value "size" then return .size
    else if sameWord name.value "speed" then return .speed
    else throw ⟨.unknownProfile name.value, name.location⟩

/-- Declares an item of the top level and gives its body, which is resolved later. -/
def declare : Ast.Item → Resolver (Option Pending)
  | .header name => do
    modify fun tables => { tables with headers := tables.headers ++ [name.value] }
    return none
  | .external name kind => do
    let id := (← get).externals.length
    modify fun tables => { tables with
      externals := tables.externals ++ [⟨name.value, kind, name.location⟩] }
    defineGlobal name (.external id)
    return none
  | .static decl => do
    let id ← static .global (.ofName decl.name.value) decl
    defineGlobal decl.name (.static id)
    return none
  | .function written => do
    let id := (← get).functions.length
    modify fun tables => { tables with
      functions := tables.functions ++
        [⟨written.name.value, written.parameters.length, written.returns.map Located.value,
          written.parameters.map parameterLocal, .none, [], written.name.location⟩] }
    defineGlobal written.name (.function id)
    return some (.function id written)
  | .thread written => do
    let id ← declareCoroutine (.ofName written.name.value) none none written
    defineGlobal written.name (.coroutine id)
    return some (.thread id written)
  | .hook name kind body => do
    let id := (← get).hooks.length
    modify fun tables => { tables with
      hooks := tables.hooks ++ [⟨name.value, kind, [], .none, [], name.location⟩] }
    defineGlobal name (.hook id)
    return some (.hook id name.value body)
  | .entry location body => do
    -- The place is taken at once, so that a second entry point is refused.
    if (← get).entry.isSome then throw ⟨.duplicateName "main", location⟩
    modify fun tables => { tables with entry := some ⟨[], [], location⟩ }
    return some (.entry location body)
  | .cflags name requested => do
    if (← get).flags.isSome then throw ⟨.duplicateName "cflags", name.location⟩
    let profile ← profile requested
    modify fun tables => { tables with flags := some ⟨name.value, profile⟩ }
    return none
  | .useReg .. => return none
  | .tune .. => return none

/-- Declares items in the order of the text. -/
def declareAll : List Ast.Item → Resolver (List Pending)
  | [] => return []
  | item :: rest => do
    let pending ← declare item
    return pending.toList ++ (← declareAll rest)

end Resolver

end Coro
