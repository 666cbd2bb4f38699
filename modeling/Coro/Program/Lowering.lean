import Coro.Program.Instr

/-!
Turning bodies into flat code.

Labels and suspension points are numbered in the order of the text, so that the code of a statement
depends on its surroundings only through the first numbers it may use.
-/

namespace Coro

/-- Why a model has no code. -/
inductive LoweringError where
  | suspensionLimitExceeded (path : String)
deriving Repr, DecidableEq, Inhabited

/-- The text of a fault. -/
def LoweringError.message : LoweringError → String
  | suspensionLimitExceeded path =>
    "Coroutine `" ++ path ++ "` exceeds the limit of " ++ toString maxPoints ++
      " suspension points"

mutual

/-- The expression with its variables replaced. -/
def Expr.mapVars (rename : Var → Var) : Expr → Expr
  | .const value => .const value
  | .read var => .read (rename var)
  | .element var index => .element (rename var) (index.mapVars rename)
  | .call callee args => .call callee (Expr.mapVarsAll rename args)
  | .unary op operand => .unary op (operand.mapVars rename)
  | .binary op left right => .binary op (left.mapVars rename) (right.mapVars rename)

/-- Expressions with their variables replaced. -/
def Expr.mapVarsAll (rename : Var → Var) : List Expr → List Expr
  | [] => []
  | first :: rest => first.mapVars rename :: Expr.mapVarsAll rename rest

end

/-- The place with its variables replaced. -/
def Place.mapVars (rename : Var → Var) (place : Place) : Place :=
  ⟨rename place.var, place.index.map (Expr.mapVars rename)⟩

mutual

/-- An expression whose variables stay where they are. -/
theorem Expr.mapVars_id (expr : Expr) : expr.mapVars id = expr := by
  cases expr with
  | const value => rfl
  | read var => rfl
  | element var index => simp [Expr.mapVars, Expr.mapVars_id index]
  | call callee args => simp [Expr.mapVars, Expr.mapVarsAll_id args]
  | unary op operand => simp [Expr.mapVars, Expr.mapVars_id operand]
  | binary op left right => simp [Expr.mapVars, Expr.mapVars_id left, Expr.mapVars_id right]

/-- Expressions whose variables stay where they are. -/
theorem Expr.mapVarsAll_id (exprs : List Expr) : Expr.mapVarsAll id exprs = exprs := by
  cases exprs with
  | nil => rfl
  | cons first rest => simp [Expr.mapVarsAll, Expr.mapVars_id first, Expr.mapVarsAll_id rest]

end

/-- A place whose variables stay where they are. -/
theorem Place.mapVars_id (place : Place) : place.mapVars id = place := by
  have kept : Expr.mapVars id = id := funext Expr.mapVars_id
  simp [Place.mapVars, kept]

mutual

/-- The number of labels that a statement uses. -/
def Stmt.labelCount : Stmt → Nat
  | .ifThen _ taken otherwise =>
    1 + Stmt.labelCounts taken +
      if otherwise.isEmpty then 0 else 1 + Stmt.labelCounts otherwise
  | .whileLoop _ body => 2 + Stmt.labelCounts body
  | .loop body => 2 + Stmt.labelCounts body
  | _ => 0

/-- The number of labels that statements use. -/
def Stmt.labelCounts : List Stmt → Nat
  | [] => 0
  | first :: rest => first.labelCount + Stmt.labelCounts rest

end

mutual

/-- The number of suspension points that a statement has. -/
def Stmt.pointCount : Stmt → Nat
  | .yield _ => 1
  | .waitUntil .. => 1
  | .call .. => 1
  | .ifThen _ taken otherwise => Stmt.pointCounts taken + Stmt.pointCounts otherwise
  | .whileLoop _ body => Stmt.pointCounts body
  | .loop body => Stmt.pointCounts body
  | _ => 0

/-- The number of suspension points that statements have. -/
def Stmt.pointCounts : List Stmt → Nat
  | [] => 0
  | first :: rest => first.pointCount + Stmt.pointCounts rest

end

mutual

/-- The suspension points of a statement, in the order of the text. -/
def Stmt.points (rename : Var → Var) : Stmt → List SuspensionPoint
  | .yield location => [⟨.yield, location⟩]
  | .waitUntil condition hint location =>
    [⟨.waitUntil (condition.mapVars rename) hint, location⟩]
  | .call callee _ location => [⟨.call callee, location⟩]
  | .ifThen _ taken otherwise =>
    Stmt.pointsAll rename taken ++ Stmt.pointsAll rename otherwise
  | .whileLoop _ body => Stmt.pointsAll rename body
  | .loop body => Stmt.pointsAll rename body
  | _ => []

/-- The suspension points of statements, in the order of the text. -/
def Stmt.pointsAll (rename : Var → Var) : List Stmt → List SuspensionPoint
  | [] => []
  | first :: rest => first.points rename ++ Stmt.pointsAll rename rest

end

mutual

/-- The points of a statement are as many as are counted. -/
theorem Stmt.length_points (rename : Var → Var) (statement : Stmt) :
    (statement.points rename).length = statement.pointCount := by
  -- A suspension is one point, and a block has those of its statements.
  cases statement <;> simp [Stmt.points, Stmt.pointCount, Stmt.length_pointsAll]

/-- The points of statements are as many as are counted. -/
theorem Stmt.length_pointsAll (rename : Var → Var) (statements : List Stmt) :
    (Stmt.pointsAll rename statements).length = Stmt.pointCounts statements := by
  cases statements with
  | nil => rfl
  -- The points of the first statement come before all others.
  | cons first rest =>
    simp [Stmt.pointsAll, Stmt.pointCounts, Stmt.length_points, Stmt.length_pointsAll]

end

/-- The labels of the innermost loop. -/
structure LoopLabels where
  /-- Where the loop starts anew. -/
  head : Label
  /-- What stands behind the loop. -/
  exit : Label
deriving Repr, DecidableEq

/-- What the code of a body depends on besides its statements. -/
structure BodyContext where
  /-- Where each variable of the body is kept. -/
  rename : Var → Var
  /-- The parameters of each subroutine. -/
  parameters : CoroutineId → List StaticId
  isCoroutine : Bool

namespace BodyContext

/-- Stores arguments, from left to right, where a subroutine finds them. -/
def passArguments (context : BodyContext) (callee : CoroutineId) (args : List Expr) : Code :=
  ((context.parameters callee).zip args).map fun (parameter, arg) =>
    .assign ⟨.static parameter, none⟩ none (arg.mapVars context.rename)

mutual

/-- The code of a statement, with the first label and the first point that it may use. -/
def code (context : BodyContext) (loop : Option LoopLabels) (label : Label) (point : Point) :
    Stmt → Code
  | .letVar _ none => []
  | .letVar id (some value) =>
    [.assign ⟨context.rename (.localVar id), none⟩ none (value.mapVars context.rename)]
  | .yield _ => [.setState point, .suspend, .resume point]
  | .waitUntil condition hint _ =>
    [.setState point, .resume point, .returnUnless (condition.mapVars context.rename) hint]
  | .call callee args _ =>
    -- Arguments are stored by the fresh call only: going on starts behind them.
    context.passArguments callee args ++ [.setState point, .resume point, .drive callee]
  | .ifThen condition taken otherwise =>
    let inner := context.codes loop (label + 1) point taken
    -- The label behind the whole is numbered after those of the taken branch.
    let behind := label + 1 + Stmt.labelCounts taken
    .jumpIfFalse (condition.mapVars context.rename) label :: inner ++
      if otherwise.isEmpty then [.setLabel label]
      else
        [.jump behind, .setLabel label] ++
        context.codes loop (behind + 1) (point + Stmt.pointCounts taken) otherwise ++
        [.setLabel behind]
  | .whileLoop condition body =>
    -- The first label starts the loop anew, and the second stands behind it.
    [.setLabel label, .jumpIfFalse (condition.mapVars context.rename) (label + 1)] ++
    context.codes (some ⟨label, label + 1⟩) (label + 2) point body ++
    [.jump label, .setLabel (label + 1)]
  | .loop body =>
    let inner := context.codes (some ⟨label, label + 1⟩) (label + 2) point body
    -- Without a way out, nothing stands behind the loop.
    let leaves := inner.any fun instr => instr.jumps? == some (label + 1)
    .setLabel label :: inner ++ [.jump label] ++ if leaves then [.setLabel (label + 1)] else []
  | .breakLoop => (loop.map fun labels => .jump labels.exit).toList
  | .continueLoop => (loop.map fun labels => .jump labels.head).toList
  | .returnFrom value =>
    if context.isCoroutine && value.isNone then [.finish]
    else [.returnFrom (value.map (Expr.mapVars context.rename))]
  | .assign place op value =>
    [.assign (place.mapVars context.rename) op (value.mapVars context.rename)]
  | .eval expr => [.eval (expr.mapVars context.rename)]

/-- The code of statements, one behind the other. -/
def codes (context : BodyContext) (loop : Option LoopLabels) (label : Label) (point : Point) :
    List Stmt → Code
  | [] => []
  | first :: rest =>
    -- What follows uses the numbers that the first statement leaves.
    context.code loop label point first ++
      context.codes loop (label + first.labelCount) (point + first.pointCount) rest

end

end BodyContext

/-- The parameters of a subroutine. -/
def Model.parameters (model : Model) (id : CoroutineId) : List StaticId :=
  (model.coroutines[id]?.map Coroutine.parameters).getD []

/-- The code of a function, a hook or the entry point. -/
def Model.routineCode (model : Model) (body : List Stmt) : Code :=
  BodyContext.codes ⟨id, model.parameters, false⟩ none 0 0 body

/-- The static variables that keep the local variables of a coroutine over suspensions. -/
def Coroutine.hoistedLocals (coroutine : Coroutine) (id : CoroutineId) : List StaticVariable :=
  coroutine.locals.map fun known =>
    ⟨coroutine.path.member known.name, .coroutine id, known.type, known.length, false, none,
      known.hint, known.location⟩

/-- The model with static variables for the local variables of its coroutines. -/
def Model.hoist (model : Model) : Model :=
  -- Declared variables keep their places, and the new ones come behind them.
  { model with
    statics := model.statics ++
      model.coroutines.zipIdx.flatMap fun (coroutine, id) => coroutine.hoistedLocals id }

/-- Where so many local variables of a coroutine are kept, from a first static variable on. -/
def hoistVar (first : StaticId) (count : Nat) : Var → Var
  | .localVar id => if count = 0 then .localVar id else .static (first + id)
  | var => var

/-- The state machine of a coroutine whose local variables are kept from a place on. -/
def Model.stateMachine (model : Model) (first : StaticId) (coroutine : Coroutine) :
    Except (Located LoweringError) StateMachine :=
  -- The first point above the limit is where the fault is told.
  let rename := hoistVar first coroutine.locals.length
  let points := Stmt.pointsAll rename coroutine.body
  match points[maxPoints]? with
  | some excess => throw ⟨.suspensionLimitExceeded coroutine.path.dotted, excess.location⟩
  | none =>
    let context : BodyContext := ⟨rename, model.parameters, true⟩
    return ⟨points, context.codes none 0 0 coroutine.body ++ [.finish],
      List.range' first coroutine.locals.length⟩

/-- The state machines of coroutines whose local variables are kept from a place on. -/
def Model.stateMachines (model : Model) (first : StaticId) :
    List Coroutine → Except (Located LoweringError) (List StateMachine)
  | [] => return []
  | coroutine :: rest => do
    let machine ← model.stateMachine first coroutine
    return machine :: (← model.stateMachines (first + coroutine.locals.length) rest)

/-- The program of a model. -/
def Model.lower (model : Model) : Except (Located LoweringError) Program := do
  -- Only the code of coroutines refers to the variables that are added.
  let machines ← model.stateMachines model.statics.length model.coroutines
  return {
    model := model.hoist
    coroutines := machines
    functions := model.functions.map fun function => model.routineCode function.body
    hooks := model.hooks.map fun hook => model.routineCode hook.body
    entry := model.routineCode model.entry.body }

end Coro
