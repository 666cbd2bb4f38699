import Coro.Machine.Run
import Coro.Program.Lowering

/-!
Bodies carried out as they are written, statement by statement.

Every statement tells how it is left. A body that was suspended goes on at one of its suspension
points, which are counted in the order of the text. Nothing bounds the rounds of a loop, so every
run is given a number of rounds that each loop may take.
-/

namespace Coro

/-- Steps of a body, which has local variables of its own. -/
abbrev BodyStep (σ κ : Type) := StateT Frame (ExecWith σ κ)

/-- How a statement is left. -/
inductive Exit where
  | next
  | breakLoop
  | continueLoop
  /-- The body is left, for now or for good. -/
  | leave (value : Option Int64)
deriving Repr, DecidableEq

/-- What the statements of a body can do. -/
structure Actions (σ κ : Type) where
  /-- The parameters of each subroutine. -/
  parameters : CoroutineId → List StaticId
  eval : Expr → BodyStep σ κ Int64
  assign : Place → Option BinaryOp → Expr → BodyStep σ κ Unit
  /-- Keeps the point at which the body goes on. -/
  suspendAt : Point → BodyStep σ κ Unit
  /-- Lets a subroutine go on, and tells whether it has ended. -/
  drive : CoroutineId → BodyStep σ κ Bool
  /-- Keeps that the body has come to its end. -/
  finish : BodyStep σ κ Unit

namespace Actions

variable {σ κ : Type}

/-- Goes on with the next statement if one was left in the usual way. -/
def thenDo (first next : BodyStep σ κ Exit) : BodyStep σ κ Exit := do
  match ← first with
  | .next => next
  | exit => return exit

/-- Carries out a round and then others of the same loop, as long as none leaves it. -/
def repeatFrom (round : BodyStep σ κ Exit) (rounds : Nat) (current : BodyStep σ κ Exit) :
    BodyStep σ κ Exit := do
  match ← current with
  | .breakLoop => return .next
  | .leave value => return .leave value
  | _ =>
    match rounds with
    | 0 => throw .outOfFuel
    | rounds + 1 => repeatFrom round rounds round

variable (actions : Actions σ κ)

/-- Leaves the body as long as a condition does not hold. -/
def wait (condition : Expr) : BodyStep σ κ Exit := do
  if (← actions.eval condition) = 0 then return .leave none
  return .next

/-- Lets a subroutine go on, and leaves the body as long as it has not ended. -/
def await (callee : CoroutineId) : BodyStep σ κ Exit := do
  if ← actions.drive callee then return .next
  return .leave none

/-- Stores arguments, from left to right, where a subroutine finds them. -/
def pass (callee : CoroutineId) (args : List Expr) : BodyStep σ κ Unit :=
  ((actions.parameters callee).zip args).forM fun (parameter, arg) =>
    actions.assign ⟨.static parameter, none⟩ none arg

/-- A round of a loop with a condition. -/
def guarded (condition : Expr) (body : BodyStep σ κ Exit) : BodyStep σ κ Exit := do
  if (← actions.eval condition) = 0 then return .breakLoop
  body

mutual

/-- Carries out a statement, whose suspension points are counted from a first one on. -/
def exec (fuel : Nat) (point : Point) : Stmt → BodyStep σ κ Exit
  -- A variable without a first value keeps the one it has.
  | .letVar _ none => return .next
  | .letVar id (some value) => do
    actions.assign ⟨.localVar id, none⟩ none value
    return .next
  | .yield _ => do
    actions.suspendAt point
    return .leave none
  | .waitUntil condition _ _ => do
    actions.suspendAt point
    actions.wait condition
  | .call callee args _ => do
    actions.pass callee args
    actions.suspendAt point
    actions.await callee
  | .ifThen condition taken otherwise => do
    if (← actions.eval condition) = 0 then
      execAll fuel (point + Stmt.pointCounts taken) otherwise
    else execAll fuel point taken
  | .whileLoop condition body =>
    let round := actions.guarded condition (execAll fuel point body)
    repeatFrom round fuel round
  | .loop body =>
    let round := execAll fuel point body
    repeatFrom round fuel round
  | .breakLoop => return .breakLoop
  | .continueLoop => return .continueLoop
  | .returnFrom none => do
    actions.finish
    return .leave none
  | .returnFrom (some value) => return .leave (some (← actions.eval value))
  | .assign place op value => do
    actions.assign place op value
    return .next
  | .eval expr => do
    let _ ← actions.eval expr
    return .next

/-- Carries out statements one after the other. -/
def execAll (fuel : Nat) (point : Point) : List Stmt → BodyStep σ κ Exit
  | [] => return .next
  | first :: rest =>
    thenDo (exec fuel point first) (execAll fuel (point + first.pointCount) rest)

end

mutual

/-- Goes on inside a statement at one of its suspension points. -/
def resume (fuel : Nat) (point target : Point) : Stmt → BodyStep σ κ Exit
  | .waitUntil condition _ _ => actions.wait condition
  -- The arguments were stored when the call began.
  | .call callee _ _ => actions.await callee
  | .ifThen _ taken otherwise =>
    if target < point + Stmt.pointCounts taken then resumeAll fuel point target taken
    else resumeAll fuel (point + Stmt.pointCounts taken) target otherwise
  | .whileLoop condition body =>
    let round := actions.guarded condition (actions.execAll fuel point body)
    repeatFrom round fuel (resumeAll fuel point target body)
  | .loop body =>
    repeatFrom (actions.execAll fuel point body) fuel (resumeAll fuel point target body)
  | _ => return .next

/-- Goes on inside statements at one of their suspension points. -/
def resumeAll (fuel : Nat) (point target : Point) : List Stmt → BodyStep σ κ Exit
  | [] => return .next
  | first :: rest =>
    if target < point + first.pointCount then
      thenDo (resume fuel point target first)
        (actions.execAll fuel (point + first.pointCount) rest)
    else resumeAll fuel (point + first.pointCount) target rest

end

/-- The value of a body that is left in some way; behind its last statement it finishes. -/
def leaving : Exit → BodyStep σ κ (Option Int64)
  | .leave value => return value
  | _ => do
    actions.finish
    return none

/-- Carries out a body from its beginning or from a suspension point, until it is left. -/
def runFrom (fuel : Nat) (body : List Stmt) (point : Option Point) :
    BodyStep σ κ (Option Int64) := do
  let exit ← match point with
    | none => actions.execAll fuel 0 body
    | some target => actions.resumeAll fuel 0 target body
  actions.leaving exit

end Actions

/-- A way to keep the states of coroutines, and what bodies can do in it. -/
structure World (σ κ : Type) where
  model : Model
  /-- What the bodies of functions, hooks and the entry point can do. -/
  routine : Callees σ κ → Actions σ κ
  /-- What the body of a coroutine can do. -/
  coroutine : Callees σ κ → CoroutineId → Actions σ κ
  /-- The point at which a coroutine is suspended, if it is. -/
  point? : CoroutineId → ExecWith σ κ (Option Point)

namespace World

open Exec

variable {σ κ : Type} (world : World σ κ)

/-- Carries out a body that has no state, with arguments for its first local variables. -/
def runBody (fuel : Nat) (callees : Callees σ κ) (locals : List Local) (body : List Stmt)
    (args : List Int64) : ExecWith σ κ (Option Int64) := do
  let (value, _) ←
    enter (((world.routine callees).runFrom fuel body none).run (.enter locals args))
  return value

/-- Carries out a function, whose value is zero if it returns none. -/
def runFunction (fuel : Nat) (callees : Callees σ κ) (id : FunctionId) (args : List Int64) :
    ExecWith σ κ Int64 := do
  let function ← require world.model.functions[id]?
  let value ← world.runBody fuel callees function.locals function.body (args.take function.arity)
  return value.getD 0

/-- Lets a coroutine go on until it is suspended or ends. -/
def runCoroutine (fuel : Nat) (callees : Callees σ κ) (id : CoroutineId) :
    ExecWith σ κ Unit := do
  let coroutine ← require world.model.coroutines[id]?
  let point ← world.point? id
  let _ ← enter (((world.coroutine callees id).runFrom fuel coroutine.body point).run (.enter [] []))

/-- What a body can start when so many can be started inside each other. -/
def callees (fuel : Nat) : Nat → Callees σ κ
  | 0 =>
    ⟨fun _ _ => throw (.fault .callDepthExceeded), fun _ => throw (.fault .callDepthExceeded)⟩
  | levels + 1 =>
    let inner := callees fuel levels
    ⟨world.runFunction fuel inner, world.runCoroutine fuel inner⟩

/-- Lets a coroutine go on. -/
def step (fuel : Nat) (id : CoroutineId) : ExecWith σ κ Unit :=
  world.runCoroutine fuel (world.callees fuel maxDepth) id

end World

/-- Where a coroutine is in its body. -/
inductive Whereabouts where
  /-- Has not started, or has started again. -/
  | idle
  | suspended (point : Point)
  /-- A subroutine that has ended. -/
  | ended
deriving Repr, DecidableEq, Inhabited

/-- The point at which a coroutine is suspended, if it is. -/
def Whereabouts.point? : Whereabouts → Option Point
  | suspended point => some point
  | idle | ended => none

/-- A coroutine between two steps: where it is, and the values of its local variables. -/
structure Activity where
  whereabouts : Whereabouts
  memory : Memory
deriving Inhabited

/-- The local variables of a coroutine; a fault tells their full paths. -/
def Coroutine.frame (coroutine : Coroutine) (memory : Memory) : Frame where
  locals := coroutine.locals.map fun known =>
    { known with name := (coroutine.path.member known.name).dotted }
  memory := memory

namespace Exec

variable {σ : Type}

/-- What a coroutine is doing. -/
def activity (id : CoroutineId) : ExecWith σ Activity Activity := do
  require (← get).states[id]?

/-- Changes what a coroutine is doing. -/
def setActivity (id : CoroutineId) (activity : Activity) : ExecWith σ Activity Unit :=
  modify fun machine => { machine with states := machine.states.setIfInBounds id activity }

/-- Moves a coroutine to another place of its body. -/
def move (id : CoroutineId) (whereabouts : Whereabouts) : ExecWith σ Activity Unit := do
  setActivity id { ← activity id with whereabouts }

/-- The local variables of a coroutine. -/
def ownFrame (model : Model) (id : CoroutineId) : ExecWith σ Activity Frame := do
  let coroutine ← require model.coroutines[id]?
  return coroutine.frame (← activity id).memory

/-- Assigns the value of an expression in the body of a coroutine. -/
def assignOwn [Host σ] (model : Model) (callees : Callees σ Activity) (id : CoroutineId)
    (place : Place) (op : Option BinaryOp) (value : Expr) : ExecWith σ Activity Unit := do
  let frame ← assign model callees (← ownFrame model id) place op value
  setActivity id { ← activity id with memory := frame.memory }

/-- Lets a subroutine go on, and tells whether it has ended. -/
def driveOn (callees : Callees σ Activity) (callee : CoroutineId) : ExecWith σ Activity Bool := do
  callees.coroutine callee
  -- The end is seen once: the next call finds the subroutine at its start.
  if (← activity callee).whereabouts ≠ .ended then return false
  move callee .idle
  return true

/-- The end of a coroutine: a thread starts again, a subroutine has ended. -/
def finishOwn (model : Model) (id : CoroutineId) : ExecWith σ Activity Unit := do
  let coroutine ← require model.coroutines[id]?
  move id (if coroutine.isThread then .idle else .ended)

end Exec

namespace Model

open Exec

variable {σ : Type} [Host σ]

/-- What the body of a function, a hook or the entry point can do; it is never suspended. -/
def routineActions {κ : Type} (model : Model) (callees : Callees σ κ) : Actions σ κ where
  parameters := model.parameters
  eval expr := do StateT.lift (Exec.eval model callees (← get) expr)
  assign place op value := do
    set (← StateT.lift (Exec.assign model callees (← get) place op value))
  suspendAt _ := throw .dangling
  drive _ := throw .dangling
  finish := pure ()

/-- What the body of a coroutine can do, whose local variables outlive its suspensions. -/
def coroutineActions (model : Model) (callees : Callees σ Activity) (id : CoroutineId) :
    Actions σ Activity where
  parameters := model.parameters
  eval expr := StateT.lift do Exec.eval model callees (← ownFrame model id) expr
  assign place op value := StateT.lift (assignOwn model callees id place op value)
  suspendAt point := StateT.lift (move id (.suspended point))
  drive callee := StateT.lift (driveOn callees callee)
  finish := StateT.lift (finishOwn model id)

/-- Coroutines that keep their own local variables. -/
def world (model : Model) : World σ Activity where
  model := model
  routine := model.routineActions
  coroutine := model.coroutineActions
  point? id := do return (← activity id).whereabouts.point?

/-- Carries out a step of a coroutine as its body is written. -/
def step (model : Model) (fuel : Nat) (id : CoroutineId) : ExecWith σ Activity Unit :=
  model.world.step fuel id

end Model

/-- The machine before the bodies of a model are carried out. -/
def Model.start {σ : Type} (model : Model) (host : σ) : Machine σ Activity where
  statics := initialMemory model.statics
  states := (model.coroutines.map fun coroutine =>
    ⟨.idle, (Frame.enter coroutine.locals []).memory⟩).toArray
  clock := .start
  passes := 0
  depth := 0
  host := host

end Coro
