import Coro.Emit.Body
import Coro.Registers

/-!
The scheduler of the generated file.

A pass runs the hooks of every pass, lets each thread go on once, and uses up at most one tick, so
that no tick is lost when a pass takes longer.
-/

namespace Coro.Emit

/-- What one tick does: run hooks and, every so often, what the next longer interval does. -/
inductive Dispatch where
  | last (hooks : List HookId)
  | level (hooks : List HookId) (next : Interval) (rest : Dispatch)
deriving Repr, Inhabited

/-- What one tick of an interval does, with the longer intervals to count. -/
def Dispatch.ofIntervals (model : Model) (interval : Interval) : List Interval → Dispatch
  | [] => .last (model.hooksOn (.every interval))
  | next :: rest => .level (model.hooksOn (.every interval)) next (.ofIntervals model next rest)

/-- The intervals on which hooks run. -/
def usedIntervals (model : Model) : List Interval :=
  model.hooks.filterMap fun hook =>
    match hook.kind with
    | .every interval => some interval
    | _ => none

/-- The intervals that are counted: all but the shortest, up to the longest in use. -/
def countedIntervals (model : Model) : List Interval :=
  -- Intervals without hooks are counted too when a longer one depends on them.
  Interval.all.filter fun interval =>
    interval ≠ .decisecond ∧ (usedIntervals model).any fun used => interval.rank ≤ used.rank

/-- What one tick does, if there are periodic hooks. -/
def dispatch? (model : Model) : Option Dispatch :=
  if (usedIntervals model).isEmpty then none
  else some (.ofIntervals model .decisecond (countedIntervals model))

/-- The calls of hooks. -/
def hookCalls (program : Program) (hooks : List HookId) : List String :=
  hooks.map fun hook => hookSymbol program hook ++ "();"

/-- The lines of what one tick does. -/
def dispatchLines (program : Program) : Dispatch → List String
  | .last hooks => hookCalls program hooks
  | .level hooks next rest =>
    -- The counter starts anew before the longer interval has its turn.
    let counter := counterSymbol next
    hookCalls program hooks ++
    ["if (++" ++ counter ++ " == " ++ toString next.ratio ++ ") \x7b"] ++
    ((counter ++ " = 0;") :: dispatchLines program rest).map indent ++
    ["\x7d"]

/-- The variables of the periodic dispatch. -/
def clockStorage (target : Target) (model : Model) : List String :=
  if (usedIntervals model).isEmpty then []
  else
    let byte := target.storageType .u8
    ["extern volatile " ++ byte ++ " " ++ timebaseSymbol ++ ";",
     "static " ++ byte ++ " " ++ ticksSeenSymbol ++ ";"] ++
    (countedIntervals model).map fun interval =>
      "static " ++ byte ++ " " ++ counterSymbol interval ++ ";"

/-- Sets what registers hold, which nothing else initializes. -/
def bindingLine (program : Program) (binding : Binding) : String :=
  let (symbol, initial) := match binding.storage with
    | .static id =>
      let storage := program.model.statics.getD id default
      (storage.path.symbol, (storage.initial.getD 0).toInt)
    | .state id => (stateSymbol program id, 0)
  symbol ++ " = " ++ toString initial ++ ";"

/-- The lines of one pass. -/
def passLines (program : Program) : List String :=
  let threads := program.model.threads.map fun thread => stepSymbol program thread ++ "();"
  let periodic := match dispatch? program.model with
    | none => []
    | some dispatch =>
      ["if (" ++ ticksSeenSymbol ++ " != " ++ timebaseSymbol ++ ") \x7b"] ++
      (("++" ++ ticksSeenSymbol ++ ";") :: dispatchLines program dispatch).map indent ++
      ["\x7d"]
  hookCalls program (program.model.hooksOn .runnable) ++ threads ++ periodic

/-- The function that starts the program and never returns. -/
def mainLines (program : Program) (plan : Plan) : List String :=
  -- Registers are set first, because hooks may already read them.
  let boot := plan.bindings.map (bindingLine program) ++
    hookCalls program (program.model.hooksOn .init) ++ [entrySymbol ++ "();"]
  let forever := ["for (;;) \x7b"] ++ (passLines program).map indent ++ ["\x7d"]
  ["int main(void)", "\x7b"] ++ boot.map indent ++ [""] ++ forever.map indent ++ ["\x7d"]

end Coro.Emit
