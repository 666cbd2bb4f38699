import Coro.Program.Instr

/-! Names in the generated file. -/

namespace Coro.Emit

/-- The variable that holds the state of a coroutine. -/
def stateSymbol (program : Program) (id : CoroutineId) : String :=
  "hilos_state__" ++ (program.model.coroutines.getD id default).path.symbol

/-- The function that lets a coroutine go on. -/
def stepSymbol (program : Program) (id : CoroutineId) : String :=
  "hilos_step__" ++ (program.model.coroutines.getD id default).path.symbol

/-- The function of a hook. -/
def hookSymbol (program : Program) (id : HookId) : String :=
  "hilos_hook__" ++ (program.model.hooks.getD id default).name

/-- The function of the entry point. -/
def entrySymbol : String := "hilos_entry"

/-- The variable in which a timer counts ticks. -/
def timebaseSymbol : String := "timebase_ticks"

/-- The variable that counts the ticks the scheduler has seen. -/
def ticksSeenSymbol : String := "hilos_ticks_seen"

/-- The variable that counts towards an interval. -/
def counterSymbol (interval : Interval) : String :=
  "hilos_count__" ++ interval.name

/-- The label of a label. -/
def labelSymbol (label : Label) : String :=
  "l" ++ toString label

/-- The label where a suspended coroutine goes on. -/
def resumeSymbol (point : Point) : String :=
  "resume_" ++ toString point

end Coro.Emit
