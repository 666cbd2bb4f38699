import Coro.Machine.Bench
import Coro.Machine.Command

/-! What the command line shows of a simulated program. -/

namespace Coro.CommandLine

/-- A state as it is shown. -/
def stateText : CoroutineState → String
  | .idle => "Idle"
  | .running point => "Running(Point(" ++ toString point ++ "))"
  | .awaiting point callee =>
    "AwaitingCallee \x7b point: Point(" ++ toString point ++ "), callee: UnitId(" ++
      toString callee ++ ") \x7d"
  | .done => "Done"

/-- A text filled up with blanks. -/
def padRight (width : Nat) (text : String) : String :=
  text ++ String.ofList (List.replicate (width - text.length) ' ')

/-- The lines that show a machine after a run. -/
def machineLines (program : Program) (machine : Machine Bench) : List String :=
  let states := program.model.coroutines.mapIdx fun id coroutine =>
    let state := (machine.coroutineState? program id).getD .idle
    "  " ++ padRight 24 coroutine.path.dotted ++ " " ++ stateText state
  let writes := machine.host.writes.map fun (name, value) =>
    "  write " ++ name ++ " = " ++ toString value.toInt
  let calls := machine.host.calls.map fun (name, args) =>
    "  call " ++ name ++ "[" ++ ", ".intercalate (args.map fun arg => toString arg.toInt) ++ "]"
  ["after " ++ toString machine.passes ++ " passes:"] ++ states ++ writes ++ calls

/-- Why a simulation stopped. -/
def haltText : Halt → String
  | .fault fault => fault.message
  | .dangling => "The program refers to an entity that does not exist"
  | .outOfFuel => "The program takes too many instructions"

/-- What a simulation shows, or what stopped it and why. -/
def simulation (program : Program) (passes : Nat) : Except (String × String) String :=
  match (Machine.start program Bench.empty).obey program ampleFuel .boot with
  | (some halt, _) => throw ("Boot sequence faulted", haltText halt)
  | (none, machine) =>
    match machine.timedPasses program ampleFuel passes with
    | (some halt, machine) =>
      throw ("Scheduler pass " ++ toString (machine.passes + 1) ++ " faulted", haltText halt)
    | (none, machine) => return String.join ((machineLines program machine).map (· ++ "\n"))

end Coro.CommandLine
