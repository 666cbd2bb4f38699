import Coro.Machine.Clock
import Coro.Machine.Memory
import Coro.Program.Instr

/-! Machines that run programs. -/

namespace Coro

/-- The most bodies that may be active at once. -/
def maxDepth : Nat := 64

/-- Faults of the machine itself, which a device would not notice. -/
inductive Fault where
  | divisionByZero
  | indexOutOfBounds (name : String) (index : Int64)
  | callDepthExceeded
deriving Repr, DecidableEq, Inhabited

/-- The text of a fault. -/
def Fault.message : Fault → String
  | divisionByZero => "Division by zero"
  | indexOutOfBounds name index =>
    "Index " ++ toString index.toInt ++ " is out of bounds for `" ++ name ++ "`"
  | callDepthExceeded => "Call depth exceeded the limit of " ++ toString maxDepth

/-- Why a run stops before its end. -/
inductive Halt where
  | fault (fault : Fault)
  /-- The program refers to a place that none of its tables has. -/
  | dangling
  /-- The run was given too few instructions. -/
  | outOfFuel
deriving Repr, DecidableEq, Inhabited

/-- All that a run changes; states are numbers wherever nothing else is said. -/
structure Machine (σ : Type) (κ : Type := Nat) where
  /-- The values of the static variables. -/
  statics : Memory
  /-- The states of the coroutines. -/
  states : Array κ
  clock : Clock
  /-- The passes completed so far. -/
  passes : Nat
  /-- The bodies that are active. -/
  depth : Nat
  host : σ

/-- Steps of a run; what a step has changed stays changed when it stops. -/
abbrev ExecWith (σ κ : Type) := EStateM Halt (Machine σ κ)

/-- Steps of a run whose states are numbers. -/
abbrev Exec (σ : Type) := ExecWith σ Nat

/-- The machine before a program runs. -/
def Machine.start {σ : Type} (program : Program) (host : σ) : Machine σ where
  statics := initialMemory program.model.statics
  states := Array.replicate program.coroutines.length startState
  clock := .start
  passes := 0
  depth := 0
  host := host

/-- What a coroutine is doing. -/
inductive CoroutineState where
  /-- Has not started, or has started again. -/
  | idle
  /-- Suspended on its own. -/
  | running (point : Point)
  /-- Suspended until a subroutine ends. -/
  | awaiting (point : Point) (callee : CoroutineId)
  /-- A subroutine that has ended. -/
  | done
deriving Repr, DecidableEq, Inhabited

/-- What a coroutine in a given state is doing. -/
def StateMachine.describe (machine : StateMachine) (state : Nat) : CoroutineState :=
  if state = startState then .idle
  else
    -- Only a call tells whom it waits for.
    match pointOf? state machine.width with
    | none => .done
    | some point =>
      match machine.points[point]?.map SuspensionPoint.kind with
      | some (.call callee) => .awaiting point callee
      | _ => .running point

namespace Machine

variable {σ : Type}

/-- What a coroutine is doing. -/
def coroutineState? (machine : Machine σ) (program : Program) (id : CoroutineId) :
    Option CoroutineState := do
  let code ← program.coroutines[id]?
  return code.describe (← machine.states[id]?)

/-- What the coroutine with a given path is doing. -/
def stateOf? (machine : Machine σ) (program : Program) (path : String) :
    Option CoroutineState := do
  machine.coroutineState? program (← program.model.findCoroutine? path)

/-- An element of the static variable with a given path. -/
def element? (machine : Machine σ) (program : Program) (path : String) (index : Nat) :
    Option Int64 := do
  machine.statics.read? (← program.model.findStatic? path) index

/-- The value of the static variable with a given path. -/
def static? (machine : Machine σ) (program : Program) (path : String) : Option Int64 :=
  machine.element? program path 0

end Machine

end Coro
