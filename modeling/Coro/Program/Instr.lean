import Coro.Model
import Coro.Program.StateEncoding

/-! Flat code with labels, as it is generated and executed. -/

namespace Coro

/-- A place in code that can be jumped to, by its number. -/
abbrev Label := Nat

/-- Instructions. -/
inductive Instr where
  /-- The place of a label. -/
  | setLabel (label : Label)
  | jump (label : Label)
  | jumpIfFalse (condition : Expr) (label : Label)
  | assign (place : Place) (op : Option BinaryOp) (value : Expr)
  | eval (expr : Expr)
  /-- Keeps in the state where to go on. -/
  | setState (point : Point)
  /-- Returns to the caller. -/
  | suspend
  /-- The place where a suspended coroutine goes on. -/
  | resume (point : Point)
  /-- Returns to the caller as long as the condition does not hold. -/
  | returnUnless (condition : Expr) (hint : Option Likelihood)
  /-- Lets a subroutine go on, and returns to the caller unless it has ended. -/
  | drive (callee : CoroutineId)
  /-- The end of a coroutine: a thread starts again, a subroutine has ended. -/
  | finish
  | returnFrom (value : Option Expr)
deriving Repr, Inhabited

namespace Instr

/-- The label that is placed here, if one is. -/
def label? : Instr → Option Label
  | setLabel label => some label
  | _ => none

/-- The point that goes on here, if one does. -/
def resumes? : Instr → Option Point
  | resume point => some point
  | _ => none

/-- The label that is always jumped to, if there is one. -/
def jumps? : Instr → Option Label
  | jump label => some label
  | _ => none

end Instr

/-- Code of one body. -/
abbrev Code := List Instr

/-- Why a coroutine is suspended. -/
inductive PointKind where
  | yield
  | waitUntil (condition : Expr) (hint : Option Likelihood)
  | call (callee : CoroutineId)
deriving Repr, Inhabited

/-- A place where a coroutine can be suspended. -/
structure SuspensionPoint where
  kind : PointKind
  location : Location
deriving Repr, Inhabited

/-- A thread or a subroutine as a state machine. -/
structure StateMachine where
  /-- The suspension points by their numbers. -/
  points : List SuspensionPoint
  code : Code
  /-- The static variables that hold its local variables. -/
  hoisted : List StaticId
deriving Repr, Inhabited

/-- The size of the state. -/
def StateMachine.width (machine : StateMachine) : StateWidth :=
  .forPoints machine.points.length

/-- A call site: who calls, at which suspension point, and whom. -/
structure CallFrame where
  caller : CoroutineId
  point : Point
  callee : CoroutineId
deriving Repr, DecidableEq, Inhabited

/-- A model whose bodies have become code. -/
structure Program where
  model : Model
  /-- The coroutines of the model, in the same order. -/
  coroutines : List StateMachine
  /-- The functions of the model, in the same order. -/
  functions : List Code
  /-- The hooks of the model, in the same order. -/
  hooks : List Code
  entry : Code
deriving Repr, Inhabited

/-- The call sites of one coroutine. -/
def StateMachine.frames (machine : StateMachine) (caller : CoroutineId) : List CallFrame :=
  machine.points.zipIdx.filterMap fun (suspension, point) =>
    match suspension.kind with
    | .call callee => some ⟨caller, point, callee⟩
    | _ => none

/-- All call sites, ordered by caller and point. -/
def Program.frames (program : Program) : List CallFrame :=
  program.coroutines.zipIdx.flatMap fun (machine, caller) => machine.frames caller

end Coro
