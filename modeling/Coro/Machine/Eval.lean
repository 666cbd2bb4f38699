import Coro.Machine.Basic
import Coro.Machine.Host

/-! Evaluating expressions, which may call functions and ask the host. -/

namespace Coro

/-- What a running body can start: functions, and coroutines that go on. -/
structure Callees (σ : Type) (κ : Type := Nat) where
  function : FunctionId → List Int64 → ExecWith σ κ Int64
  coroutine : CoroutineId → ExecWith σ κ Unit

/-- One value of a variable. -/
inductive Slot where
  | static (id : StaticId) (index : Nat)
  | localVar (id : LocalId) (index : Nat)
  | external (id : ExternalId)
deriving Repr, DecidableEq

namespace Exec

variable {σ κ : Type}

/-- What a table has at some place. -/
def require {α : Type} (found : Option α) : ExecWith σ κ α :=
  match found with
  | some value => return value
  | none => throw .dangling

/-- Carries out a body as one more that is active, and no more once it ends or stops. -/
def enter {α : Type} (body : ExecWith σ κ α) : ExecWith σ κ α := fun machine =>
  -- The limit is checked before the body changes anything.
  if machine.depth < maxDepth then
    match body { machine with depth := machine.depth + 1 } with
    | .ok value machine => .ok value { machine with depth := machine.depth - 1 }
    | .error halt machine => .error halt { machine with depth := machine.depth - 1 }
  else .error (.fault .callDepthExceeded) machine

/-- An operator on two values. -/
def compute (op : BinaryOp) (left right : Int64) : ExecWith σ κ Int64 :=
  match op.result? left right with
  | some value => return value
  | none => throw (.fault .divisionByZero)

/-- A place among the values of a variable. -/
def checkIndex (name : String) (size : Nat) (index : Int64) : ExecWith σ κ Nat :=
  -- Negative indexes are as far out as those behind the last element.
  if 0 ≤ index.toInt ∧ index.toInt < size then return index.toInt.toNat
  else throw (.fault (.indexOutOfBounds name index))

/-- The value of a variable at an index. -/
def locate (model : Model) (frame : Frame) (var : Var) (index : Int64) : ExecWith σ κ Slot :=
  match var with
  | .static id => do
    let storage ← require model.statics[id]?
    let cells ← require (← get).statics[id]?
    return .static id (← checkIndex storage.path.dotted cells.size index)
  | .localVar id => do
    let known ← require frame.locals[id]?
    let cells ← require frame.memory[id]?
    return .localVar id (← checkIndex known.name cells.size index)
  -- External variables hold one value, so there is no index to check.
  | .external id => return .external id

/-- A value as a variable of an external entity holds it. -/
def externalValue : ExternalKind → Int64 → Int64
  | .data type _, value => type.wrap value
  | .function, value => value

variable [Host σ]

/-- Asks the host for the value of an external variable. -/
def readExternal (external : External) : ExecWith σ κ Int64 := do
  let value ← modifyGet fun machine =>
    let (value, host) := Host.read external.name machine.host
    (value, { machine with host })
  return externalValue external.kind value

/-- Gives the host the value of an external variable. -/
def writeExternal (external : External) (value : Int64) : ExecWith σ κ Unit :=
  modify fun machine => { machine with
    host := Host.write external.name (externalValue external.kind value) machine.host }

/-- Lets the host carry out an external function. -/
def callExternal (external : External) (args : List Int64) : ExecWith σ κ Int64 :=
  modifyGet fun machine =>
    let (value, host) := Host.call external.name args machine.host
    (value, { machine with host })

/-- The value in a slot. -/
def load (model : Model) (frame : Frame) : Slot → ExecWith σ κ Int64
  | .static id index => do require ((← get).statics.read? id index)
  | .localVar id index => require (frame.memory.read? id index)
  | .external id => do readExternal (← require model.externals[id]?)

/-- Puts a value, made to fit, into a slot. -/
def store (model : Model) (frame : Frame) (slot : Slot) (value : Int64) : ExecWith σ κ Frame :=
  match slot with
  | .static id index => do
    let storage ← require model.statics[id]?
    -- Only an element that is there can be changed.
    let _ ← require ((← get).statics.read? id index)
    modify fun machine => { machine with
      statics := machine.statics.write id index (storage.type.wrap value) }
    return frame
  | .localVar id index => do
    let known ← require frame.locals[id]?
    let _ ← require (frame.memory.read? id index)
    return { frame with memory := frame.memory.write id index (known.type.wrap value) }
  | .external id => do
    writeExternal (← require model.externals[id]?) value
    return frame

mutual

/-- The value of an expression; a logical operator leaves its right side out if it can. -/
def eval (model : Model) (callees : Callees σ κ) (frame : Frame) : Expr → ExecWith σ κ Int64
  | .const value => return value
  | .read var => do load model frame (← locate model frame var 0)
  | .element var index => do
    let index ← eval model callees frame index
    load model frame (← locate model frame var index)
  | .call callee args => do
    -- All arguments are known before the call begins.
    let args ← evalAll model callees frame args
    match callee with
    | .function id => callees.function id args
    | .external id => callExternal (← require model.externals[id]?) args
  | .unary op operand => return op.apply (← eval model callees frame operand)
  | .binary .logicAnd left right => do
    if (← eval model callees frame left) = 0 then return 0
    return truth ((← eval model callees frame right) != 0)
  | .binary .logicOr left right => do
    if (← eval model callees frame left) ≠ 0 then return 1
    return truth ((← eval model callees frame right) != 0)
  | .binary op left right => do
    let left ← eval model callees frame left
    let right ← eval model callees frame right
    compute op left right

/-- The values of expressions, from left to right. -/
def evalAll (model : Model) (callees : Callees σ κ) (frame : Frame) :
    List Expr → ExecWith σ κ (List Int64)
  | [] => return []
  | first :: rest => do
    let first ← eval model callees frame first
    return first :: (← evalAll model callees frame rest)

end

/-- The slot that is assigned to. -/
def slotOf (model : Model) (callees : Callees σ κ) (frame : Frame) (place : Place) :
    ExecWith σ κ Slot := do
  match place.index with
  | none => locate model frame place.var 0
  | some index => locate model frame place.var (← eval model callees frame index)

/-- Assigns the value of an expression, or what an operator makes of the old value and it. -/
def assign (model : Model) (callees : Callees σ κ) (frame : Frame) (place : Place)
    (op : Option BinaryOp) (value : Expr) : ExecWith σ κ Frame := do
  -- The place is settled first, and its old value is read after the new operand.
  let slot ← slotOf model callees frame place
  let value ← eval model callees frame value
  let value ← match op with
    | none => pure value
    | some op => do compute op (← load model frame slot) value
  store model frame slot value

end Exec

end Coro
