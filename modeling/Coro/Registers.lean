import Coro.Program.Instr
import Coro.Target
import Coro.Warning

/-!
Binding hinted storage to registers.

Hints are advice: storage that gets no register stays in memory, and a warning says why. Hints for
single registers are served first, then those for classes, each in the order of the text.
-/

namespace Coro

/-- What can be kept in registers. -/
inductive Storage where
  | static (id : StaticId)
  /-- The state of a coroutine. -/
  | state (id : CoroutineId)
deriving Repr, DecidableEq, Inhabited

/-- Storage that is kept in registers. -/
structure Binding where
  storage : Storage
  path : String
  /-- The registers in ascending order. -/
  registers : List Nat
deriving Repr, Inhabited

/-- The bindings of a program, in the order in which they were made. -/
structure Plan where
  bindings : List Binding
deriving Repr, Inhabited

namespace Plan

/-- Nothing bound. -/
def empty : Plan := ⟨[]⟩

/-- The binding of some storage. -/
def find? (plan : Plan) (storage : Storage) : Option Binding :=
  plan.bindings.find? fun binding => binding.storage = storage

/-- The path of what is kept in a register. -/
def owner? (plan : Plan) (register : Nat) : Option String :=
  (plan.bindings.find? fun binding => binding.registers.contains register).map Binding.path

/-- The registers in use, in ascending order. -/
def fixed (plan : Plan) (target : Target) : List Nat :=
  target.registers.filter fun register => (plan.owner? register).isSome

end Plan

/-- The wish to bind some storage. -/
structure BindingRequest where
  storage : Storage
  path : String
  bytes : Nat
  /-- Neither volatile nor an array. -/
  bindable : Bool
  hint : RegisterHint
deriving Repr, Inhabited

namespace BindingRequest

/-- The wish for a single register. -/
def isExact (request : BindingRequest) : Bool :=
  match request.hint.group with
  | .exact _ => true
  | _ => false

/-- One wish stands in the text before the other, or at the same place. -/
def notAfter (first second : BindingRequest) : Bool :=
  -- Sorting keeps wishes at one place in their order: variables before states.
  let left := first.hint.location.start
  let right := second.hint.location.start
  decide (left.line < right.line ∨ left.line = right.line ∧ left.column ≤ right.column)

end BindingRequest

namespace Program

/-- The wishes for static variables, and then those for states, of a program. -/
def bindingRequests (program : Program) : List BindingRequest :=
  let statics := program.model.statics.zipIdx.filterMap fun (storage, id) =>
    storage.hint.map fun hint =>
      ⟨.static id, storage.path.dotted, storage.type.bytes,
        !storage.volatile && storage.length.isNone, hint⟩
  let states := (program.model.coroutines.zip program.coroutines).zipIdx.filterMap
    fun ((coroutine, machine), id) =>
      coroutine.stateHint.map fun hint =>
        ⟨.state id, coroutine.path.dotted ++ ".state", machine.width.type.bytes, true, hint⟩
  statics ++ states

/-- The wishes of a program in the order in which they are served. -/
def servedRequests (program : Program) : List BindingRequest :=
  let sorted := program.bindingRequests.mergeSort BindingRequest.notAfter
  sorted.filter BindingRequest.isExact ++ sorted.filter fun request => !request.isExact

end Program

/-- The registers that a value fills from a first one on; larger values start at an even one. -/
def registerSpan (target : Target) (first bytes : Nat) : Option (List Nat) :=
  -- All registers of the span have to exist, not only the first.
  let span := List.range' first bytes
  if bytes > 1 ∧ first % 2 ≠ 0 then none
  else if span.all target.registers.contains then some span
  else none

/-- A register belongs to a class. -/
def RegisterClass.allows : RegisterClass → Nat → Bool
  | low, register => isLowRegister register
  | high, register => !isLowRegister register
  | any, _ => true
  | exact _, _ => true

namespace Plan

/-- The registers that a wish for a single one gets. -/
def exactSpan (plan : Plan) (target : Target) (request : BindingRequest) (number : Nat) :
    Except Warning (List Nat) :=
  match registerSpan target number request.bytes with
  | none => throw (.registerUnavailable request.path (registerName number))
  | some span =>
    -- The lowest register that is taken names the owner.
    match span.findSome? plan.owner? with
    | none => return span
    | some owner =>
      throw (.conflictingRegisterHint request.path (registerName number) owner)

/-- The first free registers of a class. -/
def pooledSpan (plan : Plan) (target : Target) (request : BindingRequest)
    (group : RegisterClass) : Except Warning (List Nat) :=
  -- Spans are tried from the lowest register on.
  let spans := target.registers.filterMap (registerSpan target · request.bytes)
  let fits (span : List Nat) : Bool :=
    span.all fun register => group.allows register && (plan.owner? register).isNone
  match spans.find? fits with
  | some span => return span
  | none => throw (.registerPoolExhausted request.path group)

/-- The registers that a wish gets. -/
def span (plan : Plan) (target : Target) (request : BindingRequest) :
    Except Warning (List Nat) :=
  if !request.bindable then throw (.unbindableStorage request.path)
  else match request.hint.group with
    | .exact number => plan.exactSpan target request number
    | group => plan.pooledSpan target request group

/-- Serves wishes one after the other. -/
def serve (plan : Plan) (target : Target) :
    List BindingRequest → Plan × List (Located Warning)
  | [] => (plan, [])
  | request :: rest =>
    match plan.span target request with
    | .ok registers =>
      let binding := ⟨request.storage, request.path, registers⟩
      Plan.serve ⟨plan.bindings ++ [binding]⟩ target rest
    -- A wish that is not met leaves the plan as it is.
    | .error warning =>
      let (plan, warnings) := plan.serve target rest
      (plan, ⟨warning, request.hint.location⟩ :: warnings)

end Plan

/-- The bindings of a program, and a warning for each wish that is not met. -/
def Program.bindRegisters (program : Program) (target : Target) :
    Plan × List (Located Warning) :=
  -- A target without registers has no use for the wishes, and that is no reason to warn.
  if target.registers.isEmpty then (.empty, [])
  else Plan.serve .empty target program.servedRequests

end Coro
