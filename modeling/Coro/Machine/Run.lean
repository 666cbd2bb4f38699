import Coro.Machine.Eval

/-!
Running code.

Nothing bounds the instructions that a body takes, so every run is given a number of them that each
body may take; more of them never change the outcome of a run that ends.
-/

namespace Coro

/-- What happens behind an instruction. -/
inductive Control where
  | next
  | jump (label : Label)
  /-- The body ends, for now or for good. -/
  | leave (value : Option Int64)
deriving Repr, DecidableEq

/-- The code from a label on, or none of it. -/
def Code.from (code : Code) (label : Label) : Code :=
  code.dropWhile fun instr => instr.label? != some label

/-- The code with which a coroutine in a given state goes on. -/
def StateMachine.resumeCode (machine : StateMachine) (state : Nat) : Code :=
  match pointOf? state machine.width with
  | none => machine.code
  | some point =>
    -- Every point has its place in lowered code; without one the coroutine would start again.
    match machine.code.dropWhile fun instr => instr.resumes? != some point with
    | [] => machine.code
    | rest => rest

namespace Exec

variable {σ : Type}

/-- The state of a coroutine. -/
def state (id : CoroutineId) : Exec σ Nat := do
  require (← get).states[id]?

/-- Changes the state of a coroutine. -/
def setState (id : CoroutineId) (state : Nat) : Exec σ Unit := do
  let _ ← Exec.state id
  modify fun machine => { machine with states := machine.states.setIfInBounds id state }

variable [Host σ]

/-- Carries out one instruction; only coroutines have a state to change. -/
def execute (program : Program) (callees : Callees σ) (self : Option CoroutineId)
    (frame : Frame) : Instr → Exec σ (Control × Frame)
  | .setLabel _ => return (.next, frame)
  | .jump label => return (.jump label, frame)
  | .jumpIfFalse condition label => do
    let value ← eval program.model callees frame condition
    return (if value = 0 then .jump label else .next, frame)
  | .assign place op value =>
    return (.next, ← assign program.model callees frame place op value)
  | .eval expr => do
    let _ ← eval program.model callees frame expr
    return (.next, frame)
  | .setState point => do
    match self with
    | some id => setState id (stateAt point)
    | none => pure ()
    return (.next, frame)
  | .suspend => return (.leave none, frame)
  | .resume _ => return (.next, frame)
  | .returnUnless condition _ => do
    let value ← eval program.model callees frame condition
    return (if value = 0 then .leave none else .next, frame)
  | .drive callee => do
    -- The end is seen once: the next call finds the subroutine at its start.
    callees.coroutine callee
    let machine ← require program.coroutines[callee]?
    if (← state callee) ≠ machine.width.endState then return (.leave none, frame)
    setState callee startState
    return (.next, frame)
  | .finish => do
    match self with
    | some id =>
      let coroutine ← require program.model.coroutines[id]?
      let machine ← require program.coroutines[id]?
      setState id (if coroutine.isThread then startState else machine.width.endState)
    | none => pure ()
    return (.leave none, frame)
  | .returnFrom none => return (.leave none, frame)
  | .returnFrom (some value) => do
    let value ← eval program.model callees frame value
    return (.leave (some value), frame)

/-- Runs the rest of some code until it is left; the end of the code leaves it too. -/
def run (program : Program) (callees : Callees σ) (self : Option CoroutineId) (code : Code) :
    Nat → Code → Frame → Exec σ (Option Int64 × Frame)
  | 0, _, _ => throw .outOfFuel
  | _ + 1, [], frame => return (none, frame)
  | fuel + 1, instr :: rest, frame => do
    match ← execute program callees self frame instr with
    | (.next, frame) => run program callees self code fuel rest frame
    | (.jump label, frame) => run program callees self code fuel (Code.from code label) frame
    | (.leave value, frame) => return (value, frame)

/-- Runs a body that has no state, with arguments for its first local variables. -/
def runBody (program : Program) (fuel : Nat) (callees : Callees σ) (locals : List Local)
    (code : Code) (args : List Int64) : Exec σ (Option Int64) := do
  let (value, _) ← enter (run program callees none code fuel code (.enter locals args))
  return value

/-- Runs a function, whose value is zero if it returns none. -/
def runFunction (program : Program) (fuel : Nat) (callees : Callees σ) (id : FunctionId)
    (args : List Int64) : Exec σ Int64 := do
  let function ← require program.model.functions[id]?
  let code ← require program.functions[id]?
  let value ← runBody program fuel callees function.locals code (args.take function.arity)
  return value.getD 0

/-- Lets a coroutine go on until it is suspended or ends. -/
def runCoroutine (program : Program) (fuel : Nat) (callees : Callees σ) (id : CoroutineId) :
    Exec σ Unit := do
  let machine ← require program.coroutines[id]?
  let rest := machine.resumeCode (← state id)
  let _ ← enter (run program callees (some id) machine.code fuel rest (.enter [] []))

/-- What a body can start when so many can be started inside each other. -/
def callees (program : Program) (fuel : Nat) : Nat → Callees σ
  | 0 =>
    ⟨fun _ _ => throw (.fault .callDepthExceeded), fun _ => throw (.fault .callDepthExceeded)⟩
  | levels + 1 =>
    let inner := callees program fuel levels
    ⟨runFunction program fuel inner, runCoroutine program fuel inner⟩

/-- What a body can start that the scheduler has started. -/
def outermost (program : Program) (fuel : Nat) : Callees σ :=
  -- The limit on active bodies is met before these levels are used up.
  callees program fuel maxDepth

/-- Lets a coroutine go on. -/
def step (program : Program) (fuel : Nat) (id : CoroutineId) : Exec σ Unit :=
  runCoroutine program fuel (outermost program fuel) id

/-- Runs a hook that can start what is given. -/
def hookWith (program : Program) (fuel : Nat) (callees : Callees σ) (id : HookId) :
    Exec σ Unit := do
  let hook ← require program.model.hooks[id]?
  let code ← require program.hooks[id]?
  let _ ← runBody program fuel callees hook.locals code []

/-- Runs a hook. -/
def hook (program : Program) (fuel : Nat) (id : HookId) : Exec σ Unit :=
  hookWith program fuel (outermost program fuel) id

/-- Runs hooks one behind the other, and tells which. -/
def startAll (hook : HookId → Exec σ Unit) : List HookId → Exec σ (List HookId)
  | [] => return []
  | id :: rest => do
    hook id
    return id :: (← startAll hook rest)

end Exec

/-- What a scheduler starts. -/
structure Bodies (σ : Type) where
  /-- Runs the hooks of one occasion, and tells which. -/
  hooks : HookKind → Exec σ (List HookId)
  entry : Exec σ Unit
  /-- Lets every thread go on, one after the other. -/
  threads : Exec σ Unit

namespace Bodies

variable {σ : Type} (bodies : Bodies σ)

/-- Starts a program: the hooks for this occasion, then the entry point. -/
def boot : Exec σ (List HookId) := do
  let started ← bodies.hooks .init
  bodies.entry
  return started

/-- Counts towards intervals, from short to long, and runs the hooks of those that are complete. -/
def cascade : List Interval → Exec σ (List HookId)
  | [] => return []
  | interval :: rest => do
    -- A longer interval has its turn only when the shorter one is complete.
    let complete ← modifyGet fun machine =>
      let (complete, clock) := machine.clock.count interval
      (complete, { machine with clock })
    if complete then
      let started ← bodies.hooks (.every interval)
      return started ++ (← cascade rest)
    else return []

/-- Uses up a tick, if there is one that was not seen yet. -/
def dispatch : Exec σ (Option (List HookId)) := do
  if (← get).clock.isBehind then
    modify fun machine => { machine with clock := machine.clock.see }
    return some (← bodies.cascade Interval.all)
  else return none

/-- One pass of the scheduler, which uses up at most one tick. -/
def pass : Exec σ (List HookId × Option (List HookId)) := do
  let polled ← bodies.hooks .runnable
  bodies.threads
  let dispatched ← bodies.dispatch
  -- A pass that stops early is not counted.
  modify fun machine => { machine with passes := machine.passes + 1 }
  return (polled, dispatched)

end Bodies

namespace Exec

variable {σ : Type} [Host σ]

/-- The bodies of a program, with what they can start and a way to let a thread go on. -/
def bodies (program : Program) (fuel : Nat) (callees : Callees σ)
    (step : CoroutineId → Exec σ Unit) : Bodies σ where
  hooks kind := startAll (hookWith program fuel callees) (program.model.hooksOn kind)
  entry := do
    let _ ← runBody program fuel callees program.model.entry.locals program.entry []
  threads := program.model.threads.forM step

/-- What the scheduler of a program starts. -/
def scheduled (program : Program) (fuel : Nat) : Bodies σ :=
  bodies program fuel (outermost program fuel) (step program fuel)

/-- Runs the hooks of one occasion. -/
def hooks (program : Program) (fuel : Nat) (kind : HookKind) : Exec σ Unit := do
  let _ ← (scheduled program fuel).hooks kind

/-- Starts a program. -/
def boot (program : Program) (fuel : Nat) : Exec σ Unit := do
  let _ ← (scheduled program fuel).boot

/-- Counts towards intervals, and runs the hooks of those that are complete. -/
def cascade (program : Program) (fuel : Nat) (intervals : List Interval) : Exec σ Unit := do
  let _ ← (scheduled program fuel).cascade intervals

/-- One pass of the scheduler. -/
def pass (program : Program) (fuel : Nat) : Exec σ Unit := do
  let _ ← (scheduled program fuel).pass

end Exec

/-- A tick of the timer. -/
def Machine.tick {σ : Type} (machine : Machine σ) : Machine σ :=
  { machine with clock := machine.clock.tick }

/-- More instructions than a body that ever ends takes in practice. -/
def ampleFuel : Nat := 1152921504606846976

end Coro
