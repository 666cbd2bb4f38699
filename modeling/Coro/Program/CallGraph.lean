import Coro.Program.Instr
import Coro.Warning

/-!
Which coroutine calls which.

A subroutine has one state and one set of parameters, so that no call may begin before the last one
has ended. Only calls that come back to their caller could do so.
-/

namespace Coro

/-- Why the calls of a program cannot be carried out. -/
inductive LinkError where
  /-- A call leads back to its own callee, along a chain of callers. -/
  | overlappingCall (callee : String) (chain : List String)
deriving Repr, DecidableEq, Inhabited

/-- The text of a fault. -/
def LinkError.message : LinkError → String
  | overlappingCall callee chain =>
    "Subroutine `" ++ callee ++ "` could be called again before it finishes (call chain: " ++
      " -> ".intercalate chain ++ ")"

/-- The calls of a state machine, in the order of the text. -/
def StateMachine.calls (machine : StateMachine) : List (Located CoroutineId) :=
  machine.points.filterMap fun point =>
    match point.kind with
    | .call callee => some ⟨callee, point.location⟩
    | _ => none

namespace Program

/-- The calls of a coroutine, in the order of the text. -/
def calls (program : Program) (id : CoroutineId) : List (Located CoroutineId) :=
  (program.coroutines[id]?.map StateMachine.calls).getD []

/-- The path of a coroutine. -/
def pathOf (program : Program) (id : CoroutineId) : String :=
  (program.model.coroutines[id]?.map fun coroutine => coroutine.path.dotted).getD ""

/-- The fault of a call whose callee is on the way to it. -/
def overlap (program : Program) (way : List CoroutineId) (call : Located CoroutineId) :
    Located LinkError :=
  -- The chain starts where the callee was entered and ends where it is called again.
  let chain := way.dropWhile (· != call.value) ++ [call.value]
  ⟨.overlappingCall (program.pathOf call.value) (chain.map program.pathOf), call.location⟩

/--
Looks at all that a coroutine calls, in depth, and adds it to the coroutines that are done with.

The way leads to the coroutine from where the search began. It holds no coroutine twice, so their
number bounds the search.
-/
def search (program : Program) :
    Nat → List CoroutineId → List CoroutineId → CoroutineId →
      Except (Located LinkError) (List CoroutineId)
  | 0, _, done, _ => return done
  | budget + 1, way, done, id => do
    let way := way ++ [id]
    let done ← (program.calls id).foldlM (fun done call =>
      -- What is done with leads to no cycle, and a callee on the way has not ended.
      if done.contains call.value then return done
      else if way.contains call.value then throw (program.overlap way call)
      else program.search budget way done call.value) done
    return id :: done

/-- Refuses programs in which a call could begin before the last one has ended. -/
def checkCalls (program : Program) : Except (Located LinkError) Unit := do
  let count := program.coroutines.length
  let _ ← (List.range count).foldlM (fun done id =>
    if done.contains id then return done else program.search count [] done id) []

/-- A warning for each subroutine that nobody calls. -/
def unusedSubroutines (program : Program) : List (Located Warning) :=
  -- Threads need no caller.
  let called := program.frames.map CallFrame.callee
  program.model.coroutines.zipIdx.filterMap fun (coroutine, id) =>
    if coroutine.isThread || called.contains id then none
    else some ⟨.unusedSubroutine coroutine.path.dotted, coroutine.location⟩

end Program

end Coro
