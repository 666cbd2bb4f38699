import Coro.Proofs.Program.Layout
import Coro.Proofs.Structured.Approximation

/-!
What instructions do, in the words of statements.

Every instruction is some action of a body, and goes on with the next instruction, at a label, or
not at all.
-/

namespace Coro

/-- The same actions on expressions whose variables are kept somewhere else. -/
def Actions.through {σ κ : Type} (actions : Actions σ κ) (rename : Var → Var) : Actions σ κ :=
  { actions with
    eval expr := actions.eval (expr.mapVars rename)
    assign place op value :=
      actions.assign (place.mapVars rename) op (value.mapVars rename) }

theorem Actions.through_id {σ κ : Type} (actions : Actions σ κ) : actions.through id = actions := by
  cases actions
  simp [Actions.through, Expr.mapVars_id, Place.mapVars_id]

/-- What an instruction does before the rest of the code, or before the code at a label. -/
def Instr.meaning {σ κ : Type} (actions : Actions σ κ) (next : BodyStep σ κ (Option Int64))
    (goto : Label → BodyStep σ κ (Option Int64)) : Instr → BodyStep σ κ (Option Int64)
  | .setLabel _ => next
  | .jump label => goto label
  | .jumpIfFalse condition label => do
    if (← actions.eval condition) = 0 then goto label else next
  | .assign place op value => do
    actions.assign place op value
    next
  | .eval expr => do
    let _ ← actions.eval expr
    next
  | .setState point => do
    actions.suspendAt point
    next
  | .suspend => return none
  | .resume _ => next
  | .returnUnless condition _ => do
    if (← actions.eval condition) = 0 then return none else next
  | .drive callee => do
    if ← actions.drive callee then next else return none
  | .finish => do
    actions.finish
    return none
  | .returnFrom none => return none
  | .returnFrom (some value) => return some (← actions.eval value)

/-- An instruction is approximated if its action is, and what comes behind it. -/
theorem Instr.meaning_approximates {σ κ : Type} {short long : Actions σ κ}
    (same : short.Approximates long) {next next' : BodyStep σ κ (Option Int64)}
    {goto goto' : Label → BodyStep σ κ (Option Int64)} (instr : Instr)
    (onNext : BodyStep.Approximates next next')
    (onJump : ∀ label, instr.target? = some label →
      BodyStep.Approximates (goto label) (goto' label)) :
    BodyStep.Approximates (instr.meaning short next goto) (instr.meaning long next' goto') := by
  cases instr with
  | setLabel label => exact onNext
  | jump label => exact onJump label rfl
  | jumpIfFalse condition label =>
    refine (same.eval condition).bind fun value => ?_
    split
    · exact onJump label rfl
    · exact onNext
  | assign place op value => exact (same.assign place op value).bind fun _ => onNext
  | eval expr => exact (same.eval expr).bind fun _ => onNext
  | setState point => exact (same.suspendAt point).bind fun _ => onNext
  | suspend => exact .refl _
  | resume point => exact onNext
  | returnUnless condition hint =>
    refine (same.eval condition).bind fun value => ?_
    split
    · exact .refl _
    · exact onNext
  | drive callee =>
    refine (same.drive callee).bind fun ended => ?_
    split
    · exact onNext
    · exact .refl _
  | finish => exact same.finish.bind fun _ => .refl _
  | returnFrom value =>
    cases value with
    | none => exact .refl _
    | some value => exact (same.eval value).bind fun _ => .refl _

namespace Exec

variable {σ : Type} [Host σ]

/-- Lets a subroutine go on, and tells whether its state machine has ended. -/
def driveMachine (program : Program) (callees : Callees σ) (callee : CoroutineId) :
    Exec σ Bool := do
  callees.coroutine callee
  let machine ← require program.coroutines[callee]?
  if (← state callee) ≠ machine.width.endState then return false
  setState callee startState
  return true

/-- The end of a state machine. -/
def finishMachine (program : Program) (id : CoroutineId) : Exec σ Unit := do
  let coroutine ← require program.model.coroutines[id]?
  let machine ← require program.coroutines[id]?
  setState id (if coroutine.isThread then startState else machine.width.endState)

/-- What code can do; only that of coroutines changes a state of its own. -/
def actions (program : Program) (callees : Callees σ) (self : Option CoroutineId) :
    Actions σ Nat where
  parameters := program.model.parameters
  eval expr := do StateT.lift (eval program.model callees (← get) expr)
  assign place op value := do
    set (← StateT.lift (assign program.model callees (← get) place op value))
  suspendAt point := StateT.lift <|
    match self with
    | some id => setState id (stateAt point)
    | none => pure ()
  drive callee := StateT.lift (driveMachine program callees callee)
  finish := StateT.lift <|
    match self with
    | some id => finishMachine program id
    | none => pure ()

/-- Steps that follow the rest of some code. -/
def follow (program : Program) (callees : Callees σ) (self : Option CoroutineId) (code : Code)
    (fuel : Nat) (rest : Code) : BodyStep σ Nat (Option Int64) :=
  fun frame => run program callees self code fuel rest frame

variable {program : Program} {callees : Callees σ} {self : Option CoroutineId} {code : Code}

theorem follow_run (fuel : Nat) (rest : Code) (frame : Frame) :
    (follow program callees self code fuel rest).run frame =
      run program callees self code fuel rest frame :=
  rfl

theorem follow_succ (fuel : Nat) (instr : Instr) (rest : Code) :
    follow program callees self code (fuel + 1) (instr :: rest) =
      instr.meaning (actions program callees self) (follow program callees self code fuel rest)
        (fun label => follow program callees self code fuel (code.from label)) := by
  apply StateT.ext
  intro frame
  rw [follow_run, run]
  simp only [← follow_run]
  cases instr with
  | setLabel label | jump label | suspend | resume point => simp [execute, Instr.meaning]
  | jumpIfFalse condition label | returnUnless condition hint =>
    simp only [execute, Instr.meaning, actions, StateT.run_bind, StateT.run_get, StateT.run_lift,
      bind_assoc, pure_bind]
    refine bind_congr fun value => ?_
    by_cases zero : value = 0 <;> simp [zero]
  | assign place op value | eval expr => simp [execute, Instr.meaning, actions]
  | setState point => cases self <;> simp [execute, Instr.meaning, actions]
  | drive callee =>
    simp only [execute, Instr.meaning, actions, driveMachine, StateT.run_bind, StateT.run_lift,
      bind_assoc, pure_bind]
    refine bind_congr fun _ => bind_congr fun machine => bind_congr fun found => ?_
    by_cases ended : found = machine.width.endState <;> simp [ended]
  | finish => cases self <;> simp [execute, Instr.meaning, actions, finishMachine]
  | returnFrom value => cases value <;> simp [execute, Instr.meaning, actions]

/-- What code can do is approximated if what it starts is. -/
theorem actions_approximates {short long : Callees σ} (same : short.Approximates long) :
    (actions program short self).Approximates (actions program long self) where
  eval expr := .bind (.refl _) fun frame => .lift (Approximates.congruence.eval same.function frame
    expr.refers_everything)
  assign place op value := .bind (.refl _) fun frame =>
    .bind (.lift (assign_approximates same frame place op value)) fun _ => .refl _
  suspendAt _ := .refl _
  drive callee := .lift ((same.coroutine callee).bind fun _ => .refl _)
  finish := .refl _

theorem follow_approximates_succ (fuel : Nat) (rest : Code) :
    BodyStep.Approximates (follow program callees self code fuel rest)
      (follow program callees self code (fuel + 1) rest) := by
  have same : (actions program callees self).Approximates (actions program callees self) :=
    actions_approximates ⟨fun _ _ => .refl _, fun _ => .refl _⟩
  induction fuel generalizing rest with
  | zero => exact .outOfFuel _
  | succ fuel ih =>
    cases rest with
    | nil => exact .refl _
    | cons instr rest =>
      rw [follow_succ, follow_succ]
      exact instr.meaning_approximates same (ih rest) fun label _ => ih (code.from label)

end Exec

end Coro
