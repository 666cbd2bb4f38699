import Coro.Proofs.Machine.Congruence
import Coro.Proofs.Structured.Interpreter

/-!
Runs that may have been given too little.

A run approximates another one if it has the same outcome, or no outcome because it ran out of
instructions or rounds.
-/

namespace Coro

/-- A run has the outcome of another one, unless it was given too little. -/
def Exec.Approximates {σ κ α : Type} (short long : ExecWith σ κ α) : Prop :=
  ∀ machine, (∃ after, short machine = .error .outOfFuel after) ∨ short machine = long machine

namespace Exec.Approximates

variable {σ κ α β : Type}

/-- A run has its own outcome. -/
theorem refl (run : ExecWith σ κ α) : Approximates run run :=
  fun _ => .inr rfl

/-- What approximates an approximation approximates the run itself. -/
theorem trans {first second third : ExecWith σ κ α} (early : Approximates first second)
    (late : Approximates second third) : Approximates first third := by
  -- A stop of the first is a stop of the whole.
  intro machine
  rcases early machine with stopped | same
  · exact .inl stopped
  · rw [same]
    exact late machine

/-- In a sequence, both parts may have been given too little. -/
theorem bind {first first' : ExecWith σ κ α} {next next' : α → ExecWith σ κ β}
    (early : Approximates first first') (late : ∀ value, Approximates (next value) (next' value)) :
    Approximates (first >>= next) (first' >>= next') := by
  -- The second part starts only where the first has ended, and then in the same state.
  intro machine
  simp only [Bind.bind, EStateM.bind]
  rcases early machine with ⟨after, stopped⟩ | same
  · rw [stopped]
    exact .inl ⟨after, rfl⟩
  · rw [same]
    cases first' machine with
    | ok value after => exact late value after
    | error halt after => exact .inr rfl

/-- The same holds for a list of runs. -/
theorem forM {γ : Type} {list : List γ} {short long : γ → ExecWith σ κ Unit}
    (each : ∀ value ∈ list, Approximates (short value) (long value)) :
    Approximates (list.forM short) (list.forM long) := by
  induction list with
  | nil => exact refl _
  | cons first rest ih =>
    exact (each first (by simp)).bind fun _ => ih fun value member => each value (by simp [member])

/-- A call is as deep with either run. -/
theorem enter {body body' : ExecWith σ κ α} (same : Approximates body body') :
    Approximates (Exec.enter body) (Exec.enter body') := by
  -- The depth is raised ahead of the body, on both sides alike.
  intro machine
  simp only [Exec.enter]
  split
  · rcases same { machine with depth := machine.depth + 1 } with ⟨after, stopped⟩ | same
    · rw [stopped]
      exact .inl ⟨_, rfl⟩
    · rw [same]
      exact .inr rfl
  · exact .inr rfl

end Exec.Approximates

/-- Some run ends with a result: it returns or it stops with a fault, however long it takes. -/
def Exec.EndsWith {σ κ α : Type} (run : Nat → ExecWith σ κ α) (machine : Machine σ κ)
    (result : EStateM.Result Halt (Machine σ κ) α) : Prop :=
  ∃ fuel, run fuel machine = result ∧ ∀ after, result ≠ .error .outOfFuel after

/-- Runs that approximate each other end with the same results, each with what it needs. -/
theorem Exec.endsWith_iff {σ κ α : Type} {run other : Nat → ExecWith σ κ α}
    (noMore : ∀ fuel, ∃ enough, Approximates (run fuel) (other enough))
    (noLess : ∀ fuel, ∃ enough, Approximates (other fuel) (run enough)) (machine : Machine σ κ)
    (result : EStateM.Result Halt (Machine σ κ) α) :
    EndsWith run machine result ↔ EndsWith other machine result := by
  -- A result that is none for want of fuel is the result of whatever is approximated.
  have reached : ∀ {first second : Nat → ExecWith σ κ α},
      (∀ fuel, ∃ enough, Approximates (first fuel) (second enough)) →
        EndsWith first machine result → EndsWith second machine result := by
    intro first second below ends
    obtain ⟨fuel, ended, finite⟩ := ends
    obtain ⟨enough, below⟩ := below fuel
    rcases below machine with ⟨after, stopped⟩ | same
    · exact absurd (ended.symm.trans stopped) (finite after)
    · exact ⟨enough, same.symm.trans ended, finite⟩
  exact ⟨reached noMore, reached noLess⟩

/-- Runs end in one way only if all of them stay below what others do from some fuel on. -/
theorem Exec.endsWith_unique {σ κ α : Type} {run other : Nat → ExecWith σ κ α}
    (below : ∀ fuel, ∃ enough, ∀ more ≥ enough, Approximates (run fuel) (other more))
    {machine : Machine σ κ} {first second : EStateM.Result Halt (Machine σ κ) α}
    (early : EndsWith run machine first) (late : EndsWith run machine second) :
    first = second := by
  -- Both results are the one of a run that was given enough for each of them.
  have reached : ∀ {result}, EndsWith run machine result →
      ∃ enough, ∀ more ≥ enough, other more machine = result := by
    intro result ends
    obtain ⟨fuel, ended, finite⟩ := ends
    obtain ⟨enough, below⟩ := below fuel
    refine ⟨enough, fun more large => ?_⟩
    rcases below more large machine with ⟨after, stopped⟩ | same
    · exact absurd (ended.symm.trans stopped) (finite after)
    · exact same.symm.trans ended
  obtain ⟨one, first⟩ := reached early
  obtain ⟨two, second⟩ := reached late
  have large := first (max one two) (Nat.le_max_left one two)
  exact large.symm.trans (second (max one two) (Nat.le_max_right one two))

/-- Steps of a body have the outcome of others, unless they were given too little. -/
def BodyStep.Approximates {σ κ α : Type} (short long : BodyStep σ κ α) : Prop :=
  ∀ frame, Exec.Approximates (short.run frame) (long.run frame)

namespace BodyStep.Approximates

variable {σ κ α β : Type}

/-- Steps have their own outcome. -/
theorem refl (steps : BodyStep σ κ α) : Approximates steps steps :=
  fun _ => .refl _

/-- Approximation goes on from steps to steps. -/
theorem trans {first second third : BodyStep σ κ α} (early : Approximates first second)
    (late : Approximates second third) : Approximates first third :=
  fun frame => (early frame).trans (late frame)

/-- Steps that were given nothing approximate all others. -/
theorem outOfFuel (steps : BodyStep σ κ α) : Approximates (throw .outOfFuel) steps :=
  fun _ machine => .inl ⟨machine, rfl⟩

/-- Steps in sequence. -/
theorem bind {first first' : BodyStep σ κ α} {next next' : α → BodyStep σ κ β}
    (early : Approximates first first') (late : ∀ value, Approximates (next value) (next' value)) :
    Approximates (first >>= next) (first' >>= next') := by
  intro frame
  simp only [StateT.run_bind]
  exact (early frame).bind fun result => late result.1 result.2

/-- What is run outside of the frame. -/
theorem lift {short long : ExecWith σ κ α} (same : Exec.Approximates short long) :
    Approximates (StateT.lift short) (StateT.lift long) := by
  intro frame
  exact same.bind fun value => .refl _

end BodyStep.Approximates

/-- What can be started approximates what else can. -/
structure Callees.Approximates {σ κ : Type} (short long : Callees σ κ) : Prop where
  function : ∀ id args, Exec.Approximates (short.function id args) (long.function id args)
  coroutine : ∀ id, Exec.Approximates (short.coroutine id) (long.coroutine id)

/-- Everything that statements can do approximates what others can. -/
structure Actions.Approximates {σ κ : Type} (short long : Actions σ κ) : Prop where
  eval : ∀ expr, BodyStep.Approximates (short.eval expr) (long.eval expr)
  assign : ∀ place op value,
    BodyStep.Approximates (short.assign place op value) (long.assign place op value)
  suspendAt : ∀ point, BodyStep.Approximates (short.suspendAt point) (long.suspendAt point)
  drive : ∀ callee, BodyStep.Approximates (short.drive callee) (long.drive callee)
  finish : BodyStep.Approximates short.finish long.finish

namespace Exec

variable {σ κ : Type} [Host σ] {model : Model} {short long : Callees σ κ}

/-- Everything but calls is the same in both runs. -/
theorem Approximates.congruence :
    Congruence (σ := σ) (κ := κ) Approximates model model .everything where
  pure _ := .refl _
  bind := .bind
  locate _ _ _ _ _ _ late := (Approximates.refl _).bind fun slot =>
    late slot slot.granted_everything
  load _ _ := .refl _
  store _ _ _ _ := .refl _
  compute _ _ _ := .refl _
  external _ _ := .refl _

/-- An assignment approximates one with better callees. -/
theorem assign_approximates (same : short.Approximates long) (frame : Frame) (place : Place)
    (op : Option BinaryOp) (value : Expr) :
    Approximates (assign model short frame place op value)
      (assign model long frame place op value) :=
  Approximates.congruence.assign same.function frame op
    (Instr.assign place op value).refers_everything

end Exec

end Coro
