import Coro.Proofs.Machine.Invariant

/-!
What the scheduler starts, and when.

Only the scheduler has to do with the clock: no body that it starts changes it. So the hooks that
it starts are told by the clock alone, and by the order in which they were declared.
-/

namespace Coro

/-! ## Bodies and the clock -/

namespace Exec

variable {σ : Type}

/-- A run leaves the clock as it is, whether it returns or stops. -/
def Timeless {α : Type} (run : Exec σ α) (post : α → Prop) : Prop :=
  ∀ clock, Keeps (fun machine => machine.clock = clock) (fun _ => True) run post

theorem Timeless.law : OpenLaw (σ := σ) Timeless :=
  OpenLaw.all fun _ => Keeps.openLaw fun _ _ held => held

theorem Timeless.modifyGet {α : Type} {change : Machine σ → α × Machine σ}
    (same : ∀ machine, (change machine).2.clock = machine.clock) :
    Timeless (σ := σ) (MonadStateOf.modifyGet change) fun _ => True :=
  fun _ machine held => ⟨(same machine).trans held, trivial⟩

variable [Host σ]

/-- No instruction changes the clock, if nothing that it can start does. -/
theorem execute_timeless {program : Program} {callees : Callees σ}
    (timeless : Follows Timeless (fun _ => True) callees) (self : Option CoroutineId)
    (frame : Frame) (instr : Instr) :
    Timeless (execute program callees self frame instr) fun _ => True := by
  have law : OpenLaw (σ := σ) Timeless := Timeless.law
  have reads : Reads Timeless program.model callees (fun _ => True) (fun _ => True) .everything :=
    { locate := fun frame var index _ _ =>
        law.weaken (law.locate frame var index) fun _ _ => trivial
      -- The host may change, but it has no hand in the clock.
      load := fun frame slot _ _ => law.load (fun _ => law.bind (.modifyGet fun _ => rfl)
        fun _ _ => law.pure trivial) frame slot
      function := fun id args _ => timeless.function id args
      external := fun id args _ => law.bind (law.found _) fun _ _ => .modifyGet fun _ => rfl }
  have drives : Drives Timeless (fun _ => True) program callees self .everything :=
    law.drives self (fun _ _ => .modifyGet fun _ => rfl) fun id _ => timeless.coroutine id trivial
  have store : ∀ frame slot value, True → True →
      Timeless (σ := σ) (Exec.store program.model frame slot value) fun _ => True :=
    fun _ _ _ _ _ => law.store trivial (fun _ _ _ _ _ => trivial)
      (fun _ _ _ _ _ => .modifyGet fun _ => rfl) fun _ _ _ _ => .modifyGet fun _ => rfl
  exact law.execute reads store drives trivial instr.refers_everything

/-- Whatever can be started inside a body leaves the clock as it is. -/
theorem callees_timeless (program : Program) (fuel levels : Nat) :
    Follows (σ := σ) Timeless (fun _ => True) (callees program fuel levels) :=
  Timeless.law.callees (fun id _ => Timeless.law.state id)
    (fun _ timeless _ _ _ instr _ frame => execute_timeless timeless none frame instr)
    (fun _ timeless id _ _ _ instr _ frame => execute_timeless timeless (some id) frame instr)
    fuel levels

/-- No hook changes the clock. -/
theorem hook_timeless (program : Program) (fuel : Nat) (id : HookId) :
    Timeless (σ := σ) (hook program fuel id) fun _ => True :=
  Timeless.law.hook fun _ _ instr _ frame =>
    execute_timeless (callees_timeless program fuel maxDepth) none frame instr

end Exec

/-! ## Steps that tell what they have started -/

namespace Exec

section Telling

variable {σ α β : Type}

/-- A run that tells something does what another does. -/
def Tells (telling : Exec σ α) (run : Exec σ Unit) : Prop :=
  (telling >>= fun _ => pure ()) = run

/-- A run that returns gives a certain value, and leaves the clock in a certain way. -/
def Reports (run : Exec σ α) (before : Clock) (value : α) (after : Clock) : Prop :=
  ∀ machine, machine.clock = before → ∀ given left, run machine = .ok given left →
    given = value ∧ left.clock = after

namespace Reports

variable {before middle after : Clock} {value : α} {result : β}

theorem pure : Reports (σ := σ) (Pure.pure value) before value before := by
  rintro machine held _ _ ⟨⟩
  exact ⟨rfl, held⟩

theorem bind {first : Exec σ α} {next : α → Exec σ β} (early : Reports first before value middle)
    (late : Reports (next value) middle result after) :
    Reports (first >>= next) before result after := by
  intro machine held given left ran
  simp only [Bind.bind, EStateM.bind] at ran
  cases begun : first machine with
  | ok other between =>
    obtain ⟨rfl, kept⟩ := early machine held other between begun
    rw [begun] at ran
    exact late between kept given left ran
  | error halt between =>
    rw [begun] at ran
    cases ran

theorem get {next : Machine σ → Exec σ α}
    (late : ∀ machine, machine.clock = before → Reports (next machine) before value after) :
    Reports (MonadState.get >>= next) before value after :=
  fun machine held => late machine held machine held

theorem modifyGet {change : Machine σ → α × Machine σ}
    (known : ∀ machine, machine.clock = before →
      (change machine).1 = value ∧ (change machine).2.clock = after) :
    Reports (σ := σ) (MonadStateOf.modifyGet change) before value after := by
  rintro machine held _ _ ⟨⟩
  exact known machine held

end Reports

/-- Behind a run that leaves the clock as it is, whatever it gives. -/
theorem Timeless.reports {run : Exec σ α} {next : α → Exec σ β} {post : α → Prop}
    {before after : Clock} {result : β} (timeless : Timeless run post)
    (late : ∀ value, Reports (next value) before result after) :
    Reports (run >>= next) before result after := by
  -- The value is not known, but the clock behind the run is.
  intro machine held given left ran
  have outcome := timeless before machine held
  simp only [Bind.bind, EStateM.bind] at ran
  cases begun : run machine with
  | ok value between =>
    rw [begun] at outcome ran
    exact late value between outcome.1 given left ran
  | error halt between =>
    rw [begun] at ran
    cases ran

end Telling

end Exec

/-- The intervals that are complete, from short to long, and the clock behind them. -/
def Clock.advance (clock : Clock) : List Interval → List Interval × Clock
  | [] => ([], clock)
  | interval :: rest =>
    -- A longer interval has its turn only when the shorter one is complete.
    if (clock.count interval).1 then
      (interval :: ((clock.count interval).2.advance rest).1,
        ((clock.count interval).2.advance rest).2)
    else ([], (clock.count interval).2)

/-- The periodic hooks of some intervals. -/
def Model.hooksEvery (model : Model) (intervals : List Interval) : List HookId :=
  intervals.flatMap fun interval => model.hooksOn (.every interval)

theorem Model.hooksEvery_cons (model : Model) (interval : Interval) (rest : List Interval) :
    model.hooksEvery (interval :: rest) =
      model.hooksOn (.every interval) ++ model.hooksEvery rest :=
  List.flatMap_cons

/-- What a command has done: the hooks it has started, in order. -/
inductive Note where
  | ticked
  | booted (started : List HookId)
  /-- The hooks of every pass, and those of the periodic dispatch if there was one. -/
  | passed (polled : List HookId) (dispatched : Option (List HookId))
deriving Repr, DecidableEq

namespace Exec

variable {σ : Type} [Host σ] (program : Program) (fuel : Nat)

/-- Counts towards intervals, and tells which hooks it runs. -/
def cascadeNoting (intervals : List Interval) : Exec σ (List HookId) :=
  (scheduled program fuel).cascade intervals

/-- Starts a program, and tells which hooks it runs. -/
def bootNoting : Exec σ Note :=
  return .booted (← (scheduled program fuel).boot)

/-- One pass of the scheduler that tells which hooks it runs. -/
def passNoting : Exec σ Note := do
  let (polled, dispatched) ← (scheduled program fuel).pass
  return .passed polled dispatched

/-- A command that tells what it does. -/
def obeyNoting : Command → Exec σ Note
  | .boot => bootNoting program fuel
  | .pass => passNoting program fuel
  | .tick => do
    modify Machine.tick
    return .ticked

variable {program fuel}

/-- Hooks are told in their order, and leave the clock as it is. -/
theorem hooks_report (kind : HookKind) (clock : Clock) :
    Reports (σ := σ) ((scheduled program fuel).hooks kind) clock (program.model.hooksOn kind)
      clock := by
  unfold scheduled bodies
  dsimp only
  induction program.model.hooksOn kind with
  | nil => exact .pure
  | cons id rest ih =>
    exact (hook_timeless program fuel id).reports fun _ => ih.bind .pure

/-- The hooks of all intervals are told that the clock completes. -/
theorem cascadeNoting_reports (intervals : List Interval) (clock : Clock) :
    Reports (σ := σ) (cascadeNoting program fuel intervals) clock
      (program.model.hooksEvery (clock.advance intervals).1) (clock.advance intervals).2 := by
  induction intervals generalizing clock with
  | nil => exact .pure
  | cons interval rest ih =>
    have counted : Reports (σ := σ)
        (modifyGet fun machine => ((machine.clock.count interval).1,
          { machine with clock := (machine.clock.count interval).2 }))
        clock (clock.count interval).1 (clock.count interval).2 := by
      refine .modifyGet fun machine held => ?_
      rw [held]
      exact ⟨rfl, rfl⟩
    refine Reports.bind counted ?_
    unfold Clock.advance
    cases (clock.count interval).1 with
    | true => exact (hooks_report _ _).bind ((ih _).bind .pure)
    | false => exact .pure

variable (clock : Clock)

/-- Starting a program tells the hooks for the start, and leaves the clock as it is. -/
theorem bootNoting_reports :
    Reports (σ := σ) (bootNoting program fuel) clock (.booted (program.model.hooksOn .init))
      clock := by
  have entry : Timeless (σ := σ) (scheduled program fuel).entry fun _ => True :=
    Timeless.law.bind (Timeless.law.anyBody (fun instr _ frame =>
      execute_timeless (callees_timeless program fuel maxDepth) none frame instr) fuel)
      fun _ _ => Timeless.law.pure trivial
  have booted : Reports (σ := σ) (scheduled program fuel).boot clock
      (program.model.hooksOn .init) clock :=
    (hooks_report _ _).bind (entry.reports fun _ => .pure)
  exact booted.bind .pure

/-- A tick is used up if there is one, and the hooks are told that it asks for. -/
theorem dispatch_reports :
    Reports (σ := σ) (scheduled program fuel).dispatch clock
      (if clock.isBehind then
        some (program.model.hooksEvery (clock.see.advance Interval.all).1) else none)
      (if clock.isBehind then (clock.see.advance Interval.all).2 else clock) := by
  refine .get fun machine held => ?_
  rw [held]
  split
  · have seen : Reports (σ := σ)
        (modify fun machine => { machine with clock := machine.clock.see }) clock () clock.see :=
      .modifyGet fun machine held => ⟨rfl, congrArg Clock.see held⟩
    exact seen.bind ((cascadeNoting_reports _ _).bind .pure)
  · exact .pure

/-- A pass tells the hooks of every pass, and uses up a tick if there is one. -/
theorem passNoting_reports :
    Reports (σ := σ) (passNoting program fuel) clock
      (.passed (program.model.hooksOn .runnable)
        (if clock.isBehind then
          some (program.model.hooksEvery (clock.see.advance Interval.all).1) else none))
      (if clock.isBehind then (clock.see.advance Interval.all).2 else clock) := by
  have threads : Timeless (σ := σ) (scheduled program fuel).threads fun _ => True :=
    Timeless.law.forM fun id _ =>
      (callees_timeless program fuel (maxDepth + 1)).coroutine id trivial
  -- Passes are counted behind the hooks, and have no hand in the clock.
  have counted : ∀ after, Reports (σ := σ)
      (modify fun machine => { machine with passes := machine.passes + 1 }) after () after :=
    fun _ => .modifyGet fun _ same => ⟨rfl, same⟩
  refine Reports.bind ((hooks_report _ _).bind (threads.reports fun _ =>
    (dispatch_reports clock).bind ((counted _).bind .pure))) ?_
  exact .pure

theorem tickNoting_reports :
    Reports (σ := σ) (obeyNoting program fuel .tick) clock .ticked clock.tick :=
  Reports.bind (.modifyGet fun _ held => ⟨rfl, congrArg Clock.tick held⟩) .pure

end Exec

namespace Machine

variable {σ : Type} [Host σ] {program : Program}

/-- What commands tell, each with its own fuel; those that stop early tell nothing. -/
def notes (program : Program) (machine : Machine σ) : List (Nat × Command) → List Note
  | [] => []
  | (fuel, command) :: rest =>
    match Exec.obeyNoting program fuel command machine with
    | .ok note after => note :: after.notes program rest
    | .error _ after => after.notes program rest

/-- A command does what it does when it tells what it has done. -/
theorem obey_eq_noting (machine : Machine σ) (fuel : Nat) (command : Command) :
    machine.obey program fuel command =
      obey.finish ((Exec.obeyNoting program fuel command >>= fun _ => pure ()) machine) := by
  cases command with
  | boot =>
    simp only [obey, Exec.obeyNoting, Exec.boot, Exec.bootNoting, bind_assoc, pure_bind]
  | pass =>
    simp only [obey, Exec.obeyNoting, Exec.pass, Exec.passNoting, bind_assoc, pure_bind]
  | tick => rfl

/-- A command that does not stop early tells what it has done. -/
theorem exists_note {machine : Machine σ} {fuel : Nat} {command : Command}
    (ends : (machine.obey program fuel command).1 = none) :
    ∃ note, Exec.obeyNoting program fuel command machine =
      .ok note (machine.obey program fuel command).2 := by
  -- The noted command stops exactly where the other one does.
  rw [obey_eq_noting] at ends ⊢
  simp only [Bind.bind, EStateM.bind] at ends ⊢
  cases told : Exec.obeyNoting program fuel command machine with
  | ok note after => exact ⟨note, rfl⟩
  | error halt after =>
    rw [told] at ends
    cases ends

end Machine

end Coro
