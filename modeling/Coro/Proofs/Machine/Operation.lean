import Coro.Machine.Command
import Coro.Proofs.Machine.Contract

/-!
Operating a machine, with any way of letting coroutines go on.

Bodies without a state change no state of a coroutine, so an operation keeps what the threads keep
that it lets go on.
-/

namespace Coro

/-- A relation between runs that is kept by what a scheduler does between the bodies it starts. -/
structure Bodies.Respected {σ : Type} (related : ∀ {α : Type}, Exec σ α → Exec σ α → Prop) :
    Prop where
  pure : ∀ {α : Type} (value : α), related (Pure.pure value) (Pure.pure value)
  bind : ∀ {α β : Type} {first other : Exec σ α} {next next' : α → Exec σ β},
    related first other → (∀ value, related (next value) (next' value)) →
    related (first >>= next) (other >>= next')
  /-- The clock and the number of passes are read and changed at any time. -/
  modifyGet : ∀ {α : Type} {change : Machine σ → α × Machine σ},
    (∀ machine, ∃ clock passes, (change machine).2 = { machine with clock, passes }) →
    related (MonadStateOf.modifyGet change) (MonadStateOf.modifyGet change)

namespace Bodies.Respected

variable {σ : Type} {related : ∀ {α : Type}, Exec σ α → Exec σ α → Prop}
  (respected : Respected related)

include respected

/-- Hooks run alike one behind the other if each of them does. -/
theorem startAll (hook other : HookId → Exec σ Unit) {ids : List HookId}
    (each : ∀ id ∈ ids, related (hook id) (other id)) :
    related (Exec.startAll hook ids) (Exec.startAll other ids) := by
  induction ids with
  | nil => exact respected.pure []
  | cons id rest ih =>
    refine respected.bind (each id (by simp)) fun _ => ?_
    exact respected.bind (ih fun later member => each later (by simp [member])) fun _ =>
      respected.pure _

variable (bodies other : Bodies σ)
  (hooks : ∀ kind, related (bodies.hooks kind) (other.hooks kind))

include hooks

/-- Programs are started alike if their bodies run alike. -/
theorem boot (entry : related bodies.entry other.entry) : related bodies.boot other.boot :=
  respected.bind (hooks _) fun _ => respected.bind entry fun _ => respected.pure _

/-- Counting changes the clock only, and hooks follow it. -/
theorem cascade (intervals : List Interval) :
    related (bodies.cascade intervals) (other.cascade intervals) := by
  induction intervals with
  | nil => exact respected.pure _
  | cons interval rest ih =>
    refine respected.bind (respected.modifyGet fun machine => ⟨_, machine.passes, rfl⟩)
      fun complete => ?_
    cases complete with
    | true => exact respected.bind (hooks _) fun _ => respected.bind ih fun _ => respected.pure _
    | false => exact respected.pure _

/-- A tick that was not seen yet is used up before it is counted. -/
theorem dispatch : related bodies.dispatch other.dispatch := by
  let read : Machine σ → Machine σ × Machine σ := fun machine => (machine, machine)
  have reads : related (MonadStateOf.modifyGet read) (MonadStateOf.modifyGet read) :=
    respected.modifyGet fun machine => ⟨machine.clock, machine.passes, rfl⟩
  refine respected.bind reads fun machine => ?_
  split
  · refine respected.bind (respected.modifyGet fun machine => ⟨_, machine.passes, rfl⟩) fun _ => ?_
    exact respected.bind (respected.cascade bodies other hooks _) fun _ => respected.pure _
  · exact respected.pure _

/-- A pass runs hooks, threads, and what the clock asks for. -/
theorem pass (threads : related bodies.threads other.threads) :
    related bodies.pass other.pass := by
  refine respected.bind (hooks _) fun _ => respected.bind threads fun _ =>
    respected.bind (respected.dispatch bodies other hooks) fun _ => ?_
  exact respected.bind (respected.modifyGet fun machine => ⟨machine.clock, _, rfl⟩) fun _ =>
    respected.pure _

end Bodies.Respected

/-- Only coroutines let others go on. -/
structure Program.IsPlain (program : Program) : Prop where
  functions : ∀ code ∈ program.functions, ∀ instr ∈ code, instr.IsPlain
  hooks : ∀ code ∈ program.hooks, ∀ instr ∈ code, instr.IsPlain
  entry : ∀ instr ∈ program.entry, instr.IsPlain

namespace Exec

variable {σ : Type} [Host σ]

/-! ## Bodies without a state -/

section Bodies

variable {program : Program} {callees other : Callees σ} (quiet : callees.Quiet other) (fuel : Nat)

include quiet

/-- A body without a state changes none. -/
theorem runBody_quiet {code : Code} (plain : ∀ instr ∈ code, instr.IsPlain)
    (locals : List Local) (args : List Int64) :
    Quiet (runBody program fuel callees locals code args)
      (runBody program fuel other locals code args) := by
  have body : Quiet (run program callees none code fuel code (.enter locals args))
      (run program other none code fuel code (.enter locals args)) := by
    intro states
    -- Wherever a jump leads, the instructions there are some of the same code.
    let position : Code → Array Nat → Prop := fun rest after =>
      (∀ instr ∈ rest, instr.IsPlain) ∧ after = states
    have kept : Meets (position code) (run program callees none code fuel code (.enter locals args))
        (run program other none code fuel code (.enter locals args))
        (fun _ after => after = states) (· = states) := by
      refine run_meets (fun instr rest frame => .ofEach fun before reached => ?_)
        (fun _ reached => reached.2) (fun _ _ reached => reached.2) fuel code _
      have plainHere := reached.1 instr (by simp)
      refine (execute_quiet quiet (.inr ⟨plainHere, rfl⟩) frame).weaken (fun _ same => same)
        ?_ (fun _ same => same.trans reached.2)
      rintro ⟨control, next⟩ after ⟨same, -⟩
      have same := same.trans reached.2
      cases control with
      | next => exact ⟨fun instr member => reached.1 instr (by simp [member]), same⟩
      | jump label =>
        exact ⟨fun instr member => plain instr (List.dropWhile_subset _ member), same⟩
      | leave value => exact same
    exact kept.weaken (fun _ same => ⟨plain, same⟩) (fun _ _ same => same) (fun _ same => same)
  exact body.enter.bind fun result => .pure result.1

/-- A function changes no state. -/
theorem runFunction_quiet (plain : program.IsPlain) (id : FunctionId) (args : List Int64) :
    Quiet (runFunction program fuel callees id args) (runFunction program fuel other id args) := by
  refine (Quiet.require _).bind fun function => Quiet.requireThen fun code found => ?_
  have plainCode := plain.functions code (List.mem_of_getElem? found)
  exact (runBody_quiet quiet fuel plainCode _ _).bind fun _ => .pure _

end Bodies

/-! ## Ways of going on -/

section Ways

variable (program : Program) (fuel : Nat) (goOn : Callees σ → CoroutineId → Exec σ Unit)

/-- What a body can start when coroutines go on in a given way. -/
def calleesBy : Nat → Callees σ
  | 0 =>
    ⟨fun _ _ => throw (.fault .callDepthExceeded), fun _ => throw (.fault .callDepthExceeded)⟩
  | levels + 1 =>
    let inner := calleesBy levels
    ⟨runFunction program fuel inner, goOn inner⟩

/-- What the scheduler starts when coroutines go on in a given way. -/
def bodiesBy : Bodies σ :=
  let inner := calleesBy program fuel goOn maxDepth
  bodies program fuel inner (goOn inner)

/-- A command as a step of a run. -/
def obeyBy : Command → Exec σ Unit
  | .boot => do let _ ← (bodiesBy program fuel goOn).boot
  | .pass => do let _ ← (bodiesBy program fuel goOn).pass
  | .tick => modify Machine.tick

end Ways

section Rules

variable {program : Program} {fuel : Nat} {goOn other : Callees σ → CoroutineId → Exec σ Unit}
  {kept stopped : Array Nat → Prop}

theorem calleesBy_runCoroutine (levels : Nat) :
    calleesBy (σ := σ) program fuel (runCoroutine program fuel) levels =
      callees program fuel levels := by
  induction levels with
  | zero => rfl
  | succ levels ih => simp only [calleesBy, callees, ih]

theorem calleesBy_quiet (plain : program.IsPlain) (levels : Nat) :
    (calleesBy program fuel goOn levels).Quiet (calleesBy program fuel other levels) := by
  induction levels with
  | zero => exact fun _ _ => .throw _
  | succ levels ih => exact fun id args => runFunction_quiet ih fuel plain id args

theorem callees_quiet (plain : program.IsPlain) (fuel levels : Nat) :
    (callees (σ := σ) program fuel levels).Quiet (callees program fuel levels) := by
  rw [← calleesBy_runCoroutine]
  exact calleesBy_quiet plain levels

omit [Host σ] in
/-- What states tell is kept by what a scheduler does itself. -/
theorem Meets.respected (halts : ∀ states, kept states → stopped states) :
    Bodies.Respected (σ := σ)
      fun {_} first second => Meets kept first second (fun _ => kept) stopped where
  pure _ := .pure fun _ asked => asked
  bind early late := Meets.bind early late
  modifyGet same := by
    refine (Quiet.modifyGet fun machine => ?_).meets.weaken (fun _ asked => asked)
      (fun _ _ asked => asked) halts
    obtain ⟨clock, passes, equal⟩ := same machine
    rw [equal]
    exact ⟨rfl, rfl⟩

/-- The hooks of an occasion change no state. -/
theorem hooksBy_meets (plain : program.IsPlain) (kind : HookKind) :
    Meets kept ((bodiesBy program fuel goOn).hooks kind) ((bodiesBy program fuel other).hooks kind)
      (fun _ => kept) kept := by
  refine (Meets.respected fun _ asked => asked).startAll _ _ fun id _ => Quiet.meets ?_
  refine (Quiet.require _).bind fun hook => Quiet.requireThen fun code found => ?_
  have plainCode := plain.hooks code (List.mem_of_getElem? found)
  exact (runBody_quiet (calleesBy_quiet plain maxDepth) fuel plainCode _ []).bind fun _ => .pure _

/-- An operation keeps what the threads keep that it lets go on. -/
theorem obeyBy_meets (plain : program.IsPlain) (halts : ∀ states, kept states → stopped states)
    (threads : ∀ id ∈ program.model.threads,
      Meets kept (goOn (calleesBy program fuel goOn maxDepth) id)
        (other (calleesBy program fuel other maxDepth) id) (fun _ => kept) stopped)
    (command : Command) :
    Meets kept (obeyBy program fuel goOn command) (obeyBy program fuel other command)
      (fun _ => kept) stopped := by
  have respected := Meets.respected (σ := σ) halts
  have hooks : ∀ kind, Meets kept ((bodiesBy program fuel goOn).hooks kind)
      ((bodiesBy program fuel other).hooks kind) (fun _ => kept) stopped := fun kind =>
    (hooksBy_meets plain kind).weaken (fun _ asked => asked) (fun _ _ asked => asked) halts
  cases command with
  | boot =>
    have entry : Quiet (bodiesBy program fuel goOn).entry (bodiesBy program fuel other).entry :=
      (runBody_quiet (calleesBy_quiet plain maxDepth) fuel plain.entry _ []).bind fun _ => .pure _
    refine (respected.boot _ _ hooks ?_).bind fun _ => respected.pure ()
    exact entry.meets.weaken (fun _ asked => asked) (fun _ _ asked => asked) halts
  | pass =>
    exact (respected.pass _ _ hooks (Meets.forM threads)).bind fun _ => respected.pure ()
  | tick => exact respected.modifyGet fun machine => ⟨_, machine.passes, rfl⟩

end Rules

end Exec

namespace Machine

variable {σ : Type} [Host σ]

/-- Carries out a command when coroutines go on in a given way. -/
def obeyBy (program : Program) (fuel : Nat) (goOn : Callees σ → CoroutineId → Exec σ Unit)
    (machine : Machine σ) (command : Command) : Option Halt × Machine σ :=
  obey.finish (Exec.obeyBy program fuel goOn command machine)

/-- The machine behind commands, each with its own fuel; those that stop early hold up nothing. -/
def after (program : Program) (machine : Machine σ) : List (Nat × Command) → Machine σ
  | [] => machine
  | (fuel, command) :: rest => (machine.obey program fuel command).2.after program rest

/-- Why commands stopped early, in the order in which they did. -/
def halts (program : Program) (machine : Machine σ) : List (Nat × Command) → List Halt
  | [] => []
  | (fuel, command) :: rest =>
    let (halt, machine) := machine.obey program fuel command
    halt.toList ++ machine.halts program rest

variable {program : Program} {fuel : Nat}

/-- The way of the machine itself. -/
theorem obeyBy_runCoroutine (machine : Machine σ) (command : Command) :
    machine.obeyBy program fuel (Exec.runCoroutine program fuel) command =
      machine.obey program fuel command := by
  have same : Exec.bodiesBy (σ := σ) program fuel (Exec.runCoroutine program fuel) =
      Exec.scheduled program fuel := by
    simp only [Exec.bodiesBy, Exec.calleesBy_runCoroutine]
    rfl
  cases command with
  | boot | pass =>
    simp only [obeyBy, Exec.obeyBy, same]
    rfl
  | tick => rfl

/-- What a contract of a command says about the machine that it leaves. -/
theorem obey_of_meets {other : Callees σ → CoroutineId → Exec σ Unit}
    {kept stopped : Array Nat → Prop} {command : Command}
    (meets : Exec.Meets kept
      (Exec.obeyBy program fuel (Exec.runCoroutine program fuel) command)
      (Exec.obeyBy program fuel other command) (fun _ => kept) stopped)
    {machine : Machine σ} (asked : kept machine.states) :
    machine.obeyBy program fuel other command = machine.obey program fuel command ∧
      (machine.obey program fuel command).2.depth = machine.depth ∧
      ((machine.obey program fuel command).1 = none →
        kept (machine.obey program fuel command).2.states) ∧
      ((machine.obey program fuel command).1 ≠ none →
        stopped (machine.obey program fuel command).2.states) := by
  obtain ⟨same, promised⟩ := meets machine asked
  simp only [← obeyBy_runCoroutine, obeyBy, ← same, true_and]
  cases outcome : Exec.obeyBy program fuel (Exec.runCoroutine program fuel) command machine with
  | ok value left =>
    rw [outcome] at promised
    exact ⟨promised.2, fun _ => promised.1, fun halted => absurd rfl halted⟩
  | error halt left =>
    rw [outcome] at promised
    exact ⟨promised.2, nofun, fun _ => promised.1⟩

/-- What every command keeps is kept by all of them, whether they stop early or not. -/
theorem after_keeps {kept : Machine σ → Prop}
    (each : ∀ machine fuel command, kept machine → kept (machine.obey program fuel command).2)
    (operations : List (Nat × Command)) {machine : Machine σ} (begun : kept machine) :
    kept (machine.after program operations) := by
  induction operations generalizing machine with
  | nil => exact begun
  | cons operation rest ih => exact ih (each machine operation.1 operation.2 begun)

end Machine

end Coro
