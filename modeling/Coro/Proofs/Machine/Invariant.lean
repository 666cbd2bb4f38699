import Coro.Proofs.Machine.Law
import Coro.Proofs.Machine.Operation

/-!
Conditions on machines that runs keep.

A condition is kept whether a run returns or stops, and the reasons to stop can be limited along
with it. What every body keeps, every operation does.
-/

namespace Coro

/-- A condition on machines looks at their variables, their states and their host only. -/
def Machine.Lasting {σ : Type} (kept : Machine σ → Prop) : Prop :=
  ∀ before after : Machine σ, after.statics = before.statics → after.states = before.states →
    after.host = before.host → kept before → kept after

theorem Machine.Lasting.level {σ : Type} {kept : Machine σ → Prop} (lasting : Lasting kept)
    (machine : Machine σ) (depth : Nat) (held : kept machine) : kept { machine with depth } :=
  lasting machine _ rfl rfl rfl held

namespace Exec

/-- The machine that a run leaves behind, whether it returns or stops. -/
def behind {σ κ α : Type} (run : ExecWith σ κ α) (machine : Machine σ κ) : Machine σ κ :=
  match run machine with
  | .ok _ after => after
  | .error _ after => after

/-- A run that finds a condition leaves it, and stops for some reasons only. -/
def Keeps {σ : Type} (kept : Machine σ → Prop) (stops : Halt → Prop) {α : Type} (run : Exec σ α)
    (post : α → Prop) : Prop :=
  ∀ machine, kept machine →
    match run machine with
    | .ok value after => kept after ∧ post value
    | .error halt after => kept after ∧ stops halt

namespace Keeps

variable {σ α β : Type} {kept : Machine σ → Prop} {stops : Halt → Prop}

theorem bind {first : Exec σ α} {next : α → Exec σ β} {middle : α → Prop} {post : β → Prop}
    (early : Keeps kept stops first middle)
    (late : ∀ value, middle value → Keeps kept stops (next value) post) :
    Keeps kept stops (first >>= next) post := by
  intro machine held
  have outcome := early machine held
  simp only [Bind.bind, EStateM.bind]
  cases ran : first machine with
  | ok value after =>
    rw [ran] at outcome
    exact late value outcome.2 after outcome.1
  | error halt after =>
    rw [ran] at outcome
    exact outcome

section Level

variable (level : ∀ machine depth, kept machine → kept { machine with depth })

include level

/-- A body that is entered finds the same machine, but for the number of active bodies. -/
theorem enter (fault : ∀ fault, stops (.fault fault)) {body : Exec σ α} {post : α → Prop}
    (inner : Keeps kept stops body post) : Keeps kept stops (Exec.enter body) post := by
  intro machine held
  by_cases room : machine.depth < maxDepth
  · -- The number differs on the way in and on the way out.
    have outcome := inner { machine with depth := machine.depth + 1 } (level machine _ held)
    simp only [Exec.enter, room, ↓reduceIte]
    cases ran : body { machine with depth := machine.depth + 1 } with
    | ok value after | error halt after =>
      rw [ran] at outcome
      exact ⟨level after _ outcome.1, outcome.2⟩
  · simp only [Exec.enter, room, ↓reduceIte]
    exact ⟨held, fault _⟩

theorem law (fault : ∀ fault, stops (.fault fault)) (outOfFuel : stops .outOfFuel) :
    Law (Keeps kept stops) stops where
  pure given := fun _ held => ⟨held, given⟩
  bind := bind
  throw stopped := fun _ held => ⟨held, stopped⟩
  enter := enter level fault
  fault := fault
  outOfFuel := outOfFuel

theorem openLaw : OpenLaw (Keeps kept fun _ => True) where
  toLaw := law level (fun _ => trivial) trivial
  get late := fun machine held => late machine machine held

end Level

/-- The condition holds of the machine that is left behind. -/
theorem behind {run : Exec σ α} {post : α → Prop} (keeps : Keeps kept stops run post)
    {machine : Machine σ} (held : kept machine) : kept (Exec.behind run machine) := by
  have outcome := keeps machine held
  unfold Exec.behind
  cases ran : run machine with
  | ok value after | error halt after =>
    rw [ran] at outcome
    exact outcome.1

theorem get {next : Machine σ → Exec σ α} {post : α → Prop}
    (late : ∀ machine, kept machine → Keeps kept stops (next machine) post) :
    Keeps kept stops (MonadState.get >>= next) post :=
  fun machine held => late machine held machine held

/-- A change of anything but variables, states and the host. -/
theorem modifyRest (lasting : Machine.Lasting kept) {change : Machine σ → α × Machine σ}
    (same : ∀ machine, (change machine).2.statics = machine.statics ∧
      (change machine).2.states = machine.states ∧ (change machine).2.host = machine.host) :
    Keeps kept stops (MonadStateOf.modifyGet change) fun _ => True := by
  intro machine held
  obtain ⟨statics, states, host⟩ := same machine
  exact ⟨lasting machine _ statics states host held, trivial⟩

end Keeps

variable {σ : Type} [Host σ]

/-- Everything that the scheduler starts keeps a condition. -/
structure Operates (kept : Machine σ → Prop) (stops : Halt → Prop) (program : Program)
    (fuel : Nat) : Prop where
  hook : ∀ id hook, program.model.hooks[id]? = some hook →
    Keeps kept stops (Exec.hook program fuel id) fun _ => True
  entry : Keeps kept stops (runBody program fuel (outermost program fuel)
    program.model.entry.locals program.entry []) fun _ => True
  step : ∀ id ∈ program.model.threads, Keeps kept stops (Exec.step program fuel id) fun _ => True

variable {kept : Machine σ → Prop} {stops : Halt → Prop} {program : Program} {fuel : Nat}

omit [Host σ] in
/-- Conditions on variables, states and the host are kept by what a scheduler does itself. -/
theorem Keeps.respected (law : Law (Keeps kept stops) stops) (lasting : Machine.Lasting kept) :
    Bodies.Respected fun {_} run _ => Keeps kept stops run fun _ => True where
  pure _ := law.pure trivial
  bind early late := law.bind early fun value _ => late value
  modifyGet same := by
    refine .modifyRest lasting fun machine => ?_
    obtain ⟨clock, passes, equal⟩ := same machine
    rw [equal]
    exact ⟨rfl, rfl, rfl⟩

/-- Hooks run one behind the other. -/
theorem hooks_keep (law : Law (Keeps kept stops) stops) (lasting : Machine.Lasting kept)
    (each : ∀ id hook, program.model.hooks[id]? = some hook →
      Keeps kept stops (Exec.hook program fuel id) fun _ => True) (kind : HookKind) :
    Keeps kept stops ((scheduled program fuel).hooks kind) fun _ => True := by
  refine (Keeps.respected law lasting).startAll _ (Exec.hook program fuel) fun id member => ?_
  -- Hooks of an occasion are hooks of the model.
  simp only [Model.hooksOn, List.mem_map, List.mem_filter] at member
  obtain ⟨⟨hook, place⟩, ⟨known, -⟩, rfl⟩ := member
  exact each place hook (List.mem_zipIdx_iff_getElem?.mp known)

namespace Operates

variable (operates : Operates kept stops program fuel) (law : Law (Keeps kept stops) stops)
  (lasting : Machine.Lasting kept)

include operates law lasting

theorem boot : Keeps kept stops (Exec.boot program fuel) fun _ => True := by
  have entry : Keeps kept stops (scheduled program fuel).entry fun _ => True :=
    law.bind operates.entry fun _ _ => law.pure trivial
  have booted := (Keeps.respected law lasting).boot (scheduled program fuel)
    (scheduled program fuel) (hooks_keep law lasting operates.hook) entry
  exact law.bind booted fun _ _ => law.pure trivial

/-- A pass runs hooks, threads, and what the clock asks for. -/
theorem pass : Keeps kept stops (Exec.pass program fuel) fun _ => True := by
  have passed := (Keeps.respected law lasting).pass (scheduled program fuel)
    (scheduled program fuel) (hooks_keep law lasting operates.hook) (law.forM operates.step)
  exact law.bind passed fun _ _ => law.pure trivial

/-- An operation keeps what all bodies do, and stops as they do. -/
theorem obey {machine : Machine σ} (held : kept machine) (command : Command) :
    kept (machine.obey program fuel command).2 ∧
      ∀ halt, (machine.obey program fuel command).1 = some halt → stops halt := by
  have finished : ∀ {run : Exec σ Unit}, Keeps kept stops run (fun _ => True) →
      kept (Machine.obey.finish (run machine)).2 ∧
        ∀ halt, (Machine.obey.finish (run machine)).1 = some halt → stops halt := by
    intro run keeps
    have outcome := keeps machine held
    cases ran : run machine with
    | ok value after =>
      rw [ran] at outcome
      exact ⟨outcome.1, nofun⟩
    | error halt after =>
      rw [ran] at outcome
      refine ⟨outcome.1, fun other same => ?_⟩
      exact Option.some.inj same ▸ outcome.2
  cases command with
  | boot => exact finished (operates.boot law lasting)
  | pass => exact finished (operates.pass law lasting)
  | tick => exact ⟨lasting machine _ rfl rfl rfl held, nofun⟩

end Operates

end Exec

/-- What every body keeps holds behind all operations, even if it looks at the host. -/
theorem Machine.after_lasting {σ : Type} [Host σ] {kept : Machine σ → Prop} {stops : Halt → Prop}
    {program : Program} (operates : ∀ fuel, Exec.Operates kept stops program fuel)
    (law : Exec.Law (Exec.Keeps kept stops) stops) (lasting : Machine.Lasting kept)
    {machine : Machine σ} (held : kept machine) (operations : List (Nat × Command)) :
    kept (machine.after program operations) ∧
      ∀ halt ∈ machine.halts program operations, stops halt := by
  -- Each operation starts from what the ones before it have left, whether they stopped or not.
  induction operations generalizing machine with
  | nil => exact ⟨held, nofun⟩
  | cons operation rest ih =>
    obtain ⟨fuel, command⟩ := operation
    obtain ⟨still, reason⟩ := (operates fuel).obey law lasting held command
    obtain ⟨final, reasons⟩ := ih still
    refine ⟨final, fun halt member => ?_⟩
    simp only [halts, List.mem_append, Option.mem_toList] at member
    rcases member with now | later
    · exact reason halt now
    · exact reasons halt later

end Coro
