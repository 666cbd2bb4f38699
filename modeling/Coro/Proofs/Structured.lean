import Coro.Machine.Bench
import Coro.Proofs.Resolution
import Coro.Proofs.Structured.Hoisting

/-!
Lowering keeps what coroutines do.

A coroutine that is stepped through its code does what its statements do, suspension by suspension:
it asks the host for the same, in the same order, and leaves the same values behind.
-/

namespace Coro

namespace Model

variable {σ : Type} [Host σ] {model : Model} {program : Program} {machine : Machine σ Activity}

/-- The result of a run with the machine that keeps what is left. -/
def encodeResult {α : Type} (model : Model) :
    EStateM.Result Halt (Machine σ Activity) α → EStateM.Result Halt (Machine σ) α
  | .ok value machine => .ok value (model.encode machine)
  | .error halt machine => .error halt (model.encode machine)

/-- The machine that a run leaves has the variables and coroutines of the model. -/
def FitsResult {α : Type} (model : Model) :
    EStateM.Result Halt (Machine σ Activity) α → Prop
  | .ok _ machine | .error _ machine => model.Fits machine

/-- What can be seen of coroutines in the machine of their state machines. -/
structure Shows (program : Program) (machine : Machine σ Activity) (encoded : Machine σ) :
    Prop where
  host : encoded.host = machine.host
  depth : encoded.depth = machine.depth
  statics : ∀ id < machine.statics.size, encoded.statics[id]? = machine.statics[id]?
  /-- A suspended coroutine is at the point that its state tells. -/
  points : ∀ (id : CoroutineId) activity, machine.states[id]? = some activity →
    ∃ code state, program.coroutines[id]? = some code ∧ encoded.states[id]? = some state ∧
      pointOf? state code.width = activity.whereabouts.point? ∧
      (state = code.width.endState ↔ activity.whereabouts = .ended)
  /-- The local variables of a coroutine are in the static variables that are hoisted for it. -/
  locals : ∀ (id : CoroutineId) activity, machine.states[id]? = some activity →
    ∃ code, program.coroutines[id]? = some code ∧
      ∀ place < activity.memory.size, ∃ static, code.hoisted[place]? = some static ∧
        encoded.statics[static]? = activity.memory[place]?

omit [Host σ] in
/-- What coroutines are doing can be seen in the machine that keeps it. -/
theorem encode_shows (lowered : model.LowersTo program)
    (fits : model.Fits machine) : Shows program machine (model.encode machine) := by
  -- Every activity belongs to a coroutine of the model.
  have known : ∀ (id : CoroutineId) activity, machine.states[id]? = some activity →
      ∃ coroutine, model.coroutines[id]? = some coroutine ∧
        program.coroutines[id]? = some (model.machineOf id coroutine) ∧
        activity.memory.size = coroutine.locals.length := by
    intro id activity active
    have sizes := congrArg (·[id]?) fits.memories
    simp only [List.getElem?_map, Array.getElem?_toList, active, Option.map_some] at sizes
    obtain ⟨coroutine, found, size⟩ := Option.map_eq_some_iff.mp sizes.symm
    exact ⟨coroutine, found, by simp [lowered.coroutines, found], size.symm⟩
  refine ⟨rfl, rfl, fun id small => encode_statics fits (fits.statics ▸ small), ?_, ?_⟩
  · intro id activity active
    obtain ⟨coroutine, found, made, -⟩ := known id activity active
    have limited := lowered.limited coroutine (List.mem_of_getElem? found)
    have points := fun point => fits.points id coroutine activity point found active
    refine ⟨_, activity.whereabouts.state (model.width id), made, by simp [encode_states, active],
      ?_, ?_⟩
    · rw [width_eq found]
      exact pointOf?_state found limited points
    · rw [width_eq found]
      exact state_eq_endState found limited points
  · intro id activity active
    obtain ⟨coroutine, found, made, size⟩ := known id activity active
    refine ⟨_, made, fun place small => ⟨model.firstHoisted id + place, ?_, ?_⟩⟩
    · rw [size] at small
      simp [machineOf, small]
    · exact encode_hoisted fits found active (size ▸ small)

omit [Host σ] in
/-- Results that agree differ by what keeps them. -/
theorem encodeResult_agrees {α : Type} {allowed : Array Activity → Prop}
    {outcome : EStateM.Result Halt (Machine σ Activity) α}
    {result : EStateM.Result Halt (Machine σ) α}
    (agrees : OutcomeAgrees model allowed Eq outcome result) :
    model.FitsResult outcome ∧ model.encodeResult outcome = result := by
  cases agrees with
  | ok same fits => exact ⟨fits, by rw [encodeResult, same]⟩
  | error fits => exact ⟨fits, rfl⟩

omit [Host σ] in
/-- Only a run that was given too little is kept as one. -/
theorem encodeResult_finite {α : Type} (model : Model)
    {outcome : EStateM.Result Halt (Machine σ Activity) α} :
    (∀ after, model.encodeResult outcome ≠ .error .outOfFuel after) ↔
      ∀ after, outcome ≠ .error .outOfFuel after := by
  constructor
  · rintro finite after rfl
    exact finite (model.encode after) rfl
  · intro finite after stopped
    cases outcome with
    | ok value machine => cases stopped
    | error halt machine =>
      cases stopped
      exact finite machine rfl

/-- Any steps through code end as the same steps through statements do. -/
theorem steps_endWith (lowered : model.LowersTo program) (formed : model.WellFormed)
    (ids : List CoroutineId) (fits : model.Fits machine)
    (result : EStateM.Result Halt (Machine σ) Unit) :
    Exec.EndsWith (fun fuel => ids.forM (Exec.step program fuel)) (model.encode machine) result ↔
      ∃ outcome, Exec.EndsWith (fun fuel => ids.forM (model.step fuel)) machine outcome ∧
        model.FitsResult outcome ∧ model.encodeResult outcome = result := by
  -- Statements do the same in both ways of keeping variables, for every number of rounds.
  have kept : ∀ rounds, model.FitsResult (ids.forM (model.step rounds) machine) ∧
      model.encodeResult (ids.forM (model.step rounds) machine) =
        ids.forM ((program.world model).step rounds) (model.encode machine) := fun rounds =>
    encodeResult_agrees (Exec.Agrees.forM (step_agrees lowered formed rounds) machine fits trivial)
  constructor
  · rintro ⟨fuel, ended, finite⟩
    obtain ⟨left, equal⟩ := kept (fuel + 1)
    rcases steps_noMore lowered formed fuel ids (model.encode machine) with ⟨after, stopped⟩ | same
    · exact absurd (ended.symm.trans stopped) (finite after)
    · have reached := equal.trans (same.symm.trans ended)
      exact ⟨_, ⟨fuel + 1, rfl, (encodeResult_finite model).mp (reached ▸ finite)⟩, left, reached⟩
  · rintro ⟨outcome, ⟨rounds, ended, finite⟩, -, rfl⟩
    obtain ⟨fuel, below⟩ := steps_noLess (σ := σ) lowered formed rounds ids
    have finite := (encodeResult_finite model).mpr finite
    have reached : ids.forM ((program.world model).step rounds) (model.encode machine) =
        model.encodeResult outcome := ended ▸ (kept rounds).2.symm
    rcases below fuel (Nat.le_refl fuel) (model.encode machine) with ⟨after, stopped⟩ | same
    · exact absurd (reached.symm.trans stopped) (finite after)
    · exact ⟨fuel, same.symm.trans reached, finite⟩

end Model

/--
Stepping coroutines through lowered code does what their statements do.

The machine of the state machines shows at which point each coroutine is, whether it has ended, and
all values. Any steps, up to the first fault, end in the one way exactly if they do in the other.
-/
theorem Ast.Description.lower_keeps_steps {σ : Type} [Host σ] (description : Ast.Description)
    (resolved : Resolved) (program : Program) (meant : description.resolve = .ok resolved)
    (lowered : resolved.model.lower = .ok program) :
    (∀ host : σ, resolved.model.Fits (resolved.model.start host) ∧
      resolved.model.encode (resolved.model.start host) = Machine.start program host) ∧
    ∀ machine : Machine σ Activity, resolved.model.Fits machine →
      Model.Shows program machine (resolved.model.encode machine) ∧
      ∀ (ids : List CoroutineId) result,
        Exec.EndsWith (fun fuel => ids.forM (Exec.step program fuel))
            (resolved.model.encode machine) result ↔
          ∃ outcome,
            Exec.EndsWith (fun fuel => ids.forM (resolved.model.step fuel)) machine outcome ∧
            resolved.model.FitsResult outcome ∧ resolved.model.encodeResult outcome = result := by
  obtain ⟨tables, complete, known⟩ := resolve_tables meant
  have formed := Tables.toModel?_wellFormed complete known
  have made := Model.lower_lowersTo lowered
  refine ⟨fun host => ⟨Model.start_fits _ host, Model.encode_start made host⟩, fun machine fits => ?_⟩
  exact ⟨Model.encode_shows made fits, fun ids => Model.steps_endWith made formed ids fits⟩

/-- The steps of a thread and of the subroutine that it calls are kept by their code. -/
theorem Source.waiting_keeps_steps :
    ∃ description resolved program, waiting.parse = .ok description ∧
      description.resolve = .ok resolved ∧ resolved.model.lower = .ok program ∧
      resolved.model.Fits (resolved.model.start Bench.empty) ∧
      ∀ (ids : List CoroutineId) result,
        Exec.EndsWith (fun fuel => ids.forM (Exec.step program fuel))
            (Machine.start program Bench.empty) result ↔
          ∃ outcome, Exec.EndsWith (fun fuel => ids.forM (resolved.model.step fuel))
              (resolved.model.start Bench.empty) outcome ∧
            resolved.model.FitsResult outcome ∧ resolved.model.encodeResult outcome = result := by
  obtain ⟨program, warnings, linked⟩ := waiting_links
  obtain ⟨description, resolved, parsed, meant, lowered, -⟩ := link_eq_ok linked
  obtain ⟨begins, keeps⟩ := description.lower_keeps_steps (σ := Bench) resolved program meant lowered
  obtain ⟨fits, starts⟩ := begins Bench.empty
  have steps := (keeps (resolved.model.start Bench.empty) fits).2
  rw [starts] at steps
  exact ⟨description, resolved, program, parsed, meant, lowered, fits, steps⟩

end Coro
