import Coro.Proofs.Machine.CallChain

/-!
The states of coroutines are always valid.

Between operations a coroutine has not started or is suspended at one of its points, so that its code
has a place where it goes on.
-/

namespace Coro

/-- A coroutine in this state would go on at a point that its code does not have. -/
def StateMachine.IsLost (machine : StateMachine) (state : Nat) : Prop :=
  ∃ point, pointOf? state machine.width = some point ∧ point ∉ Code.points false machine.code

instance (machine : StateMachine) (state : Nat) : Decidable (machine.IsLost state) :=
  match known : pointOf? state machine.width with
  | none => .isFalse fun ⟨_, found, _⟩ => nomatch known.symm.trans found
  | some point =>
    decidable_of_iff (point ∉ Code.points false machine.code)
      ⟨fun absent => ⟨point, known, absent⟩,
        fun ⟨_, found, absent⟩ => Option.some.inj (known.symm.trans found) ▸ absent⟩

namespace StateMachine

variable {machine : StateMachine} {state : Nat}

variable (formed : machine.WellFormed) (rests : machine.CanRest state)

include formed rests

/-- The state variable is large enough for a coroutine that rests. -/
theorem CanRest.fits : state < 2 ^ machine.width.type.bits := by
  have limited := formed.limited
  rcases rests with rfl | ⟨point, within, rfl⟩
  · exact Nat.two_pow_pos _
  · simp only [maxPoints] at limited
    simp only [stateAt]
    -- A byte has room for its own few points, and a word for all that there can be.
    by_cases small : machine.points.length ≤ bytePoints
    · have byte : machine.width = .byte := if_pos small
      have room : 2 ^ StateWidth.byte.type.bits = 256 := rfl
      simp only [bytePoints] at small
      rw [byte, room]
      omega
    · have word : machine.width = .word := if_neg small
      have room : 2 ^ StateWidth.word.type.bits = 65536 := rfl
      rw [word, room]
      omega

/-- A coroutine that rests goes on in its own code. -/
theorem CanRest.not_lost : ¬machine.IsLost state := by
  rintro ⟨point, found, absent⟩
  rcases rests with rfl | ⟨known, within, rfl⟩
  · simp [pointOf?] at found
  · have told : pointOf? (stateAt known) machine.width = some known :=
      pointOf?_stateAt within formed.limited
    obtain rfl : point = known := Option.some.inj (found.symm.trans told)
    exact absent (formed.resumed point within)

end StateMachine

namespace Exec

/-- Lets a coroutine go on, unless its code has no place for its point: then something else happens. -/
def runCoroutineOr {σ : Type} [Host σ] (lost : CoroutineId → Exec σ Unit) (program : Program)
    (fuel : Nat) (callees : Callees σ) (id : CoroutineId) : Exec σ Unit := do
  let machine ← require program.coroutines[id]?
  if machine.IsLost (← state id) then lost id
  else runCoroutine program fuel callees id

/-- A coroutine that rests is never lost. -/
theorem runCoroutineOr_goesOn {σ : Type} [Host σ] {program : Program} (sound : program.Sound)
    (fuel : Nat) (lost : CoroutineId → Exec σ Unit) :
    GoesOn program fuel (runCoroutineOr lost program fuel) := by
  intro callees id machine kept
  have read : state id machine = require machine.states[id]? machine := rfl
  cases found : program.coroutines[id]? with
  | none => simp only [runCoroutineOr, runCoroutine, found]; rfl
  | some code =>
    have given : (require (some code) : Exec σ StateMachine) = pure code := rfl
    cases known : machine.states[id]? with
    | none =>
      -- Without a state there is nothing to go on with, either way.
      have stops : state id machine = .error .dangling machine := by rw [read, known]; rfl
      simp only [runCoroutineOr, runCoroutine, found, given, pure_bind]
      simp only [Bind.bind, EStateM.bind, stops]
    | some value =>
      have reads : state id machine = .ok value machine := by rw [read, known]; rfl
      obtain ⟨_, same, rests⟩ := kept.rests id code found
      cases known.symm.trans same
      have ours := rests.not_lost (sound.machines id code found)
      simp only [runCoroutineOr, found, given, pure_bind]
      simp only [Bind.bind, EStateM.bind, reads, if_neg ours]

end Exec

namespace Machine

variable {σ : Type} {program : Program} [Host σ]

/--
States are valid between operations, whatever happens in them.

Each coroutine has not started or is suspended at one of its points, which its state variable can
hold and which is not its end, and no body is active. Whatever else might happen where the code of a
coroutine had no place for its point would change no operation.
-/
theorem states_stay_valid {source : Source} {warnings : List (Located Warning)}
    (linked : source.link = .ok (program, warnings)) (host : σ)
    (operations : List (Nat × Command)) :
    let machine := (Machine.start program host).after program operations
    (∀ (id : CoroutineId) code, program.coroutines[id]? = some code →
      ∃ state, machine.states[id]? = some state ∧
        (state = startState ∨ ∃ point < code.points.length, state = stateAt point) ∧
        state ≠ code.width.endState ∧ state < 2 ^ code.width.type.bits) ∧
    machine.depth = 0 ∧
    ∀ (lost : CoroutineId → Exec σ Unit) fuel command,
      machine.obeyBy program fuel (Exec.runCoroutineOr lost program fuel) command =
        machine.obey program fuel command := by
  intro machine
  have sound := Source.link_sound linked
  obtain ⟨kept, idle⟩ : program.Kept machine.states ∧ machine.depth = 0 :=
    after_kept sound host operations
  refine ⟨fun id code found => ?_, idle, fun lost fuel command => ?_⟩
  · obtain ⟨state, known, rests⟩ := kept.rests id code found
    have formed := sound.machines id code found
    exact ⟨state, known, rests, rests.ne_end formed, rests.fits formed⟩
  · have orderly : program.Orderly False machine.states := ⟨kept, False.elim⟩
    exact (obey_orderly sound (Exec.runCoroutineOr_goesOn sound fuel lost) command orderly).1

/-- A thread and the subroutine that it waits for have valid states, also behind a pass that stops. -/
theorem waiting_states_valid :
    ∃ program warnings, Source.waiting.link = .ok (program, warnings) ∧
      let machine := (Machine.start program Bench.empty).after program
        [(100, .boot), (100, .pass), (1, .tick), (3, .pass)]
      (∀ (id : CoroutineId) code, program.coroutines[id]? = some code →
        ∃ state, machine.states[id]? = some state ∧
          (state = startState ∨ ∃ point < code.points.length, state = stateAt point) ∧
          state ≠ code.width.endState ∧ state < 2 ^ code.width.type.bits) ∧
      machine.depth = 0 := by
  obtain ⟨program, warnings, linked⟩ := Source.waiting_links
  obtain ⟨valid, idle, -⟩ := states_stay_valid linked Bench.empty
    [(100, .boot), (100, .pass), (1, .tick), (3, .pass)]
  exact ⟨program, warnings, linked, valid, idle⟩

end Machine

end Coro
