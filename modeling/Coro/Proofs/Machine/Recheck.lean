import Coro.Proofs.Machine.Depth
import Coro.Proofs.Machine.Result

/-!
A blocked thread does nothing but test its condition again.

A thread that goes on while it waits for a subroutine lets that one go on, and so do all along the
chain of calls. Each of them goes on right at its call, so that nothing happens before the last one
tests the condition that it waits for. As long as this does not hold, nothing happens behind it
either.
-/

namespace Coro

/-! ## Between two turns -/

/-- Between two turns of the scheduler, when all that it has started so far has ended by itself. -/
inductive Machine.Unbroken {σ : Type} [Host σ] (program : Program) (host : σ) : Machine σ → Prop
  | start : Unbroken program host (.start program host)
  /-- A hook or the entry point has run. -/
  | body {fuel : Nat} {locals : List Local} {code : Code} {value : Option Int64}
      {machine after : Machine σ} : Unbroken program host machine →
      code ∈ program.entry :: program.hooks →
      Exec.runBody program fuel (Exec.outermost program fuel) locals code [] machine =
        .ok value after → Unbroken program host after
  /-- A thread has gone on. -/
  | step {fuel : Nat} {id : CoroutineId} {machine after : Machine σ} :
      Unbroken program host machine → id ∈ program.model.threads →
      Exec.step program fuel id machine = .ok () after → Unbroken program host after
  /-- Ticks and passes are counted at any time. -/
  | count {machine : Machine σ} (clock : Clock) (passes : Nat) : Unbroken program host machine →
      Unbroken program host { machine with clock, passes }

namespace Program

variable {program : Program} {states after : Array Nat} {thread other : CoroutineId}

/-- What holds of the states between turns. -/
structure Settled (program : Program) (states : Array Nat) : Prop extends
    program.Orderly True states where
  /-- No thread has a chain of more coroutines than can be active. -/
  shallow : ∀ thread ∈ program.model.threads, program.Shallow states thread maxDepth

/-- Chains from a coroutine depend on nothing that it does not call. -/
theorem Shallow.congr {limit : Nat} (short : program.Shallow states thread limit)
    (same : ∀ id, Relation.ReflTransGen program.Calls thread id → after[id]? = states[id]?) :
    program.Shallow after thread limit := by
  have back : ∀ (first : CoroutineId) (chain : List CoroutineId),
      Relation.ReflTransGen program.Calls thread first →
      List.IsChain (program.Awaits after) (first :: chain) →
      List.IsChain (program.Awaits states) (first :: chain) := by
    intro first chain leads linked
    induction chain generalizing first with
    | nil => exact List.isChain_singleton _
    | cons next rest ih =>
      obtain ⟨awaits, onward⟩ := List.isChain_cons_cons.mp linked
      exact List.isChain_cons_cons.mpr ⟨awaits.congr (same first leads).symm,
        ih next (leads.tail awaits.calls) onward⟩
  exact fun chain linked => short chain (back thread chain .refl linked)

/-- Two threads never come to the same coroutine. -/
theorem Sound.apart (sound : program.Sound) (member : thread ∈ program.model.threads)
    (also : other ∈ program.model.threads) (different : thread ≠ other) {id : CoroutineId}
    (leads : Relation.ReflTransGen program.Calls thread id) :
    ¬Relation.ReflTransGen program.Calls other id := by
  obtain ⟨one, here, top⟩ := Model.mem_threads.mp member
  obtain ⟨two, there, alsoTop⟩ := Model.mem_threads.mp also
  intro leadsToo
  -- Calls stay inside their thread, and each thread works for itself.
  obtain ⟨reached, found, same⟩ := sound.leads_thread leads here
  obtain ⟨_, again, equal⟩ := sound.leads_thread leadsToo there
  cases found.symm.trans again
  rw [sound.threads thread one here top] at same
  rw [sound.threads other two there alsoTop] at equal
  exact different (same.symm.trans equal)

end Program

variable {σ : Type} [Host σ] {program : Program}

namespace Exec

open Machine (Unbroken)

variable {host : σ} {α β : Type} {fuel : Nat}

/-- A run that starts between two turns and returns ends between two turns. -/
def Turns (program : Program) (host : σ) (run : Exec σ α) : Prop :=
  ∀ ⦃machine value after⦄, Unbroken program host machine →
    run machine = .ok value after → Unbroken program host after

theorem Turns.bind {first : Exec σ α} {next : α → Exec σ β} (early : Turns program host first)
    (late : ∀ value, Turns program host (next value)) : Turns program host (first >>= next) := by
  intro machine result after held ran
  obtain ⟨value, between, one, other⟩ := bind_ok ran
  exact late value (early held one) other

theorem Turns.pure (value : α) : Turns program host (pure value) := by
  intro machine result after held ran
  cases ran
  exact held

theorem Turns.forM {entries : List α} {run : α → Exec σ Unit}
    (each : ∀ entry ∈ entries, Turns program host (run entry)) :
    Turns program host (entries.forM run) := by
  induction entries with
  | nil => exact .pure ()
  | cons entry rest ih =>
    obtain ⟨first, others⟩ := List.forall_mem_cons.mp each
    exact first.bind fun _ => ih others

/-- What a scheduler does itself comes between two turns. -/
theorem Turns.respected : Bodies.Respected fun {_} run _ => Turns program host run where
  pure := .pure
  bind early late := Turns.bind early late
  modifyGet same := by
    intro machine value after held ran
    cases ran
    obtain ⟨clock, passes, equal⟩ := same machine
    rw [equal]
    exact held.count clock passes

theorem hooks_turns (kind : HookKind) :
    Turns program host ((scheduled program fuel).hooks kind) := by
  refine Turns.respected.startAll _ (hook program fuel) fun id _ machine result after held ran => ?_
  obtain ⟨hook, -, runs⟩ := require_bind_ok ran
  obtain ⟨code, found, runs⟩ := require_bind_ok runs
  obtain ⟨value, between, body, same⟩ := bind_ok runs
  cases same
  exact held.body (List.mem_cons_of_mem _ (List.mem_of_getElem? found)) body

/-- Every operation is made of turns, and leads between two turns unless it stops early. -/
theorem obey_unbroken (machine : Machine σ) (fuel : Nat) (command : Command)
    (held : Unbroken program host machine)
    (ended : (machine.obey program fuel command).1 = none) :
    Unbroken program host (machine.obey program fuel command).2 := by
  have returns : ∀ {run : Exec σ Unit}, Turns program host run →
      (Machine.obey.finish (run machine)).1 = none →
      Unbroken program host (Machine.obey.finish (run machine)).2 := by
    intro run turns none
    cases ran : run machine with
    | ok value after => exact turns held ran
    | error halt after =>
      rw [ran] at none
      cases none
  cases command with
  | tick => exact held.count _ _
  | boot =>
    have entry : Turns program host (scheduled program fuel).entry := by
      intro machine result after held ran
      obtain ⟨value, between, body, same⟩ := bind_ok ran
      cases same
      exact held.body List.mem_cons_self body
    have booted := Turns.respected.boot (scheduled program fuel) (scheduled program fuel)
      hooks_turns entry
    exact returns (booted.bind fun _ => .pure _) ended
  | pass =>
    have threads : Turns program host (scheduled program fuel).threads :=
      .forM fun id member machine result after held ran => held.step member ran
    have passed := Turns.respected.pass (scheduled program fuel) (scheduled program fuel)
      hooks_turns threads
    exact returns (passed.bind fun _ => .pure _) ended

end Exec

/-- Operations none of which stops early lead between two turns. -/
theorem Machine.Unbroken.after (host : σ) (operations : List (Nat × Command))
    (ended : (Machine.start program host).halts program operations = []) :
    Unbroken program host ((Machine.start program host).after program operations) :=
  after_unhalted Exec.obey_unbroken operations .start ended

/-- The turn of a thread leaves the states as they have to be between turns. -/
theorem Exec.step_settled (sound : program.Sound) {fuel : Nat} {id : CoroutineId}
    (member : id ∈ program.model.threads) {machine after : Machine σ}
    (settled : program.Settled machine.states)
    (ran : step program fuel id machine = .ok () after) :
    program.Settled after.states ∧ after.depth = machine.depth := by
  have entered := settled.entered member
  have left := callees_keepsCalls sound fuel (maxDepth + 1) id machine.states entered machine rfl
  rw [show (callees program fuel (maxDepth + 1)).coroutine id machine = _ from ran] at left
  obtain ⟨-, left, depth⟩ := left
  refine ⟨⟨left.orderly member, fun thread also => ?_⟩, depth⟩
  by_cases self : thread = id
  · subst self
    have short := callees_limits sound fuel (maxDepth + 1) thread machine after entered ran
    exact fun chain linked => Nat.lt_of_lt_of_le (short chain linked) (Nat.sub_le _ _)
  · exact (settled.shallow thread also).congr fun other leads =>
      left.framed other (sound.apart also member self leads)

/-- Between turns no body is active, and the states are as they have to be. -/
theorem Machine.Unbroken.settled (sound : program.Sound) {host : σ} {machine : Machine σ}
    (unbroken : Unbroken program host machine) :
    program.Settled machine.states ∧ machine.depth = 0 := by
  induction unbroken with
  | start =>
    refine ⟨⟨start_orderly program host, fun thread _ => .alone (fun callee awaits => ?_) ?_⟩, rfl⟩
    · obtain ⟨state, known, begun⟩ := awaits.started
      exact begun (start_state known)
    · decide
  | @body fuel locals code value machine after _ member ran ih =>
    -- Bodies without a state change none.
    have plain : ∀ instr ∈ code, instr.IsPlain := by
      rcases List.mem_cons.mp member with rfl | hook
      · exact sound.plain.entry
      · exact sound.plain.hooks code hook
    have quiet : Exec.Quiet (Exec.runBody program fuel (Exec.outermost program fuel) locals code [])
        (Exec.runBody program fuel (Exec.outermost (σ := σ) program fuel) locals code []) :=
      Exec.runBody_quiet (Exec.callees_quiet sound.plain fuel maxDepth) fuel plain locals []
    have outcome := quiet machine.states machine rfl
    rw [ran] at outcome
    exact ⟨outcome.2.1 ▸ ih.1, outcome.2.2.trans ih.2⟩
  | step _ member ran ih =>
    obtain ⟨settled, depth⟩ := Exec.step_settled sound member ih.1 ran
    exact ⟨settled, depth.trans ih.2⟩
  | count clock passes _ ih => exact ih

/-! ## Going on along a chain -/

/-- What a coroutine does first when it goes on, if it was not just interrupted. -/
def PointKind.again : PointKind → Option Instr
  | .yield => none
  | .waitUntil condition hint => some (.returnUnless condition hint)
  | .call callee => some (.drive callee)

/-- A coroutine that waits or calls goes on right at its condition or its call. -/
theorem StateMachine.WellFormed.resumeCode_again {machine : StateMachine}
    (formed : machine.WellFormed) {point : Point} {kind : PointKind} {instr : Instr}
    (known : kindAt? machine.points point = some kind) (again : kind.again = some instr) :
    ∃ rest, machine.resumeCode (stateAt point) = .resume point :: instr :: rest := by
  obtain ⟨suspension, place, -⟩ := Option.map_eq_some_iff.mp known
  rcases formed.resumeCode_cases (stateAt point) with ⟨other, same, resumes⟩ | ⟨-, none⟩
  · obtain rfl : point = other := Nat.succ.inj same
    generalize machine.resumeCode (stateAt point) = code at resumes
    cases resumes with
    | yield here =>
      cases here.symm.trans known
      cases again
    | waitUntil here | call here =>
      cases here.symm.trans known
      cases again
      exact ⟨_, rfl⟩
  · exact absurd rfl (none point (List.getElem?_eq_some_iff.mp place).1)

namespace Exec

variable {machine : Machine σ}

/-- Goes on behind the instruction at which a coroutine was suspended in given states. -/
def goOnBehind (program : Program) (fuel : Nat) (callees : Callees σ) (states : Array Nat)
    (id : CoroutineId) : Exec σ Unit := do
  let machine ← require program.coroutines[id]?
  let rest := (machine.resumeCode (← require states[id]?)).drop 2
  let _ ← run program callees (some id) machine.code fuel rest (.enter [] [])

/--
Lets coroutines go on that await each other.

Nothing is done on the way to the last of them, which tests its condition once. It goes on behind
its wait if this holds, and each of the others behind its call if the one that it called has ended.
-/
def recheck (program : Program) (fuel : Nat) (states : Array Nat) (condition : Expr) :
    Nat → CoroutineId → List CoroutineId → Exec σ Unit
  | levels, last, [] => enter do
    let inner := callees program (fuel + 2) levels
    let value ← eval program.model inner (.enter [] []) condition
    if value ≠ 0 then goOnBehind program fuel inner states last
  | levels, id, next :: rest => enter do
    recheck program fuel states condition (levels - 1) next rest
    let called ← require program.coroutines[next]?
    if (← state next) = called.width.endState then
      setState next startState
      goOnBehind program fuel (callees program (fuel + 2) levels) states id

/-- What is left of the outcome of a condition once the bodies around it are left. -/
def unwound (depth : Nat) :
    EStateM.Result Halt (Machine σ) Int64 → EStateM.Result Halt (Machine σ) Unit
  | .ok _ after => .ok () { after with depth }
  | .error halt after => .error halt { after with depth }

variable {fuel : Nat} {callees : Callees σ} {id : CoroutineId} {code : StateMachine}

omit [Host σ] in
theorem state_eq {state : Nat} (known : machine.states[id]? = some state) :
    Exec.state id machine = .ok state machine := by
  show require machine.states[id]? machine = _
  rw [known]
  rfl

/-- An evaluation leaves the states and the number of active bodies as they are. -/
theorem eval_behind (plain : program.IsPlain) (fuel levels : Nat) (frame : Frame) (expr : Expr)
    (machine : Machine σ) :
    let after := behind (eval program.model (Exec.callees program fuel levels) frame expr) machine
    after.states = machine.states ∧ after.depth = machine.depth := by
  have quiet : Quiet (eval program.model (Exec.callees program fuel levels) frame expr)
      (eval program.model (Exec.callees (σ := σ) program fuel levels) frame expr) :=
    Quiet.congruence.eval (callees_quiet plain fuel levels) frame expr.refers_everything
  have outcome := (quiet machine.states machine rfl).2
  unfold behind
  cases ran : eval program.model (Exec.callees program fuel levels) frame expr machine with
  | ok value after | error halt after =>
    rw [ran] at outcome
    exact outcome

/-- A coroutine goes on in its code as its state tells. -/
theorem runCoroutine_eq (found : program.coroutines[id]? = some code) {state : Nat}
    (known : machine.states[id]? = some state) :
    runCoroutine program fuel callees id machine =
      enter (run program callees (some id) code.code fuel (code.resumeCode state) (.enter [] []) >>=
        fun _ => pure ()) machine := by
  -- The value of a body can be left out inside it.
  have ignore : ∀ body : Exec σ (Option Int64 × Frame),
      (enter body >>= fun _ => pure ()) = enter (body >>= fun _ => pure ()) := by
    intro body
    funext machine
    simp only [enter, Bind.bind, EStateM.bind]
    by_cases room : machine.depth < maxDepth
    · simp only [if_pos room]
      cases body { machine with depth := machine.depth + 1 } <;> rfl
    · simp only [if_neg room]
  rw [← ignore]
  simp only [runCoroutine, found, require_some, pure_bind]
  show EStateM.bind (Exec.state id) _ machine = _
  simp only [EStateM.bind, state_eq known]

omit [Host σ] in
/-- A body that starts like another one goes on like it. -/
theorem enter_congr {α β : Type} {first other : Exec σ α} {next next' : α → Exec σ β}
    (early : first { machine with depth := machine.depth + 1 } =
      other { machine with depth := machine.depth + 1 })
    (late : ∀ value, next value = next' value) :
    enter (first >>= next) machine = enter (other >>= next') machine := by
  obtain rfl : next = next' := funext late
  simp only [enter, Bind.bind, EStateM.bind, early]

section Chain

variable (sound : program.Sound) {point : Point} {condition : Expr}
  {hint : Option Likelihood} {first : CoroutineId} {chain : List CoroutineId}
  {machine : Machine σ} (linked : List.IsChain (program.Awaits machine.states) (first :: chain))
  (found : program.coroutines[chain.getLastD first]? = some code)
  (suspended : machine.states[chain.getLastD first]? = some (stateAt point))
  (waits : kindAt? code.points point = some (.waitUntil condition hint))

include sound linked found suspended waits

/-- Letting the first of a chain go on is letting the last one test its condition. -/
theorem runCoroutine_recheck {levels : Nat} (few : chain.length ≤ levels) :
    runCoroutine program (fuel + 2) (Exec.callees program (fuel + 2) levels) first machine =
      recheck program fuel machine.states condition levels first chain machine := by
  induction chain generalizing first levels machine with
  | nil =>
    rw [List.getLastD_nil] at found suspended
    obtain ⟨rest, same⟩ := (sound.machines _ code found).resumeCode_again waits rfl
    rw [runCoroutine_eq found suspended, same, recheck]
    simp only [run, execute, pure_bind, bind_assoc]
    refine enter_congr rfl fun value => ?_
    by_cases zero : value = 0 <;> simp [zero, goOnBehind, found, suspended, same]
  | cons next rest ih =>
    rw [List.getLastD_cons] at found suspended
    obtain ⟨awaits, onward⟩ := List.isChain_cons_cons.mp linked
    obtain ⟨caller, place, known, state, kind⟩ := awaits
    obtain ⟨behind, same⟩ := (sound.machines _ caller known).resumeCode_again kind rfl
    cases levels with
    | zero => cases few
    | succ levels =>
      rw [runCoroutine_eq known state, same, recheck]
      simp only [run, execute, pure_bind, bind_assoc]
      -- The subroutine finds the same states, with one more body active.
      let entered : Machine σ := { machine with depth := machine.depth + 1 }
      have inner := @ih next entered onward found suspended levels (Nat.le_of_succ_le_succ few)
      refine enter_congr inner fun _ => bind_congr fun called => bind_congr fun state' => ?_
      by_cases ended : state' = called.width.endState <;>
        simp [ended, goOnBehind, known, state, same]

omit [Host σ] in
/-- The first of a chain is suspended, be it the last one too or not. -/
theorem not_ended : ∃ called state, program.coroutines[first]? = some called ∧
    machine.states[first]? = some state ∧ state ≠ called.width.endState := by
  obtain ⟨called, place, kind, there, here, known⟩ : ∃ called place kind,
      program.coroutines[first]? = some called ∧ machine.states[first]? = some (stateAt place) ∧
        kindAt? called.points place = some kind := by
    cases chain with
    | nil => exact ⟨code, point, _, found, suspended, waits⟩
    | cons next rest =>
      obtain ⟨caller, place, known, state, kind⟩ := (List.isChain_cons_cons.mp linked).1
      exact ⟨caller, place, _, known, state, kind⟩
  obtain ⟨suspension, listed, -⟩ := Option.map_eq_some_iff.mp known
  have rests : called.CanRest (stateAt place) :=
    .inr ⟨place, (List.getElem?_eq_some_iff.mp listed).1, rfl⟩
  exact ⟨called, _, there, here, rests.ne_end (sound.machines first called there)⟩

/-- As long as the condition does not hold, nothing but its test happens along a chain. -/
theorem recheck_unwound {states : Array Nat} {levels : Nat}
    (room : machine.depth + chain.length < maxDepth)
    {test : EStateM.Result Halt (Machine σ) Int64}
    (tested : eval program.model (Exec.callees program (fuel + 2) (levels - chain.length))
      (.enter [] []) condition { machine with depth := machine.depth + chain.length + 1 } = test)
    (fails : ∀ value after, test = .ok value after → value = 0) :
    recheck program fuel states condition levels first chain machine =
      unwound machine.depth test := by
  have kept := eval_behind sound.plain (fuel + 2) (levels - chain.length) (.enter [] []) condition
    { machine with depth := machine.depth + chain.length + 1 }
  simp only [behind, tested] at kept
  induction chain generalizing first levels machine with
  | nil =>
    have inside : machine.depth < maxDepth := room
    have tested : eval program.model (Exec.callees program (fuel + 2) levels) (.enter [] [])
        condition { machine with depth := machine.depth + 1 } = test := tested
    simp only [recheck, enter, if_pos inside, Bind.bind, EStateM.bind, tested]
    cases test with
    | ok value after =>
      obtain rfl := fails value after rfl
      have depth : after.depth = machine.depth + 1 := kept.2
      simp [unwound, pure, EStateM.pure, depth]
    | error halt after =>
      have depth : after.depth = machine.depth + 1 := kept.2
      simp [unwound, depth]
  | cons next rest ih =>
    rw [List.getLastD_cons] at found suspended
    obtain ⟨-, onward⟩ := List.isChain_cons_cons.mp linked
    rw [List.length_cons] at room
    have depth : machine.depth + 1 + rest.length + 1 = machine.depth + (rest.length + 1) + 1 := by
      omega
    have below : levels - 1 - rest.length = levels - (rest.length + 1) := by omega
    have room : machine.depth + 1 + rest.length < maxDepth := by omega
    have inner : recheck program fuel states condition (levels - 1) next rest
        { machine with depth := machine.depth + 1 } = unwound (machine.depth + 1) test :=
      @ih next { machine with depth := machine.depth + 1 } onward found suspended (levels - 1) room
        (by rw [depth, below]; exact tested) (by rw [depth]; exact kept)
    have inside : machine.depth < maxDepth := by omega
    rw [recheck]
    simp only [enter, if_pos inside, Bind.bind, EStateM.bind, inner]
    cases test with
    | error halt after => rfl
    | ok value after =>
      -- The subroutine is still suspended, so that nothing happens behind its call.
      obtain ⟨called, state, there, here, going⟩ := not_ended sound onward found suspended waits
      have same : after.states = machine.states := kept.1
      have read : Exec.state next { after with depth := machine.depth + 1 } = .ok state _ :=
        state_eq (same ▸ here)
      simp only [unwound, there, require_some, pure, EStateM.pure, read, if_neg going]
      rfl

end Chain

end Exec

namespace Machine

/--
A blocked thread does nothing but test its condition again.

The last one in the chain of calls of a thread waits until a condition holds. Between any two turns
of the scheduler in which nothing has stopped early, the next turn of the thread is one evaluation of
this condition, with as many bodies active as the chain has coroutines, before anything else. If the
condition does not hold, this is all: no state has changed, and the rest of the machine is as the
evaluation left it. If the evaluation stops, so does the turn, for the same reason. Only behind a
condition that holds is more done, beginning behind the wait and never before a call.
-/
theorem blocked_threads_recheck {source : Source} {warnings : List (Located Warning)}
    (linked : source.link = .ok (program, warnings)) {host : σ} {machine : Machine σ}
    (unbroken : Unbroken program host machine) {thread : CoroutineId}
    (member : thread ∈ program.model.threads) {chain : List CoroutineId}
    (chained : List.IsChain (program.Awaits machine.states) (thread :: chain))
    {code : StateMachine} {point : Point} {condition : Expr} {hint : Option Likelihood}
    (found : program.coroutines[chain.getLastD thread]? = some code)
    (suspended : machine.states[chain.getLastD thread]? = some (stateAt point))
    (waits : kindAt? code.points point = some (.waitUntil condition hint)) (fuel : Nat) :
    let turn := Exec.step program (fuel + 2) thread machine
    let test := Exec.eval program.model
      (Exec.callees program (fuel + 2) (maxDepth - chain.length)) (.enter [] []) condition
      { machine with depth := chain.length + 1 }
    turn = Exec.recheck program fuel machine.states condition maxDepth thread chain machine ∧
    (∀ after, test = .ok 0 after →
      turn = .ok () { after with depth := 0 } ∧ after.states = machine.states) ∧
    ∀ halt after, test = .error halt after →
      turn = .error halt { after with depth := 0 } ∧ after.states = machine.states := by
  intro turn test
  have sound := Source.link_sound linked
  obtain ⟨settled, idle⟩ := unbroken.settled sound
  have short : chain.length < maxDepth := settled.shallow thread member chain chained
  have same : turn = Exec.recheck program fuel machine.states condition maxDepth thread chain
      machine := Exec.runCoroutine_recheck sound chained found suspended waits (Nat.le_of_lt short)
  have unwound : (∀ value after, test = .ok value after → value = 0) →
      turn = Exec.unwound 0 test := by
    intro fails
    rw [same, Exec.recheck_unwound sound chained found suspended waits (by rwa [idle, Nat.zero_add])
      (by rw [idle, Nat.zero_add]) fails, idle]
  have still := (Exec.eval_behind sound.plain (fuel + 2) (maxDepth - chain.length) (.enter [] [])
    condition { machine with depth := chain.length + 1 }).1
  refine ⟨same, fun after outcome => ?_, fun halt after outcome => ?_⟩
  all_goals
    rw [Exec.behind, show Exec.eval _ _ _ _ _ = _ from outcome] at still
    rw [outcome] at unwound
  · refine ⟨unwound fun value left result => ?_, still⟩
    cases result
    rfl
  · refine ⟨unwound fun value left result => ?_, still⟩
    cases result

end Machine

/-- The condition that a coroutine waits for at a point. -/
def PointKind.condition? : PointKind → Option Expr
  | .waitUntil condition _ => some condition
  | _ => none

/-- A thread that calls a subroutine, which waits for a variable. -/
def Source.blocked : Source :=
  .ofText "blocked" "static u8 g;thread t{sub s{wait_until g;}call s;}main{}"

/-- The first pass leaves the thread at its call and the subroutine at its wait. -/
theorem Source.blocked_waits : ∃ program warnings, blocked.link = .ok (program, warnings) ∧
    program.model.threads = [0] ∧ (program.calls 0).map Located.value = [1] ∧
    program.coroutines.map (·.points.map (·.kind.condition?.isSome)) = [[false], [true]] ∧
    let machine := (Machine.start program Bench.empty).after program [(9, .boot), (9, .pass)]
    (Machine.start program Bench.empty).halts program [(9, .boot), (9, .pass)] = [] ∧
      machine.states = #[1, 1] ∧
      ∀ condition ∈ program.coroutines.flatMap (·.points.filterMap (·.kind.condition?)),
        Exec.value? (Exec.eval program.model (Exec.callees program 9 63) (.enter [] []) condition)
          { machine with depth := 2 } = some 0 :=
  blocked.links_of_decide (by decide +kernel)

/-- The next turn of the thread reads the variable, and leaves both as they are. -/
theorem Machine.blocked_rechecks : ∃ program warnings condition after,
    Source.blocked.link = .ok (program, warnings) ∧
      let machine := (start program Bench.empty).after program [(9, .boot), (9, .pass)]
      Exec.eval program.model (Exec.callees program 9 63) (.enter [] []) condition
        { machine with depth := 2 } = .ok 0 after ∧
      Exec.step program 9 0 machine = .ok () { after with depth := 0 } ∧
      after.states = #[1, 1] := by
  obtain ⟨program, warnings, linked, threads, calls, waits, ended, states, zero⟩ :=
    Source.blocked_waits
  let machine := (start program Bench.empty).after program [(9, .boot), (9, .pass)]
  obtain ⟨caller, place, there, kind⟩ : program.Calls 0 1 := by
    refine Program.mem_calls.mp (List.mem_map.mp ?_)
    rw [calls]
    exact List.mem_singleton.mpr rfl
  obtain ⟨first, second, listed, ⟨call, one, -⟩, wait, two, waiting⟩ :
      ∃ first second, program.coroutines = [first, second] ∧
        (∃ call, first.points = [call] ∧ call.kind.condition?.isSome = false) ∧
        ∃ wait, second.points = [wait] ∧ wait.kind.condition?.isSome = true := by
    simpa [List.map_eq_cons_iff] using waits
  obtain rfl : first = caller := by simpa [listed] using there
  obtain ⟨suspension, point, -⟩ := Option.map_eq_some_iff.mp kind
  obtain rfl : place = 0 := by
    have small := (List.getElem?_eq_some_iff.mp point).1
    rw [one, List.length_singleton] at small
    exact Nat.lt_one_iff.mp small
  obtain ⟨condition, hint, known⟩ : ∃ condition hint, wait.kind = .waitUntil condition hint := by
    cases same : wait.kind with
    | waitUntil condition hint => exact ⟨condition, hint, rfl⟩
    | yield | call =>
      rw [same] at waiting
      cases waiting
  -- The variable is zero, as it was at the start.
  obtain ⟨after, tested⟩ := Exec.ok_of_value? (zero condition (by
    simp [listed, one, two, known, PointKind.condition?]))
  have member : 0 ∈ program.model.threads := by simp [threads]
  have here : ∀ id : CoroutineId, id < 2 → machine.states[id]? = some (stateAt 0) := by
    rw [show machine.states = _ from states]
    decide
  have chained : List.IsChain (program.Awaits machine.states) [0, 1] :=
    List.isChain_cons_cons.mpr ⟨⟨first, 0, there, here 0 (by decide), kind⟩,
      List.isChain_singleton _⟩
  obtain ⟨-, stays, -⟩ := blocked_threads_recheck linked (.after Bench.empty _ ended) member chained
    (show program.coroutines[[1].getLastD 0]? = some second by simp [listed]) (here 1 (by decide))
    (show kindAt? second.points 0 = some (.waitUntil condition hint) by simp [kindAt?, two, known]) 7
  obtain ⟨turn, same⟩ := stays after tested
  exact ⟨program, warnings, condition, after, linked, tested, turn, same.trans states⟩

end Coro
