import Coro.Machine.Bench
import Coro.Proofs.Machine.Awaiting

/-!
One chain of calls for each thread.

A coroutine that goes on changes its own state and those of the subroutines below it. It leaves a
call only when the callee has ended or is suspended itself, so that whoever has started is awaited.
The end of a subroutine is seen by its caller alone, who sets the subroutine back before anything
can stop.
-/

namespace Coro

variable {rest : Code} {id : CoroutineId} {fuel state value : Nat} {machine : StateMachine}

/-- A coroutine in this state has not started, or is suspended at one of its points. -/
def StateMachine.CanRest (machine : StateMachine) (state : Nat) : Prop :=
  state = startState ∨ ∃ point < machine.points.length, state = stateAt point

/-- A coroutine that rests has not ended. -/
theorem StateMachine.CanRest.ne_end (formed : machine.WellFormed) (rests : machine.CanRest state) :
    state ≠ machine.width.endState := by
  rcases rests with rfl | ⟨point, within, rfl⟩
  · rw [startState]
    cases machine.width <;> decide
  · -- The state tells the point, so that it cannot be the one that tells the end.
    intro ended
    have told : pointOf? (stateAt point) machine.width = some point :=
      pointOf?_stateAt within formed.limited
    simp [pointOf?, ended] at told

/-- The others have started or not, as before. -/
theorem started_set {states : Array Nat} {active : CoroutineId} (different : id ≠ active) :
    Started (states.setIfInBounds active value) id ↔ Started states id := by
  simp [Started, Array.getElem?_setIfInBounds_ne different.symm]

namespace Program

variable {program : Program} {clean : Prop} {active caller callee id : CoroutineId}
  {start states : Array Nat}

/-- The others await whom they did. -/
theorem awaits_set (different : caller ≠ active) :
    program.Awaits (states.setIfInBounds active value) caller callee ↔
      program.Awaits states caller callee := by
  simp [Awaits, Array.getElem?_setIfInBounds_ne different.symm]

theorem getElem?_set {old : Nat} (known : states[active]? = some old) :
    (states.setIfInBounds active value)[active]? = some value := by
  obtain ⟨within, -⟩ := Array.getElem?_eq_some_iff.mp known
  simp [within]

/-- A coroutine has a state in which it can rest. -/
def Resting (program : Program) (states : Array Nat) (id : CoroutineId) : Prop :=
  ∀ machine, program.coroutines[id]? = some machine →
    ∃ state, states[id]? = some state ∧ machine.CanRest state

/-- The others rest as before. -/
theorem Resting.set (different : id ≠ active) (rests : program.Resting states id) :
    program.Resting (states.setIfInBounds active value) id := by
  intro machine found
  rw [Array.getElem?_setIfInBounds_ne different.symm]
  exact rests machine found

/-- Where all others rest, all do when one has got a state in which it can. -/
theorem resting_set {old : Nat} (others : ∀ id, id ≠ active → program.Resting states id)
    (known : states[active]? = some old)
    (fits : ∀ machine, program.coroutines[active]? = some machine → machine.CanRest value)
    (id : CoroutineId) : program.Resting (states.setIfInBounds active value) id := by
  by_cases same : id = active
  · subst same
    exact fun machine found => ⟨value, getElem?_set known, fits machine found⟩
  · exact (others id same).set same

/-- A coroutine has the state of its end. -/
def Ended (program : Program) (states : Array Nat) (id : CoroutineId) : Prop :=
  ∃ machine, program.coroutines[id]? = some machine ∧ states[id]? = some machine.width.endState

/-- What holds wherever something can stop. -/
structure Kept (program : Program) (states : Array Nat) : Prop where
  rests : ∀ id, program.Resting states id
  answered : program.Answered states

/-- What holds when a coroutine goes on; it may be called and not have started yet. -/
structure Entered (program : Program) (clean : Prop) (active : CoroutineId) (states : Array Nat) :
    Prop extends program.Kept states where
  awaited : program.IsSubroutine active → ∃ caller, program.Awaits states caller active
  /-- Unless something has stopped early, whoever else is awaited has started. -/
  alive : clean → ∀ caller callee, callee ≠ active → program.Awaits states caller callee →
    Started states callee

/-- What holds while a coroutine runs; it may await a subroutine that has just ended. -/
structure Running (program : Program) (clean : Prop) (active : CoroutineId)
    (start states : Array Nat) : Prop where
  answered : program.Answered states
  /-- Only the coroutine itself and what it calls, directly or not, may have changed. -/
  framed : ∀ id, ¬Relation.ReflTransGen program.Calls active id → states[id]? = start[id]?
  alive : clean → ∀ caller callee, caller ≠ active → callee ≠ active →
    program.Awaits states caller callee → Started states callee

/-- What holds when a coroutine has gone on; a subroutine may have ended. -/
structure Left (program : Program) (clean : Prop) (active : CoroutineId)
    (start states : Array Nat) : Prop where
  rests : ∀ id, program.Resting states id ∨
    id = active ∧ program.IsSubroutine active ∧ program.Ended states active
  answered : program.Answered states
  framed : ∀ id, ¬Relation.ReflTransGen program.Calls active id → states[id]? = start[id]?
  alive : clean → ∀ caller callee, program.Awaits states caller callee → Started states callee

/-- Where a coroutine stands in its code, and what its state tells there. -/
inductive Stands (program : Program) (machine : StateMachine) (active : CoroutineId)
    (states : Array Nat) : Code → Prop where
  /-- Between suspensions: whom it still seems to await has ended. -/
  | settled {rest : Code} : Code.Laid machine.points rest →
      (∀ callee, program.Awaits states active callee → ¬Started states callee) →
      Stands program machine active states rest
  | suspending {point : Point} {rest : Code} : states[active]? = some (stateAt point) →
      kindAt? machine.points point = some .yield →
      Stands program machine active states (.suspend :: rest)
  | resuming {point : Point} {rest : Code} : states[active]? = some (stateAt point) →
      Code.Resumes machine.points point rest → Stands program machine active states rest
  | testing {point : Point} {condition : Expr} {hint : Option Likelihood} {rest : Code} :
      states[active]? = some (stateAt point) →
      kindAt? machine.points point = some (.waitUntil condition hint) →
      Code.Laid machine.points rest →
      Stands program machine active states (.returnUnless condition hint :: rest)
  | driving {point : Point} {callee : CoroutineId} {rest : Code} :
      states[active]? = some (stateAt point) →
      kindAt? machine.points point = some (.call callee) → Code.Laid machine.points rest →
      Stands program machine active states (.drive callee :: rest)

/-- A place in the code of a coroutine, and what holds there. -/
structure Position (program : Program) (clean : Prop) (machine : StateMachine)
    (active : CoroutineId) (start : Array Nat) (rest : Code) (states : Array Nat) : Prop where
  stands : program.Stands machine active states rest
  running : program.Running clean active start states
  rests : ∀ id, program.Resting states id
  part : rest <:+ machine.code
  whole : [.finish] <:+ rest

/-- Nothing has changed at the start. -/
theorem Entered.running (entered : program.Entered clean active start) :
    program.Running clean active start start where
  answered := entered.answered
  framed := fun _ _ => rfl
  alive := fun unbroken caller callee _ => entered.alive unbroken caller callee

section Changes

variable (sound : program.Sound)

include sound

/-- No call leads back to who awaits it. -/
theorem Awaits.above (awaits : program.Awaits states caller callee) :
    ¬Relation.ReflTransGen program.Calls callee caller :=
  fun back => sound.acyclic callee (Relation.TransGen.tail' back awaits.calls)

theorem Awaits.ne (awaits : program.Awaits states caller callee) : caller ≠ callee := by
  rintro rfl
  exact awaits.above sound .refl

/-- A subroutine that runs is awaited. -/
theorem Running.awaited (running : program.Running clean active start states)
    (entered : program.Entered clean active start) (nested : program.IsSubroutine active) :
    ∃ caller, program.Awaits states caller active := by
  obtain ⟨caller, awaits⟩ := entered.awaited nested
  exact ⟨caller, awaits.congr (running.framed caller (awaits.above sound))⟩

/-- A coroutine that awaits nobody who has started can change its state. -/
theorem Answered.set (answered : program.Answered states)
    (awaited : program.IsSubroutine active → ∃ caller, program.Awaits states caller active)
    (settled : ∀ callee, program.Awaits states active callee → ¬Started states callee)
    (value : Nat) : program.Answered (states.setIfInBounds active value) := by
  intro callee nested started
  by_cases same : callee = active
  · -- Its own caller is another one, whose state has not changed.
    subst same
    obtain ⟨caller, awaits⟩ := awaited nested
    exact ⟨caller, (awaits_set (awaits.ne sound)).mpr awaits⟩
  · rw [started_set same] at started
    obtain ⟨caller, awaits⟩ := answered callee nested started
    have other : caller ≠ active := by
      rintro rfl
      exact settled callee awaits started
    exact ⟨caller, (awaits_set other).mpr awaits⟩

variable (running : program.Running clean active start states)

include running

/-- A coroutine that awaits nobody who has started keeps all that holds when it changes its state. -/
theorem Running.set (entered : program.Entered clean active start)
    (settled : ∀ callee, program.Awaits states active callee → ¬Started states callee)
    (value : Nat) : program.Running clean active start (states.setIfInBounds active value) := by
  refine ⟨running.answered.set sound (running.awaited sound entered) settled value,
    fun id apart => ?_, fun unbroken caller callee other different awaits => ?_⟩
  · have different : active ≠ id := by
      rintro rfl
      exact apart .refl
    rw [Array.getElem?_setIfInBounds_ne different]
    exact running.framed id apart
  · rw [awaits_set other] at awaits
    rw [started_set different]
    exact running.alive unbroken caller callee other different awaits

/-- A coroutine that awaits nobody can be left. -/
theorem Running.left (alone : ∀ callee, ¬program.Awaits states active callee)
    (begun : program.IsSubroutine active → Started states active)
    (rests : ∀ id, program.Resting states id ∨
      id = active ∧ program.IsSubroutine active ∧ program.Ended states active) :
    program.Left clean active start states := by
  refine ⟨rests, running.answered, running.framed, fun unbroken caller callee awaits => ?_⟩
  have other : caller ≠ active := by
    rintro rfl
    exact alone callee awaits
  by_cases same : callee = active
  · subst same
    exact begun (awaits.isSubroutine sound)
  · exact running.alive unbroken caller callee other same awaits

end Changes

namespace Position

variable {machine : StateMachine} {instr : Instr} {rest : Code} {after : Array Nat}

theorem kept (here : program.Position clean machine active start rest states) :
    program.Kept states :=
  ⟨here.rests, here.running.answered⟩

variable (here : program.Position clean machine active start (instr :: rest) states)

include here

/-- The next position, behind any instruction but the last one. -/
theorem next (going : instr ≠ .finish) (stands : program.Stands machine active after rest)
    (running : program.Running clean active start after) (rests : ∀ id, program.Resting after id) :
    program.Position clean machine active start rest after := by
  refine ⟨stands, running, rests, List.IsSuffix.trans (List.suffix_cons instr rest) here.part, ?_⟩
  -- The code ends with the end of the coroutine, which has not been reached.
  rcases List.suffix_cons_iff.mp here.whole with same | later
  · cases same
    exact absurd rfl going
  · exact later

/-- The position at a label. -/
theorem jump (formed : machine.WellFormed) {label : Label} (target : instr.target? = some label)
    (settled : ∀ callee, program.Awaits states active callee → ¬Started states callee) :
    program.Position clean machine active start (machine.code.from label) states := by
  have member : instr ∈ machine.code := here.part.subset (by simp)
  obtain ⟨place, known, placed⟩ := List.mem_filterMap.mp (formed.closed instr member label target)
  have part : machine.code.from label <:+ machine.code := List.dropWhile_suffix _
  refine ⟨.settled (formed.laid.jump label) settled, here.running, here.rests, part, ?_⟩
  -- The label is placed, so that something stands there, up to the end of the code.
  have found : machine.code.from label ≠ [] := by
    intro missing
    have skipped := List.dropWhile_eq_nil_iff.mp missing place known
    simp [placed] at skipped
  refine List.suffix_of_suffix_length_le formed.ends part ?_
  exact List.length_pos_iff.mpr found

end Position

/-- Who has not started awaits nobody. -/
theorem not_awaits_start (known : states[caller]? = some startState) :
    ¬program.Awaits states caller callee := by
  rintro ⟨_, point, -, here, -⟩
  cases known.symm.trans here

/-- A coroutine that has ended awaits nobody. -/
theorem not_awaits_end (formed : machine.WellFormed)
    (found : program.coroutines[caller]? = some machine)
    (known : states[caller]? = some machine.width.endState) :
    ¬program.Awaits states caller callee := by
  rintro ⟨_, point, same, here, kind⟩
  cases found.symm.trans same
  obtain ⟨suspension, place, -⟩ := Option.map_eq_some_iff.mp kind
  -- A state that tells a point does not tell the end.
  have rests : machine.CanRest (stateAt point) :=
    .inr ⟨point, (List.getElem?_eq_some_iff.mp place).1, rfl⟩
  exact rests.ne_end formed (Option.some.inj (here.symm.trans known))

/-- If a coroutine that has gone on has not ended, then all rest. -/
theorem Left.kept (left : program.Left clean active start states)
    (going : ¬program.Ended states active) : program.Kept states :=
  ⟨fun id => (left.rests id).resolve_right fun ended => going ended.2.2, left.answered⟩

section Driving

variable (sound : program.Sound) {middle : Array Nat}
  (running : program.Running clean active start states)
  (awaits : program.Awaits states active callee)

include running awaits

/-- A subroutine goes on when it is awaited. -/
theorem Running.enter (rests : ∀ id, program.Resting states id) :
    program.Entered clean callee states := by
  refine ⟨⟨rests, running.answered⟩, fun _ => ⟨active, awaits⟩,
    fun unbroken caller other new also => ?_⟩
  by_cases same : caller = active
  · -- The running coroutine awaits nobody else.
    subst same
    exact absurd (also.unique awaits) new
  · by_cases back : other = active
    · exact back ▸ awaits.started
    · exact running.alive unbroken caller other same back also

include sound

variable (left : program.Left clean callee states middle)

include left

/-- The caller is as it was when a subroutine has gone on. -/
theorem Left.above :
    program.Running clean active start middle ∧ program.Awaits middle active callee := by
  refine ⟨⟨left.answered, fun id apart => ?_, fun unbroken caller other _ _ =>
    left.alive unbroken caller other⟩, awaits.congr (left.framed active (awaits.above sound))⟩
  -- What the subroutine calls is below its caller too.
  rw [left.framed id fun below => apart (.head awaits.calls below)]
  exact running.framed id apart

theorem Left.suspend (going : ¬program.Ended middle callee)
    : program.Left clean active start middle := by
  obtain ⟨still, -⟩ := left.above sound running awaits
  exact ⟨fun id => .inl ((left.kept going).rests id), left.answered, still.framed, left.alive⟩

/-- A coroutine goes on when the subroutine that it called has ended and is set back. -/
theorem Left.reset (found : program.coroutines[callee]? = some machine)
    (ended : middle[callee]? = some machine.width.endState) :
    program.Running clean active start (middle.setIfInBounds callee startState) ∧
      ∀ other, program.Awaits (middle.setIfInBounds callee startState) active other →
        ¬Started (middle.setIfInBounds callee startState) other := by
  obtain ⟨still, awaiting⟩ := left.above sound running awaits
  have reset : (middle.setIfInBounds callee startState)[callee]? = some startState :=
    getElem?_set ended
  have formed := sound.machines callee machine found
  have alone : ∀ other, ¬program.Awaits middle callee other :=
    fun other => not_awaits_end formed found ended
  refine ⟨⟨?_, fun id apart => ?_, fun unbroken caller other new back also => ?_⟩, ?_⟩
  · exact left.answered.set sound (fun _ => ⟨active, awaiting⟩)
      (fun other also => absurd also (alone other)) startState
  · have different : callee ≠ id := by
      rintro rfl
      exact apart (.single awaits.calls)
    rw [Array.getElem?_setIfInBounds_ne different]
    exact still.framed id apart
  · have different : caller ≠ callee := by
      rintro rfl
      exact not_awaits_start reset also
    rw [awaits_set different] at also
    have another : other ≠ callee := by
      rintro rfl
      exact new (awaiting_unique sound left.answered also awaiting)
    rw [started_set another]
    exact left.alive unbroken caller other also
  · -- Whom the coroutine seems to await is the one that has been set back.
    intro other also
    rw [awaits_set (awaits.ne sound)] at also
    obtain rfl := awaiting.unique also
    rintro ⟨state, known, begun⟩
    exact begun (Option.some.inj (known.symm.trans reset))

end Driving

end Program

namespace Exec

variable {σ : Type} [Host σ] {program : Program} {clean : Prop}

/-- Coroutines that go on when they are awaited leave all others awaited that have started. -/
def KeepsCalls (program : Program) (clean : Prop) (goOn other : CoroutineId → Exec σ Unit) : Prop :=
  ∀ active start, program.Entered clean active start →
    Meets (· = start) (goOn active) (other active)
      (fun _ => program.Left clean active start) program.Kept

/-- From some states, an instruction leads to a position behind it, or out of the coroutine. -/
abbrev KeepsPosition (program : Program) (clean : Prop) (callees other : Callees σ)
    (machine : StateMachine) (active : CoroutineId) (start : Array Nat) (before : Array Nat → Prop)
    (instr : Instr) (rest : Code) (frame : Frame) : Prop :=
  Meets before (execute program callees (some active) frame instr)
    (execute program other (some active) frame instr)
    (fun result => machine.code.Onward rest (program.Position clean machine active start)
      (program.Left clean active start) result.1) program.Kept

section Run

variable (sound : program.Sound) {callees other : Callees σ} (quiet : callees.Quiet other)
  (inner : KeepsCalls program clean callees.coroutine other.coroutine) {active : CoroutineId}
  {machine : StateMachine} {start states : Array Nat}
  (entered : program.Entered clean active start)
  (found : program.coroutines[active]? = some machine)

include sound entered

include found in
/-- Keeping a point in the state leads to the rest of the suspension. -/
theorem setState_position {point : Point}
    (here : program.Position clean machine active start (.setState point :: rest) states)
    (settled : ∀ callee, program.Awaits states active callee → ¬Started states callee)
    (onward : ∀ after : Array Nat, after[active]? = some (stateAt point) →
      program.Stands machine active after rest) (frame : Frame) :
    KeepsPosition program clean callees other machine active start (· = states) (.setState point) rest
      frame := by
  have stored : Meets (σ := σ) (· = states) (setState active (stateAt point))
      (setState active (stateAt point))
      (fun _ => program.Position clean machine active start rest) program.Kept := by
    refine .setState (fun _ same _ => same ▸ here.kept) fun _ old same known => ?_
    subst same
    refine here.next nofun (onward _ (Program.getElem?_set known))
      (here.running.set sound entered settled (stateAt point))
      (Program.resting_set (fun id _ => here.rests id) known fun code same => ?_)
    -- The point is one of the coroutine, so it rests there.
    cases found.symm.trans same
    exact .inr ⟨point, (sound.machines active machine found).kept point
      (List.mem_filterMap.mpr ⟨_, here.part.subset List.mem_cons_self, rfl⟩), rfl⟩
  exact stored.bind fun _ => .pure fun _ reached => reached

omit entered in
include inner in
/-- Letting a subroutine go on leads behind the call, or out of the coroutine. -/
theorem drive_position {callee : CoroutineId}
    (here : program.Position clean machine active start (.drive callee :: rest) states)
    (awaits : program.Awaits states active callee) (laid : Code.Laid machine.points rest)
    (frame : Frame) :
    KeepsPosition program clean callees other machine active start (· = states) (.drive callee) rest
      frame := by
  refine (inner callee states (here.running.enter awaits here.rests)).bind fun _ =>
    .require (fun missing _ left => left.kept ?_) fun code known =>
      .state (fun _ left missing => left.kept ?_) fun value => ?_
  · rintro ⟨_, found, -⟩
    cases missing.symm.trans found
  · rintro ⟨_, -, ended⟩
    cases missing.symm.trans ended
  split
  · rename_i going
    refine .pure fun _ ⟨left, seen⟩ => left.suspend sound here.running awaits ?_
    rintro ⟨_, same, ended⟩
    cases known.symm.trans same
    exact going (Option.some.inj (seen.symm.trans ended))
  · rename_i ended
    have reset : Meets (σ := σ)
        (fun middle => program.Left clean callee states middle ∧ middle[callee]? = some value)
        (setState callee startState) (setState callee startState)
        (fun _ => program.Position clean machine active start rest) program.Kept := by
      refine .setState (fun _ asked missing => ?_) fun middle old ⟨left, seen⟩ _ => ?_
      · cases missing.symm.trans asked.2
      · rw [not_ne_iff.mp ended] at seen
        obtain ⟨running, settled⟩ := left.reset sound here.running awaits known seen
        -- The end is not kept: from here on the callee can be called again.
        have others : ∀ id, id ≠ callee → program.Resting middle id := fun id different =>
          (left.rests id).resolve_right fun ended => different ended.1
        exact here.next nofun (.settled laid settled) running
          (Program.resting_set others seen fun _ _ => .inl rfl)
    exact reset.bind fun _ => .pure fun _ reached => reached

include found

/-- The end of a coroutine leads out of it. -/
theorem finish_position
    (here : program.Position clean machine active start (.finish :: rest) states)
    (settled : ∀ callee, program.Awaits states active callee → ¬Started states callee)
    (frame : Frame) :
    KeepsPosition program clean callees other machine active start (· = states) .finish rest
      frame := by
  refine .require (fun _ _ same => same ▸ here.kept) fun coroutine known =>
    .require (fun _ _ same => same ▸ here.kept) fun code same => ?_
  cases found.symm.trans same
  generalize chosen : (if coroutine.isThread then startState else machine.width.endState) = value
  have ended : Meets (σ := σ) (· = states) (setState active value) (setState active value)
      (fun _ => program.Left clean active start) program.Kept := by
    refine .setState (fun _ same _ => same ▸ here.kept) fun before old same begun => ?_
    subst same
    have now : (before.setIfInBounds active value)[active]? = some value :=
      Program.getElem?_set begun
    refine (here.running.set sound entered settled value).left sound (fun callee => ?_)
      (fun nested => ?_) fun id => ?_
    · by_cases top : coroutine.isThread = true
      · rw [if_pos top] at chosen
        exact Program.not_awaits_start (chosen ▸ now)
      · rw [if_neg top] at chosen
        exact Program.not_awaits_end (sound.machines active machine found) found (chosen ▸ now)
    · -- Only a subroutine stays at its end.
      obtain ⟨_, also, inside⟩ := nested
      cases known.symm.trans also
      rw [inside] at chosen
      exact ⟨value, now, by rw [← chosen]; cases machine.width <;> decide⟩
    · by_cases same : id = active
      · subst same
        by_cases top : coroutine.isThread = true
        · rw [if_pos top] at chosen
          exact .inl fun _ _ => ⟨value, now, .inl chosen.symm⟩
        · rw [if_neg top] at chosen
          exact .inr ⟨rfl, ⟨coroutine, known, Bool.not_eq_true _ ▸ top⟩, machine, found,
            chosen ▸ now⟩
      · exact .inl ((here.rests id).set same)
  exact ended.bind fun _ => .pure fun _ left => left

include quiet inner

/-- Every instruction leads from one position to another, or out of the coroutine. -/
theorem execute_position (instr : Instr) (rest : Code) (frame : Frame) :
    KeepsPosition program clean callees other machine active start
      (program.Position clean machine active start (instr :: rest)) instr rest frame := by
  have formed := sound.machines active machine found
  refine .ofEach fun states here => ?_
  -- Most instructions change no state, and it is enough to see where they lead.
  have easy : instr.IsStill → (∀ control, instr.MayGo control →
      machine.code.Onward rest (program.Position clean machine active start)
        (program.Left clean active start) control states) →
      KeepsPosition program clean callees other machine active start (· = states) instr rest
        frame := by
    intro still leads
    refine (execute_quiet quiet (.inl still) frame).weaken (fun _ same => same) ?_
      (fun _ same => same ▸ here.kept)
    rintro result _ ⟨rfl, may⟩
    exact leads result.1 may
  cases here.stands with
  | settled laid settled =>
    cases laid with
    | free plain later =>
      have next : instr ≠ .finish → program.Position clean machine active start rest states :=
        fun going => here.next going (.settled later settled) here.running here.rests
      cases instr with
      | setLabel label | assign place op value | eval expr =>
        exact easy trivial fun _ may => may ▸ next nofun
      | jump label => exact easy trivial fun _ may => may ▸ here.jump formed rfl settled
      | jumpIfFalse condition label =>
        refine easy trivial fun _ may => ?_
        rcases may with rfl | rfl
        · exact next nofun
        · exact here.jump formed rfl settled
      | finish => exact finish_position sound entered found here settled frame
      | _ => exact plain.elim
    | yield kind later =>
      exact setState_position sound entered found here settled
        (fun _ known => .suspending known kind) frame
    | waitUntil kind later =>
      exact setState_position sound entered found here settled
        (fun _ known => .resuming known (.waitUntil kind later)) frame
    | call kind later =>
      exact setState_position sound entered found here settled
        (fun _ known => .resuming known (.call kind later)) frame
  | suspending known kind =>
    refine easy trivial fun _ may => may ▸ here.running.left sound (fun callee awaits => ?_)
      (fun _ => started_of_point known) fun id => .inl (here.rests id)
    cases kind.symm.trans (awaits.kind found known)
  | resuming known resumes =>
    cases resumes with
    | yield kind later =>
      refine easy trivial fun _ may => may ▸ here.next nofun (.settled later fun callee awaits => ?_)
        here.running here.rests
      cases kind.symm.trans (awaits.kind found known)
    | waitUntil kind later =>
      exact easy trivial fun _ may =>
        may ▸ here.next nofun (.testing known kind later) here.running here.rests
    | call kind later =>
      exact easy trivial fun _ may =>
        may ▸ here.next nofun (.driving known kind later) here.running here.rests
  | testing known kind later =>
    -- Whether the coroutine goes on or not, it awaits nobody.
    have alone : ∀ callee, ¬program.Awaits states active callee := by
      intro callee awaits
      cases kind.symm.trans (awaits.kind found known)
    refine easy trivial fun _ may => ?_
    rcases may with rfl | rfl
    · exact here.next nofun (.settled later fun callee awaits => absurd awaits (alone callee))
        here.running here.rests
    · exact here.running.left sound alone (fun _ => started_of_point known)
        fun id => .inl (here.rests id)
  | driving known kind later =>
    exact drive_position sound inner here ⟨machine, _, found, known, kind⟩ later frame

omit quiet inner entered in
/-- Where a coroutine goes on is a position in its code. -/
theorem resume_position (entered : program.Entered clean active states)
    (known : states[active]? = some state) :
    program.Position clean machine active states (machine.resumeCode state) states := by
  have formed := sound.machines active machine found
  have stands : program.Stands machine active states (machine.resumeCode state) := by
    rcases formed.resumeCode_cases state with ⟨point, rfl, resumes⟩ | ⟨whole, none⟩
    · exact .resuming known resumes
    · -- A coroutine that starts awaits nobody.
      rw [whole]
      refine .settled formed.laid fun callee awaits => ?_
      obtain ⟨_, point, same, here, kind⟩ := awaits
      cases found.symm.trans same
      obtain ⟨suspension, place, -⟩ := Option.map_eq_some_iff.mp kind
      have within := (List.getElem?_eq_some_iff.mp place).1
      exact absurd (Option.some.inj (known.symm.trans here)) (none point within)
  refine ⟨stands, entered.running, entered.rests, machine.resumeCode_suffix state, ?_⟩
  exact List.suffix_of_suffix_length_le formed.ends (machine.resumeCode_suffix state)
    (List.length_pos_iff.mpr (formed.resumeCode_ne_nil state))

end Run

/-- A coroutine that goes on keeps the calls, if those do that it lets go on. -/
theorem runCoroutine_keepsCalls (sound : program.Sound) {callees other : Callees σ}
    (quiet : callees.Quiet other)
    (inner : KeepsCalls program clean callees.coroutine other.coroutine) (fuel : Nat) :
    KeepsCalls program clean (runCoroutine program fuel callees)
      (runCoroutine program fuel other) := by
  intro active start entered
  refine .require (fun _ _ same => same ▸ entered.toKept) fun machine found =>
    .state (fun _ same _ => same ▸ entered.toKept) fun state => ?_
  have body := run_meets (execute_position sound quiet inner entered found)
    (fun _ reached => absurd reached.whole (by simp)) (fun _ _ reached => reached.kept)
    fuel (machine.resumeCode state) (.enter [] [])
  have reached : ∀ states, states = start ∧ states[active]? = some state →
      program.Position clean machine active start (machine.resumeCode state) states := by
    rintro _ ⟨rfl, known⟩
    exact resume_position sound found entered known
  have entry := body.enter fun _ reached => reached.kept
  exact (entry.weaken reached (fun _ _ left => left) fun _ kept => kept).bind fun _ =>
    .pure fun _ left => left

/-- Coroutines go on in the usual way where all rest. -/
def GoesOn (program : Program) (fuel : Nat) (goOn : Callees σ → CoroutineId → Exec σ Unit) : Prop :=
  ∀ callees id machine, program.Kept machine.states →
    goOn callees id machine = runCoroutine program fuel callees id machine

/-- All that bodies can start keeps the calls. -/
theorem calleesBy_keepsCalls (sound : program.Sound) {goOn : Callees σ → CoroutineId → Exec σ Unit}
    (usual : GoesOn program fuel goOn) (levels : Nat) :
    KeepsCalls program clean (calleesBy program fuel (runCoroutine program fuel) levels).coroutine
      (calleesBy program fuel goOn levels).coroutine := by
  induction levels with
  | zero => exact fun _ _ entered => .throw fun _ same => same ▸ entered.toKept
  | succ levels ih =>
    intro active start entered machine asked
    obtain ⟨alike, kept⟩ := runCoroutine_keepsCalls sound (calleesBy_quiet sound.plain levels) ih
      fuel active start entered machine asked
    exact ⟨alike.trans (usual _ active machine (asked ▸ entered.toKept)).symm, kept⟩

end Exec

/-- What holds between operations; if none has stopped early, whoever is awaited has started. -/
structure Program.Orderly (program : Program) (clean : Prop) (states : Array Nat) : Prop
    extends program.Kept states where
  alive : clean → ∀ caller callee, program.Awaits states caller callee → Started states callee

namespace Program

variable {program : Program} {clean : Prop} {id : CoroutineId} {start states : Array Nat}

/-- A thread is no subroutine. -/
theorem not_isSubroutine (member : id ∈ program.model.threads) : ¬program.IsSubroutine id := by
  rintro ⟨coroutine, found, nested⟩
  obtain ⟨known, here, top⟩ := Model.mem_threads.mp member
  cases found.symm.trans here
  exact absurd top (by simp [nested])

/-- Nobody has to await a thread. -/
theorem Orderly.entered (orderly : program.Orderly clean states)
    (member : id ∈ program.model.threads) : program.Entered clean id states :=
  ⟨orderly.toKept, fun nested => absurd nested (not_isSubroutine member),
    fun unbroken caller callee _ => orderly.alive unbroken caller callee⟩

/-- A thread never stays at its end. -/
theorem Left.orderly (left : program.Left clean id start states)
    (member : id ∈ program.model.threads) : program.Orderly clean states :=
  ⟨⟨fun other => (left.rests other).resolve_right fun ended => not_isSubroutine member ended.2.1,
    left.answered⟩, left.alive⟩

end Program

namespace Machine

variable {σ : Type} {program : Program} {clean : Prop} {machine : Machine σ}

theorem start_state {host : σ} (known : (Machine.start program host).states[id]? = some state) :
    state = startState := by
  simp only [Machine.start, Array.getElem?_replicate] at known
  split at known
  · exact (Option.some.inj known).symm
  · cases known

/-- A machine starts in order. -/
theorem start_orderly (program : Program) (host : σ) :
    program.Orderly clean (Machine.start program host).states := by
  refine ⟨⟨fun id machine found => ?_, fun callee _ started => ?_⟩, fun _ caller callee awaits => ?_⟩
  · have within := (List.getElem?_eq_some_iff.mp found).1
    exact ⟨startState, by simp [Machine.start, within], .inl rfl⟩
  · obtain ⟨state, known, begun⟩ := started
    exact absurd (start_state known) begun
  · obtain ⟨state, known, begun⟩ := awaits.started
    exact absurd (start_state known) begun

variable [Host σ]

/-- A command lets all rest, and leaves whoever is awaited started unless it stops early. -/
theorem obey_orderly (sound : program.Sound) {goOn : Callees σ → CoroutineId → Exec σ Unit}
    (usual : Exec.GoesOn program fuel goOn) (command : Command)
    (orderly : program.Orderly clean machine.states) :
    machine.obeyBy program fuel goOn command = machine.obey program fuel command ∧
      (machine.obey program fuel command).2.depth = machine.depth ∧
      program.Kept (machine.obey program fuel command).2.states ∧
      ((machine.obey program fuel command).1 = none →
        program.Orderly clean (machine.obey program fuel command).2.states) := by
  have threads : ∀ id ∈ program.model.threads, Exec.Meets (program.Orderly clean)
      (Exec.runCoroutine program fuel
        (Exec.calleesBy program fuel (Exec.runCoroutine program fuel) maxDepth) id)
      (goOn (Exec.calleesBy program fuel goOn maxDepth) id)
      (fun _ => program.Orderly clean) program.Kept := by
    intro id member
    refine .ofEach fun start orderly => ?_
    exact (Exec.calleesBy_keepsCalls sound usual (maxDepth + 1) id start
      (orderly.entered member)).weaken (fun _ same => same) (fun _ _ left => left.orderly member)
        (fun _ kept => kept)
  have meets := Exec.obeyBy_meets sound.plain (fun _ orderly => orderly.toKept) threads command
  obtain ⟨same, depth, done, stopped⟩ := obey_of_meets meets orderly
  refine ⟨same, depth, ?_, done⟩
  by_cases ended : (machine.obey program fuel command).1 = none
  · exact (done ended).toKept
  · exact stopped ended

/-- What commands keep that do not stop early holds behind all of them if none does. -/
theorem after_unhalted {kept : Machine σ → Prop} (step : ∀ machine fuel command, kept machine →
      (machine.obey program fuel command).1 = none → kept (machine.obey program fuel command).2)
    (operations : List (Nat × Command)) (held : kept machine)
    (unbroken : machine.halts program operations = []) :
    kept (machine.after program operations) := by
  induction operations generalizing machine with
  | nil => exact held
  | cons operation rest ih =>
    obtain ⟨fuel, command⟩ := operation
    have both : (machine.obey program fuel command).1.toList ++
        (machine.obey program fuel command).2.halts program rest = [] := unbroken
    obtain ⟨early, late⟩ := List.append_eq_nil_iff.mp both
    exact ih (step machine fuel command held (Option.toList_eq_nil_iff.mp early)) late

/-- If no command stops early, whoever is awaited has started behind all of them. -/
theorem after_orderly (sound : program.Sound) (operations : List (Nat × Command))
    (orderly : program.Orderly True machine.states)
    (unbroken : machine.halts program operations = []) :
    program.Orderly True (machine.after program operations).states :=
  after_unhalted (fun _ _ command held ended =>
    (obey_orderly sound (fun _ _ _ _ => rfl) command held).2.2.2 ended) operations orderly unbroken

/-- Whether commands stop early or not, they let all rest and no body stays active. -/
theorem after_kept (sound : program.Sound) (host : σ) (operations : List (Nat × Command)) :
    program.Kept ((Machine.start program host).after program operations).states ∧
      ((Machine.start program host).after program operations).depth = 0 := by
  let kept : Machine σ → Prop := fun machine => program.Kept machine.states ∧ machine.depth = 0
  have step : ∀ machine fuel command, kept machine →
      kept (machine.obey program fuel command).2 := by
    rintro machine fuel command ⟨before, idle⟩
    obtain ⟨-, depth, later, -⟩ := obey_orderly sound (fun _ _ _ _ => rfl) command
      ⟨before, False.elim⟩
    exact ⟨later, depth.trans idle⟩
  have begun : program.Orderly False (Machine.start program host).states := start_orderly program host
  exact after_keeps step operations ⟨begun.toKept, rfl⟩

/--
Each thread has one chain of calls between operations, whatever happens in them.

Every subroutine that has started is awaited by exactly one coroutine, and both work for one thread.
The subroutines of a thread that have started form a chain without repetitions that begins at the
thread. As long as no operation stops early, only subroutines that have started are awaited.
-/
theorem calls_stay_chained {source : Source} {warnings : List (Located Warning)}
    (linked : source.link = .ok (program, warnings)) (host : σ)
    (operations : List (Nat × Command)) :
    let machine := (Machine.start program host).after program operations
    (∀ callee, program.IsSubroutine callee → Started machine.states callee →
      ∃! caller, program.Awaits machine.states caller callee) ∧
    (∀ caller other callee, program.Awaits machine.states caller callee →
      program.Awaits machine.states other callee → caller = other) ∧
    (∀ caller callee, program.Awaits machine.states caller callee →
      ∃ calling called, program.model.coroutines[caller]? = some calling ∧
        program.model.coroutines[callee]? = some called ∧ called.isThread = false ∧
        called.thread = calling.thread) ∧
    (∀ (thread : CoroutineId) coroutine, program.model.coroutines[thread]? = some coroutine →
      coroutine.isThread = true → ∃ chain : List CoroutineId, (thread :: chain).Nodup ∧
        List.IsChain (program.Awaits machine.states) (thread :: chain) ∧
        ∀ callee, callee ∈ chain ↔ ∃ known, program.model.coroutines[callee]? = some known ∧
          known.isThread = false ∧ known.thread = thread ∧ Started machine.states callee) ∧
    ((Machine.start program host).halts program operations = [] →
      ∀ caller callee, program.Awaits machine.states caller callee →
        Started machine.states callee) := by
  intro machine
  have sound := Source.link_sound linked
  have answered : program.Answered machine.states := (after_kept sound host operations).1.answered
  have unique : ∀ caller other callee, program.Awaits machine.states caller callee →
      program.Awaits machine.states other callee → caller = other :=
    fun _ _ _ => Program.awaiting_unique sound answered
  refine ⟨fun callee nested started => ?_, unique, fun caller callee awaits =>
    sound.calls caller callee awaits.calls, fun thread coroutine found top =>
      Program.exists_chain sound answered found top, fun unbroken => ?_⟩
  · obtain ⟨caller, awaits⟩ := answered callee nested started
    exact ⟨caller, awaits, fun other also => unique other caller callee also awaits⟩
  · have orderly := after_orderly sound operations (start_orderly program host) unbroken
    exact orderly.alive trivial

end Machine

/-- A thread that calls a subroutine, which yields. -/
def Source.calling : Source :=
  .ofText "calling" "thread t{sub s{yield;}call s;}main{}"

/-- The first pass leaves the thread and its subroutine suspended. -/
theorem Source.calling_suspends : ∃ program warnings, calling.link = .ok (program, warnings) ∧
    program.model.coroutines.map Coroutine.isThread = [true, false] ∧
    (Machine.start program Bench.empty).halts program [(9, .boot), (9, .pass)] = [] ∧
    ((Machine.start program Bench.empty).after program [(9, .boot), (9, .pass)]).states = #[1, 1] :=
  calling.links_of_decide (by decide +kernel)

/-- A subroutine that yields is awaited by the thread that has called it, and by nobody else. -/
theorem Machine.calling_stays_chained :
    ∃ program warnings, Source.calling.link = .ok (program, warnings) ∧
      let states := ((Machine.start program Bench.empty).after program
        [(9, .boot), (9, .pass)]).states
      program.IsSubroutine 1 ∧ Started states 1 ∧
        (∃! caller, program.Awaits states caller 1) ∧
        (Machine.start program Bench.empty).halts program [(9, .boot), (9, .pass)] = [] ∧
        ∀ caller callee, program.Awaits states caller callee → Started states callee := by
  obtain ⟨program, warnings, linked, kinds, unbroken, states⟩ := Source.calling_suspends
  obtain ⟨unique, -, -, -, alive⟩ := calls_stay_chained linked Bench.empty [(9, .boot), (9, .pass)]
  have nested : program.IsSubroutine 1 := by
    have second := congrArg (·[1]?) kinds
    simpa [Program.IsSubroutine] using second
  have started : Started ((Machine.start program Bench.empty).after program
      [(9, .boot), (9, .pass)]).states 1 := ⟨1, by simp [states], nofun⟩
  exact ⟨program, warnings, linked, nested, started, unique 1 nested started, unbroken,
    alive unbroken⟩

end Coro
