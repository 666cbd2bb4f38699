import Coro.Proofs.Machine.CallChain
import Coro.Proofs.Machine.Moment

/-!
How long chains of calls can be.

A subroutine goes on inside the one who awaits it, so along a chain of calls as many bodies were
active as it has coroutines when the last of them was suspended. The limit on active bodies
therefore limits all chains, wherever nothing has stopped early.
-/

namespace Coro

namespace Program

/-- Fewer coroutines than some number come behind the first one in a chain of calls. -/
def Shallow (program : Program) (states : Array Nat) (first : CoroutineId) (limit : Nat) : Prop :=
  ∀ chain, List.IsChain (program.Awaits states) (first :: chain) → chain.length < limit

variable {program : Program} {states : Array Nat} {first next : CoroutineId} {limit : Nat}

/-- Nobody comes behind a coroutine that awaits nobody. -/
theorem Shallow.alone (alone : ∀ callee, ¬program.Awaits states first callee)
    (positive : 0 < limit) : program.Shallow states first limit := by
  intro chain linked
  cases chain with
  | nil => exact positive
  | cons next rest => exact absurd (List.isChain_cons_cons.mp linked).1 (alone next)

theorem Shallow.cons (below : program.Shallow states next limit)
    (awaits : program.Awaits states first next) : program.Shallow states first (limit + 1) := by
  intro chain linked
  cases chain with
  | nil => exact Nat.succ_pos limit
  | cons other rest =>
    -- A coroutine awaits one subroutine at most, so every chain goes the same way.
    obtain ⟨also, onward⟩ := List.isChain_cons_cons.mp linked
    obtain rfl := awaits.unique also
    exact Nat.succ_lt_succ (below rest onward)

end Program

namespace Exec

variable {σ : Type}

/-- A run that goes on with what it looks up finds it. -/
theorem require_bind_ok {α β : Type} {found : Option α} {next : α → Exec σ β}
    {machine after : Machine σ} {result : β}
    (ran : (require found >>= next) machine = .ok result after) :
    ∃ value, found = some value ∧ next value machine = .ok result after := by
  cases found with
  | none => cases ran
  | some value => exact ⟨value, rfl, ran⟩

/-- A run that goes on with a state finds the one at its place. -/
theorem state_bind_ok {β : Type} {id : CoroutineId} {next : Nat → Exec σ β}
    {machine after : Machine σ} {result : β}
    (ran : (state id >>= next) machine = .ok result after) :
    ∃ value, machine.states[id]? = some value ∧ next value machine = .ok result after :=
  require_bind_ok ran

variable [Host σ] {program : Program} {clean : Prop}

/-- Chains from a coroutine that has gone on are limited by the bodies that were still to be active. -/
def Limits (program : Program) (clean : Prop) (goOn : CoroutineId → Exec σ Unit) : Prop :=
  ∀ active machine after, program.Entered clean active machine.states →
    goOn active machine = .ok () after →
    program.Shallow after.states active (maxDepth - machine.depth)

/-- A coroutine that ends awaits nobody. -/
theorem finish_alone (sound : program.Sound) {active : CoroutineId} {machine : StateMachine}
    (found : program.coroutines[active]? = some machine) (callees : Callees σ)
    (states : Array Nat) (frame : Frame) :
    Meets (· = states) (execute program callees (some active) frame .finish)
      (execute program callees (some active) frame .finish)
      (fun _ after => ∀ callee, ¬program.Awaits after active callee) fun _ => True := by
  refine .require (fun _ _ _ => trivial) fun coroutine known =>
    .require (fun _ _ _ => trivial) fun code same => ?_
  cases found.symm.trans same
  have ended : Meets (σ := σ) (· = states)
      (setState active (if coroutine.isThread then startState else machine.width.endState))
      (setState active (if coroutine.isThread then startState else machine.width.endState))
      (fun _ after => ∀ callee, ¬program.Awaits after active callee) fun _ => True := by
    refine .setState (fun _ _ _ => trivial) fun before old _ begun callee => ?_
    have now : ∀ value, (before.setIfInBounds active value)[active]? = some value :=
      fun value => Program.getElem?_set begun
    split
    · exact Program.not_awaits_start (now startState)
    · exact Program.not_awaits_end (sound.machines active machine found) found (now _)
  exact ended.bind fun _ => .pure fun _ alone => alone

section Run

variable (sound : program.Sound) {callees : Callees σ} (quiet : callees.Quiet callees)
  (inner : KeepsCalls program clean callees.coroutine callees.coroutine) {active : CoroutineId}
  {machine : StateMachine} {start : Array Nat}
  (found : program.coroutines[active]? = some machine)

include sound quiet inner found

/-- Where a coroutine is left, the chain behind it is as long as the one it has let go on. -/
theorem leave_shallow (limits : Limits program clean callees.coroutine) {instr : Instr}
    {rest : Code} {frame frame' : Frame} {before after : Machine σ} {value : Option Int64}
    (here : program.Position clean machine active start (instr :: rest) before.states)
    (room : before.depth ≤ maxDepth)
    (done : execute program callees (some active) frame instr before =
      .ok (.leave value, frame') after) :
    program.Shallow after.states active (maxDepth + 1 - before.depth) := by
  have positive : 0 < maxDepth + 1 - before.depth := by omega
  -- Most instructions change no state, and do not leave the coroutine.
  have easy : instr.IsStill → after.states = before.states ∧ instr.MayGo (.leave value) := by
    intro still
    have outcome : Meets (· = before.states) (execute program callees (some active) frame instr)
        (execute program callees (some active) frame instr)
        (fun result after => after = before.states ∧ instr.MayGo result.1) (· = before.states) :=
      execute_quiet quiet (.inl still) frame
    have outcome := outcome before rfl
    rw [done] at outcome
    exact outcome.2.1
  cases here.stands with
  | settled laid _ =>
    cases laid with
    | free plain _ =>
      cases instr with
      | finish =>
        have outcome := finish_alone sound found callees before.states frame before rfl
        rw [done] at outcome
        exact .alone outcome.2.1 positive
      | setLabel | jump | assign | eval => cases (easy trivial).2
      | jumpIfFalse => rcases (easy trivial).2 with impossible | impossible <;> cases impossible
      | _ => exact plain.elim
    -- The first part of a suspension goes on with the next.
    | yield | waitUntil | call =>
      obtain ⟨_, _, _, went⟩ := bind_ok done
      cases went
  | suspending known kind | testing known kind _ =>
    rw [(easy trivial).1]
    refine .alone (fun callee awaits => ?_) positive
    cases kind.symm.trans (awaits.kind found known)
  | resuming known resumes =>
    cases resumes with
    | yield | waitUntil | call => cases (easy trivial).2
  | @driving _ callee _ known kind _ =>
    have awaits : program.Awaits before.states active callee := ⟨machine, _, found, known, kind⟩
    have entered := here.running.enter awaits here.rests
    obtain ⟨⟨⟩, middle, drove, went⟩ := bind_ok done
    obtain ⟨code, -, checks⟩ := require_bind_ok went
    obtain ⟨state, -, leaves⟩ := state_bind_ok checks
    split at leaves
    · cases leaves
      have left := inner callee before.states entered before rfl
      rw [drove] at left
      obtain ⟨-, still⟩ := left.2.1.above sound here.running awaits
      have below := limits callee before after entered drove
      rw [Nat.succ_sub room]
      exact below.cons still
    · obtain ⟨_, _, _, goesOn⟩ := bind_ok leaves
      cases goesOn

/-- Wherever a run comes, it stands at a position, with as many bodies active. -/
theorem Reaches.position (entered : program.Entered clean active start) {first moment : Moment σ}
    (reached : Reaches program callees (some active) machine.code first moment)
    (here : program.Position clean machine active start first.rest first.machine.states) :
    program.Position clean machine active start moment.rest moment.machine.states ∧
      moment.machine.depth = first.machine.depth := by
  induction reached with
  | refl => exact ⟨here, rfl⟩
  | tail _ step ih =>
    obtain ⟨stands, depth⟩ := ih
    cases step with
    | @next _ _ frame _ _ _ done | @jump _ _ _ frame _ _ _ done =>
      have outcome := execute_position sound quiet inner entered found _ _ frame _ stands
      rw [done] at outcome
      exact ⟨outcome.2.1, outcome.2.2.trans depth⟩

end Run

variable (sound : program.Sound)

include sound

/-- A coroutine that goes on limits its chain, if those do that it lets go on. -/
theorem runCoroutine_limits {callees : Callees σ} (quiet : callees.Quiet callees)
    (inner : KeepsCalls program clean callees.coroutine callees.coroutine)
    (limits : Limits program clean callees.coroutine) (fuel : Nat) :
    Limits program clean (runCoroutine program fuel callees) := by
  intro active before after entered ran
  obtain ⟨machine, found, resumes⟩ := require_bind_ok ran
  obtain ⟨state, known, enters⟩ := state_bind_ok resumes
  obtain ⟨⟨value, last⟩, _, body, went⟩ := bind_ok enters
  cases went
  obtain ⟨room, left, inside, rfl⟩ := enter_ok body
  obtain ⟨moment, reached, leaves⟩ := run_leaves fuel inside
  have begun := resume_position sound found entered known
  obtain ⟨here, depth⟩ := reached.position sound quiet inner found entered begun
  cases leaves with
  | ended => exact absurd here.whole (by simp)
  | left done =>
    have inside : _ = before.depth + 1 := depth
    have short := leave_shallow sound quiet inner found limits here (by omega) done
    rw [inside, Nat.add_sub_add_right] at short
    exact short

/-- All that bodies can start keeps the calls. -/
theorem callees_keepsCalls (fuel levels : Nat) :
    KeepsCalls (σ := σ) program clean (Exec.callees program fuel levels).coroutine
      (Exec.callees program fuel levels).coroutine := by
  rw [← calleesBy_runCoroutine]
  exact calleesBy_keepsCalls sound (fun _ _ _ _ => rfl) levels

/-- All that bodies can start limits its chains. -/
theorem callees_limits (fuel levels : Nat) :
    Limits (σ := σ) program clean (Exec.callees program fuel levels).coroutine := by
  induction levels with
  | zero =>
    intro active machine after entered ran
    cases ran
  | succ levels ih =>
    exact runCoroutine_limits sound (callees_quiet sound.plain fuel levels)
      (callees_keepsCalls sound fuel levels) ih fuel

end Exec

end Coro
