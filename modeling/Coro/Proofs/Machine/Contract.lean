import Coro.Machine.Run
import Coro.Proofs.Machine.Congruence

/-!
What runs promise about the states of coroutines.

A contract is about two runs at once, so that it can also say that they do the same. Every run that
has one leaves as many bodies active as it found, whether it returns or stops.
-/

namespace Coro

namespace Exec

variable {σ α β : Type}

/-- Two runs that are started in given states do the same and leave states as they should be. -/
def Meets (pre : Array Nat → Prop) (run other : Exec σ α) (post : α → Array Nat → Prop)
    (stopped : Array Nat → Prop) : Prop :=
  ∀ machine, pre machine.states → run machine = other machine ∧
    match run machine with
    | .ok value after => post value after.states ∧ after.depth = machine.depth
    | .error _ after => stopped after.states ∧ after.depth = machine.depth

/-- Two runs do the same, and change no state. -/
def Quiet (run other : Exec σ α) : Prop :=
  ∀ states, Meets (· = states) run other (fun _ after => after = states) (· = states)

namespace Meets

variable {pre pre' stopped stopped' : Array Nat → Prop} {post post' : α → Array Nat → Prop}
  {run other : Exec σ α}

/-- A contract that asks for more or promises less. -/
theorem weaken (meets : Meets pre run other post stopped)
    (before : ∀ states, pre' states → pre states)
    (after : ∀ value states, post value states → post' value states)
    (halted : ∀ states, stopped states → stopped' states) :
    Meets pre' run other post' stopped' := by
  intro machine asked
  obtain ⟨same, promised⟩ := meets machine (before _ asked)
  refine ⟨same, ?_⟩
  cases outcome : run machine with
  | ok value left =>
    rw [outcome] at promised
    exact ⟨after value _ promised.1, promised.2⟩
  | error halt left =>
    rw [outcome] at promised
    exact ⟨halted _ promised.1, promised.2⟩

/-- A contract holds if it does from each single start. -/
theorem ofEach (each : ∀ states, pre states → Meets (· = states) run other post stopped) :
    Meets pre run other post stopped :=
  fun machine asked => each machine.states asked machine rfl

theorem pure {value : α} (given : ∀ states, pre states → post value states) :
    Meets (σ := σ) pre (Pure.pure value) (Pure.pure value) post stopped :=
  fun _ asked => ⟨rfl, given _ asked, rfl⟩

theorem throw {halt : Halt} (kept : ∀ states, pre states → stopped states) :
    Meets (σ := σ) pre (throw halt) (MonadExcept.throw halt) post stopped :=
  fun _ asked => ⟨rfl, kept _ asked, rfl⟩

/-- One run behind another. -/
theorem bind {middle : α → Array Nat → Prop} {last : β → Array Nat → Prop}
    {next next' : α → Exec σ β} (early : Meets pre run other middle stopped)
    (late : ∀ value, Meets (middle value) (next value) (next' value) last stopped) :
    Meets pre (run >>= next) (other >>= next') last stopped := by
  intro machine asked
  obtain ⟨same, promised⟩ := early machine asked
  simp only [Bind.bind, EStateM.bind, ← same]
  cases outcome : run machine with
  | error halt left =>
    rw [outcome] at promised
    exact ⟨rfl, promised⟩
  | ok value left =>
    rw [outcome] at promised
    obtain ⟨again, kept⟩ := late value left promised.1
    refine ⟨again, ?_⟩
    -- The second run leaves the depth that it finds, which is the one that the first run found.
    have level := promised.2
    cases final : next value left with
    | ok result after | error halt after =>
      rw [final] at kept
      simp only [final]
      exact ⟨kept.1, kept.2.trans level⟩

/-- What is looked up may be relied on. -/
theorem require {found : Option β} {next next' : β → Exec σ α}
    (missing : found = none → ∀ states, pre states → stopped states)
    (late : ∀ value, found = some value → Meets pre (next value) (next' value) post stopped) :
    Meets pre (Exec.require found >>= next) (Exec.require found >>= next') post stopped := by
  cases known : found with
  | none => exact fun _ asked => ⟨rfl, missing known _ asked, rfl⟩
  | some value => exact late value known

/-- What each run keeps is kept by all of them. -/
theorem forM {γ : Type} {list : List γ} {each each' : γ → Exec σ Unit}
    (kept : ∀ value ∈ list, Meets pre (each value) (each' value) (fun _ => pre) stopped) :
    Meets pre (list.forM each) (list.forM each') (fun _ => pre) stopped := by
  induction list with
  | nil => exact pure fun _ asked => asked
  | cons first rest ih =>
    refine (kept first (by simp)).bind fun _ => ih fun value member => ?_
    exact kept value (by simp [member])

/-- A body may find too many others active, and then changes nothing. -/
theorem enter (meets : Meets pre run other post stopped)
    (kept : ∀ states, pre states → stopped states) :
    Meets pre (Exec.enter run) (Exec.enter other) post stopped := by
  intro machine asked
  simp only [Exec.enter]
  split
  · -- The body finds one level more, and gives it back both ways.
    obtain ⟨same, promised⟩ := meets { machine with depth := machine.depth + 1 } asked
    rw [← same]
    refine ⟨rfl, ?_⟩
    cases outcome : run { machine with depth := machine.depth + 1 } with
    | ok value left | error halt left =>
      rw [outcome] at promised
      exact ⟨promised.1, by simp [promised.2]⟩
  · exact ⟨rfl, kept _ asked, rfl⟩

end Meets

namespace Quiet

variable {pre : Array Nat → Prop} {run other : Exec σ α}

/-- What changes no state keeps all conditions on states. -/
theorem meets (quiet : Quiet run other) : Meets pre run other (fun _ => pre) pre :=
  .ofEach fun states asked => (quiet states).weaken (fun _ same => same)
    (fun _ _ same => same ▸ asked) (fun _ same => same ▸ asked)

theorem pure (value : α) : Quiet (σ := σ) (Pure.pure value) (Pure.pure value) :=
  fun _ => Meets.pure fun _ same => same

theorem throw (halt : Halt) : Quiet (σ := σ) (α := α) (throw halt) (MonadExcept.throw halt) :=
  fun _ => Meets.throw fun _ same => same

/-- One behind another, neither changes a state. -/
theorem bind {next next' : α → Exec σ β} (early : Quiet run other)
    (late : ∀ value, Quiet (next value) (next' value)) : Quiet (run >>= next) (other >>= next') :=
  fun states => (early states).bind fun value => late value states

theorem enter (quiet : Quiet run other) : Quiet (Exec.enter run) (Exec.enter other) :=
  fun states => (quiet states).enter fun _ same => same

theorem require (found : Option α) : Quiet (σ := σ) (Exec.require found) (Exec.require found) := by
  cases found with
  | none => exact throw _
  | some value => exact pure value

/-- What is looked up may be relied on. -/
theorem requireThen {found : Option β} {next next' : β → Exec σ α}
    (late : ∀ value, found = some value → Quiet (next value) (next' value)) :
    Quiet (Exec.require found >>= next) (Exec.require found >>= next') :=
  fun states => Meets.require (fun _ _ same => same) fun value known => late value known states

theorem get : Quiet (σ := σ) MonadState.get MonadState.get :=
  fun _ _ same => ⟨rfl, same, rfl⟩

/-- A change of anything but states. -/
theorem modifyGet {change : Machine σ → α × Machine σ}
    (kept : ∀ machine, (change machine).2.states = machine.states ∧
      (change machine).2.depth = machine.depth) :
    Quiet (MonadState.modifyGet change) (MonadState.modifyGet change) :=
  fun _ machine same => ⟨rfl, (kept machine).1.trans same, (kept machine).2⟩

end Quiet

end Exec

/-- The functions that can be started in two ways do the same, and change no state. -/
def Callees.Quiet {σ : Type} (callees other : Callees σ) : Prop :=
  ∀ id args, Exec.Quiet (callees.function id args) (other.function id args)

namespace Exec

variable {σ : Type} {model : Model}

/-- Computing changes no state. -/
theorem compute_quiet (op : BinaryOp) (left right : Int64) :
    Quiet (σ := σ) (compute op left right) (compute op left right) := by
  simp only [compute]
  cases op.result? left right with
  | none => exact .throw _
  | some value => exact .pure value

/-- Nor does testing an index. -/
theorem checkIndex_quiet (name : String) (size : Nat) (index : Int64) :
    Quiet (σ := σ) (checkIndex name size index) (checkIndex name size index) := by
  simp only [checkIndex]
  split
  · exact .pure _
  · exact .throw _

/-- Finding a variable is quiet. -/
theorem locate_quiet (frame : Frame) (var : Var) (index : Int64) :
    Quiet (σ := σ) (locate model frame var index) (locate model frame var index) := by
  cases var with
  | static id =>
    exact (Quiet.require _).bind fun _ => Quiet.get.bind fun _ => (Quiet.require _).bind fun _ =>
      (checkIndex_quiet _ _ _).bind fun _ => .pure _
  | localVar id =>
    exact (Quiet.require _).bind fun _ => (Quiet.require _).bind fun _ =>
      (checkIndex_quiet _ _ _).bind fun _ => .pure _
  | external id => exact .pure _

variable [Host σ]

/-- Reading a variable is quiet. -/
theorem load_quiet (frame : Frame) (slot : Slot) :
    Quiet (σ := σ) (load model frame slot) (load model frame slot) := by
  cases slot with
  | static id index => exact Quiet.get.bind fun _ => .require _
  | localVar id index => exact .require _
  | external id =>
    -- The host may change, but it has no hand in the states.
    refine (Quiet.require _).bind fun external => ?_
    exact (Quiet.modifyGet fun _ => ⟨rfl, rfl⟩).bind fun _ => .pure _

/-- Writing a variable is quiet. -/
theorem store_quiet (frame : Frame) (slot : Slot) (value : Int64) :
    Quiet (σ := σ) (store model frame slot value) (store model frame slot value) := by
  cases slot with
  | static id index =>
    refine (Quiet.require _).bind fun storage => Quiet.get.bind fun machine => ?_
    refine (Quiet.require _).bind fun old => ?_
    exact (Quiet.modifyGet fun _ => ⟨rfl, rfl⟩).bind fun _ => .pure _
  | localVar id index =>
    exact (Quiet.require _).bind fun _ => (Quiet.require _).bind fun _ => .pure _
  | external id =>
    refine (Quiet.require _).bind fun external => ?_
    exact (Quiet.modifyGet fun _ => ⟨rfl, rfl⟩).bind fun _ => .pure _

/-- Evaluation is made of quiet steps. -/
theorem Quiet.congruence : Congruence (σ := σ) (κ := Nat) Quiet model model .everything where
  pure := Quiet.pure
  bind := Quiet.bind
  locate frame var index _ _ _ late :=
    (locate_quiet frame var index).bind fun slot => late slot slot.granted_everything
  load := load_quiet
  store frame slot value _ := store_quiet frame slot value
  compute := compute_quiet
  -- The host may change, but it has no hand in the states.
  external _ _ := (Quiet.require _).bind fun _ => Quiet.modifyGet fun _ => ⟨rfl, rfl⟩

end Exec

/-- What may happen behind an instruction. -/
def Instr.MayGo : Instr → Control → Prop
  | .jump label, control => control = .jump label
  | .jumpIfFalse _ label, control => control = .next ∨ control = .jump label
  | .returnUnless _ _, control | .drive _, control => control = .next ∨ control = .leave none
  | .suspend, control | .finish, control => control = .leave none
  | .returnFrom _, control => ∃ value, control = .leave value
  | _, control => control = .next

/-- A body without a state changes none by this instruction. -/
def Instr.IsPlain : Instr → Prop
  | .drive _ => False
  | _ => True

/-- An instruction changes no state, whichever body it belongs to. -/
def Instr.IsStill : Instr → Prop
  | .setState _ | .drive _ | .finish => False
  | _ => True

/-- What holds behind an instruction, by what happens there. -/
def Code.Onward (code rest : Code) (position : Code → Array Nat → Prop)
    (post : Array Nat → Prop) : Control → Array Nat → Prop
  | .next => position rest
  | .jump label => position (code.from label)
  | .leave _ => post

namespace Exec

variable {σ : Type} {states : Array Nat} {stopped : Array Nat → Prop}

/-- The state of a coroutine is the one at its place. -/
theorem Meets.state {α : Type} {pre : Array Nat → Prop} {post : α → Array Nat → Prop}
    {id : CoroutineId} {next next' : Nat → Exec σ α}
    (missing : ∀ states, pre states → states[id]? = none → stopped states)
    (late : ∀ value, Meets (fun states => pre states ∧ states[id]? = some value) (next value)
      (next' value) post stopped) :
    Meets pre (Exec.state id >>= next) (Exec.state id >>= next') post stopped := by
  have found : Meets (σ := σ) pre (Exec.state id) (Exec.state id)
      (fun value states => pre states ∧ states[id]? = some value) stopped := by
    intro machine asked
    have run : Exec.state id machine = Exec.require machine.states[id]? machine := rfl
    refine ⟨rfl, ?_⟩
    rw [run]
    cases known : machine.states[id]? with
    | none => exact ⟨missing _ asked known, rfl⟩
    | some value => exact ⟨⟨asked, known⟩, rfl⟩
  exact found.bind late

/-- A change of state is made at the place of the coroutine. -/
theorem Meets.setState {pre : Array Nat → Prop} {post : Unit → Array Nat → Prop}
    {id : CoroutineId} {value : Nat}
    (missing : ∀ states, pre states → states[id]? = none → stopped states)
    (changed : ∀ states old, pre states → states[id]? = some old →
      post () (states.setIfInBounds id value)) :
    Meets (σ := σ) pre (Exec.setState id value) (Exec.setState id value) post stopped :=
  .state missing fun _ _ known => ⟨rfl, changed _ _ known.1 known.2, rfl⟩

variable [Host σ] {program : Program} {callees other : Callees σ}

/-- Most instructions change no state, and a body without a state changes none by any of its own. -/
theorem execute_quiet (quiet : callees.Quiet other) {self : Option CoroutineId} {instr : Instr}
    (still : instr.IsStill ∨ instr.IsPlain ∧ self = none) (frame : Frame) :
    Meets (· = states) (execute program callees self frame instr)
      (execute program other self frame instr)
      (fun result after => after = states ∧ instr.MayGo result.1) (· = states) := by
  -- What follows the evaluation of an expression changes nothing.
  have value : ∀ expr, Meets (· = states) (eval program.model callees frame expr)
      (eval program.model other frame expr) (fun _ after => after = states) (· = states) :=
    fun expr => Quiet.congruence.eval quiet frame expr.refers_everything states
  cases instr with
  | setLabel label | jump label | suspend | resume point => exact .pure fun _ same => ⟨same, rfl⟩
  | jumpIfFalse condition label | returnUnless condition hint =>
    refine (value condition).bind fun result => .pure fun _ same => ⟨same, ?_⟩
    by_cases zero : result = 0 <;> simp [Instr.MayGo, zero]
  | assign place op expr =>
    have refers := (Instr.assign place op expr).refers_everything
    exact (Quiet.congruence.assign quiet frame op refers states).bind fun _ =>
      .pure fun _ same => ⟨same, rfl⟩
  | eval expr => exact (value expr).bind fun _ => .pure fun _ same => ⟨same, rfl⟩
  | setState point | finish =>
    obtain rfl : self = none := by simpa [Instr.IsStill, Instr.IsPlain] using still
    exact .pure fun _ same => ⟨same, rfl⟩
  | drive callee => simp [Instr.IsStill, Instr.IsPlain] at still
  | returnFrom value? =>
    cases value? with
    | none => exact .pure fun _ same => ⟨same, none, rfl⟩
    | some expr => exact (value expr).bind fun _ => .pure fun _ same => ⟨same, _, rfl⟩

/--
A run keeps what each of its instructions keeps.

What holds may depend on the position in the code, so that an instruction can rely on those that
must have come before it.
-/
theorem run_meets {self : Option CoroutineId} {code : Code} {position : Code → Array Nat → Prop}
    {post : Array Nat → Prop}
    (instruction : ∀ instr rest frame, Meets (position (instr :: rest))
      (execute program callees self frame instr) (execute program other self frame instr)
      (fun result => code.Onward rest position post result.1) stopped)
    (ends : ∀ states, position [] states → post states)
    (halts : ∀ rest states, position rest states → stopped states) (fuel : Nat) (rest : Code)
    (frame : Frame) :
    Meets (position rest) (run program callees self code fuel rest frame)
      (run program other self code fuel rest frame) (fun _ => post) stopped := by
  -- Each instruction takes one unit of fuel, wherever it leads.
  induction fuel generalizing rest frame with
  | zero => exact .throw (halts rest)
  | succ fuel ih =>
    cases rest with
    | nil => exact .pure ends
    | cons instr rest =>
      refine (instruction instr rest frame).bind fun ⟨control, frame⟩ => ?_
      cases control with
      | next => exact ih rest frame
      | jump label => exact ih (code.from label) frame
      | leave value => exact .pure fun _ done => done

end Exec

end Coro
