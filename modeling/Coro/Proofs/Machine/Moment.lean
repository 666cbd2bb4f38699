import Coro.Proofs.Machine.Law
import Mathlib.Logic.Relation

/-!
Moments of a run.

Between two instructions, a run has some code left, some local variables and a machine. What holds
at the first moment of a body and is kept by each instruction holds whenever the body is active:
while an instruction is carried out, and with it all that it calls, the local variables are those of
the moment before it.
-/

namespace Coro.Exec

variable {σ : Type} {machine after : Machine σ}

/-- A run between two instructions. -/
structure Moment (σ : Type) where
  /-- The code that comes next. -/
  rest : Code
  frame : Frame
  machine : Machine σ

/-- A run that gives a value gives one of some kind. -/
def Returns {α : Type} (run : Exec σ α) (post : α → Prop) : Prop :=
  ∀ machine value after, run machine = .ok value after → post value

/-- Two runs in sequence give a value if both do. -/
theorem bind_ok {α β : Type} {first : Exec σ α} {next : α → Exec σ β} {result : β}
    (ran : (first >>= next) machine = .ok result after) :
    ∃ value between, first machine = .ok value between ∧
      next value between = .ok result after := by
  simp only [Bind.bind, EStateM.bind] at ran
  cases begun : first machine with
  | ok value between =>
    rw [begun] at ran
    exact ⟨value, between, rfl, ran⟩
  | error halt between =>
    rw [begun] at ran
    cases ran

/-- A body that is entered finds room to run as one more that is active, and gives it back. -/
theorem enter_ok {α : Type} {body : Exec σ α} {value : α}
    (ran : enter body machine = .ok value after) : machine.depth < maxDepth ∧
      ∃ left, body { machine with depth := machine.depth + 1 } = .ok value left ∧
        after = { left with depth := left.depth - 1 } := by
  simp only [enter] at ran
  split at ran
  case isTrue room =>
    split at ran
    case h_1 found left inside =>
      cases ran
      exact ⟨room, left, inside, rfl⟩
    case h_2 => cases ran
  case isFalse => cases ran

/-- Giving values of some kind is a law about runs, which may stop for any reason. -/
theorem returns_law : OpenLaw (σ := σ) Returns where
  pure given machine value after ran := by
    cases ran
    exact given
  bind early late machine result after ran := by
    obtain ⟨value, between, begun, went⟩ := bind_ok ran
    exact late value (early machine value between begun) between result after went
  throw _ machine value after ran := by cases ran
  enter inner machine value after ran := by
    obtain ⟨-, left, inside, -⟩ := enter_ok ran
    exact inner _ _ _ inside
  fault _ := trivial
  outOfFuel := trivial
  get late machine value after ran := late machine machine value after ran

variable [Host σ]

/-- A run comes to the next moment by an instruction that does not end it. -/
inductive Advances (program : Program) (callees : Callees σ) (own : Option CoroutineId)
    (code : Code) : Moment σ → Moment σ → Prop
  | next {instr : Instr} {rest : Code} {frame frame' : Frame} {machine machine' : Machine σ}
    (done : execute program callees own frame instr machine = .ok (.next, frame') machine') :
    Advances program callees own code ⟨instr :: rest, frame, machine⟩ ⟨rest, frame', machine'⟩
  | jump {instr : Instr} {rest : Code} {label : Label} {frame frame' : Frame}
    {machine machine' : Machine σ}
    (done : execute program callees own frame instr machine = .ok (.jump label, frame') machine') :
    Advances program callees own code ⟨instr :: rest, frame, machine⟩
      ⟨code.from label, frame', machine'⟩

/-- A run comes from one moment to another by some instructions. -/
abbrev Reaches (program : Program) (callees : Callees σ) (own : Option CoroutineId)
    (code : Code) : Moment σ → Moment σ → Prop :=
  Relation.ReflTransGen (Advances program callees own code)

/-- A run is left at a moment: at the end of its code, or by the next instruction. -/
inductive Moment.Leaves (program : Program) (callees : Callees σ) (own : Option CoroutineId) :
    Moment σ → Option Int64 → Machine σ → Prop
  | ended (frame : Frame) (machine : Machine σ) :
    Leaves program callees own ⟨[], frame, machine⟩ none machine
  | left {instr : Instr} {rest : Code} {frame frame' : Frame} {machine after : Machine σ}
    {value : Option Int64}
    (done : execute program callees own frame instr machine = .ok (.leave value, frame') after) :
    Leaves program callees own ⟨instr :: rest, frame, machine⟩ value after

variable {program : Program} {callees : Callees σ} {own : Option CoroutineId} {code : Code}

/-- A run that ends was left at one of its moments. -/
theorem run_leaves (fuel : Nat) {rest : Code} {frame last : Frame} {value : Option Int64}
    (ran : run program callees own code fuel rest frame machine = .ok (value, last) after) :
    ∃ moment, Reaches program callees own code ⟨rest, frame, machine⟩ moment ∧
      moment.Leaves program callees own value after := by
  -- Each instruction leads to a moment from which there is one less to carry out.
  induction fuel generalizing rest frame machine with
  | zero => cases ran
  | succ fuel ih =>
    cases rest with
    | nil =>
      cases ran
      exact ⟨_, .refl, .ended _ _⟩
    | cons instr rest =>
      obtain ⟨⟨control, frame'⟩, between, done, went⟩ := bind_ok ran
      cases control with
      | next =>
        obtain ⟨moment, reached, leaves⟩ := ih went
        exact ⟨moment, .head (.next done) reached, leaves⟩
      | jump label =>
        obtain ⟨moment, reached, leaves⟩ := ih went
        exact ⟨moment, .head (.jump done) reached, leaves⟩
      | leave result =>
        cases went
        exact ⟨_, .refl, .left done⟩

theorem Reaches.suffix {first moment : Moment σ}
    (reached : Reaches program callees own code first moment) (part : first.rest <:+ code) :
    moment.rest <:+ code := by
  induction reached with
  | refl => exact part
  | tail _ step ih =>
    cases step with
    | next done => exact (List.suffix_cons _ _).trans ih
    | jump done => exact List.dropWhile_suffix _

/-- What each instruction keeps of the local variables holds at every moment. -/
theorem Reaches.keeps {framed : Frame → Prop} {first moment : Moment σ}
    (reached : Reaches program callees own code first moment)
    (each : ∀ instr ∈ code, ∀ frame, framed frame →
      Returns (execute program callees own frame instr) fun result => framed result.2)
    (part : first.rest <:+ code) (begun : framed first.frame) : framed moment.frame := by
  induction reached with
  | refl => exact begun
  | tail before step ih =>
    have within := Reaches.suffix before part
    cases step with
    | next done | jump done => exact each _ (within.subset List.mem_cons_self) _ ih _ _ _ done

end Coro.Exec
