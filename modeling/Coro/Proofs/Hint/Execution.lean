import Coro.Machine.Command
import Coro.Proofs.Hint.Linking
import Coro.Proofs.Machine.Congruence

/-!
Running programs without hints.

A machine looks up names, types and code, but never advice. Each of its steps is therefore the same
for a program and for the program without advice.
-/

namespace Coro

namespace Exec

variable {σ κ : Type}

theorem require_map {α β γ : Type} (change : α → β) (found : Option α) (next : β → ExecWith σ κ γ) :
    (require (found.map change) >>= next) =
      (require found >>= fun value => next (change value)) := by
  cases found with
  | none => rfl
  | some value => rfl

/-! ## Expressions -/

section Expressions

variable (advice : Advice) (model : Model)

/-- Values are where they were. -/
theorem locate_without (frame : Frame) (var : Var) (index : Int64) :
    (locate (model.without advice) frame var index : ExecWith σ κ Slot) =
      locate model frame var index := by
  -- Only a static variable is looked up, for the path that an error about its index tells.
  cases var with
  | static id =>
    simp only [locate, Model.without, List.getElem?_map, require_map]
    rfl
  | localVar id => rfl
  | external id => rfl

variable [Host σ]

/-- A value is put into a slot as it was. -/
theorem store_without (frame : Frame) (slot : Slot) (value : Int64) :
    (store (model.without advice) frame slot value : ExecWith σ κ Frame) =
      store model frame slot value := by
  -- A static variable is looked up for its type, and external entities have no wishes.
  cases slot with
  | static id index =>
    simp only [store, Model.without, List.getElem?_map, require_map]
    rfl
  | localVar id index => rfl
  | external id => rfl

theorem congruence_without :
    Congruence (σ := σ) (κ := κ) Eq (model.without advice) model .everything := by
  refine .ofEq rfl (fun frame var index _ _ _ late => ?_) fun frame slot value _ =>
    store_without advice model frame slot value
  rw [locate_without, funext fun slot => late slot slot.granted_everything]

/-- An expression has the same value. -/
theorem eval_without (callees : Callees σ κ) (frame : Frame) (expr : Expr) :
    eval (model.without advice) callees frame expr = eval model callees frame expr :=
  (congruence_without advice model).eval (fun _ _ => rfl) frame expr.refers_everything

theorem assign_without (callees : Callees σ κ) (frame : Frame) (place : Place)
    (op : Option BinaryOp) (value : Expr) :
    assign (model.without advice) callees frame place op value =
      assign model callees frame place op value :=
  (congruence_without advice model).assign (fun _ _ => rfl) frame op
    (Instr.assign place op value).refers_everything

end Expressions

/-! ## Bodies -/

section Bodies

variable [Host σ] (advice : Advice) (program : Program)

/-- An instruction does the same. -/
theorem execute_without (callees : Callees σ) (self : Option CoroutineId) (frame : Frame)
    (instr : Instr) :
    execute (program.without advice) callees self frame instr =
      execute program callees self frame instr := by
  -- Most instructions look at nothing but expressions and code.
  cases instr with
  | finish =>
    -- Whether a coroutine is a thread is no advice.
    cases self with
    | none => rfl
    | some id =>
      simp only [execute, Program.model_without, Program.coroutines_without, Model.without,
        List.getElem?_map, require_map]
      rfl
  | returnFrom value =>
    cases value with
    | none => rfl
    | some value => simp only [execute, Program.model_without, eval_without]
  | _ =>
    simp only [execute, Program.model_without, Program.coroutines_without, eval_without,
      assign_without]

/-- Code runs the same way. -/
theorem run_without (callees : Callees σ) (self : Option CoroutineId) (code : Code) (fuel : Nat)
    (rest : Code) (frame : Frame) :
    run (program.without advice) callees self code fuel rest frame =
      run program callees self code fuel rest frame := by
  -- By induction on the fuel, one instruction at a time.
  induction fuel generalizing rest frame with
  | zero => simp only [run]
  | succ fuel ih =>
    cases rest with
    | nil => simp only [run]
    | cons instr rest => simp only [run, execute_without, ih]

theorem runBody_without (fuel : Nat) (callees : Callees σ) (locals : List Local) (code : Code)
    (args : List Int64) :
    runBody (program.without advice) fuel callees locals code args =
      runBody program fuel callees locals code args := by
  simp only [runBody, run_without]

theorem runFunction_without (fuel : Nat) (callees : Callees σ) :
    runFunction (program.without advice) fuel callees = runFunction program fuel callees := by
  funext id args
  simp only [runFunction, runBody_without, Program.model_without, Program.functions_without,
    Model.without, List.getElem?_map, require_map]
  rfl

theorem runCoroutine_without (fuel : Nat) (callees : Callees σ) :
    runCoroutine (program.without advice) fuel callees = runCoroutine program fuel callees := by
  funext id
  simp only [runCoroutine, run_without, Program.coroutines_without]

theorem callees_without (fuel levels : Nat) :
    (callees (program.without advice) fuel levels : Callees σ) = callees program fuel levels := by
  -- By induction on how deep calls may still go.
  induction levels with
  | zero => rfl
  | succ levels ih => simp only [callees, ih, runFunction_without, runCoroutine_without]

end Bodies

/-! ## Operation -/

section Operation

variable [Host σ] (advice : Advice) (program : Program) (fuel : Nat)

theorem outermost_without :
    (outermost (program.without advice) fuel : Callees σ) = outermost program fuel :=
  callees_without advice program fuel maxDepth

theorem hookWith_without (callees : Callees σ) :
    hookWith (program.without advice) fuel callees = hookWith program fuel callees := by
  funext id
  simp only [hookWith, runBody_without, Program.model_without, Program.hooks_without,
    Model.without, List.getElem?_map, require_map]
  rfl

/-- The scheduler starts the same. -/
theorem scheduled_without :
    (scheduled (program.without advice) fuel : Bodies σ) = scheduled program fuel := by
  have step : (step (program.without advice) fuel : CoroutineId → Exec σ Unit) =
      step program fuel := by
    funext id
    simp only [Exec.step, outermost_without, runCoroutine_without]
  simp only [scheduled, bodies, hookWith_without, outermost_without, runBody_without, step,
    Program.model_without, Model.hooksOn_without, Model.threads_without]
  rfl

end Operation

end Exec

namespace Machine

variable {σ : Type} (advice : Advice) (program : Program)

/-- The first machine is the same. -/
theorem start_without (host : σ) : start (program.without advice) host = start program host := by
  -- Initial values are no advice.
  have memory : initialMemory (program.without advice).model.statics =
      initialMemory program.model.statics := by
    simp only [initialMemory, Program.model_without, Model.without, List.map_map]
    rfl
  simp only [start, memory, Program.coroutines_without]

theorem stateOf?_without (machine : Machine σ) (path : String) :
    machine.stateOf? (program.without advice) path = machine.stateOf? program path := by
  simp only [stateOf?, coroutineState?, Program.model_without, Program.coroutines_without,
    Model.findCoroutine?_without]

theorem element?_without (machine : Machine σ) (path : String) (index : Nat) :
    machine.element? (program.without advice) path index = machine.element? program path index := by
  simp only [element?, Program.model_without, Model.findStatic?_without]

variable [Host σ]

theorem obey_without (fuel : Nat) (machine : Machine σ) (command : Command) :
    machine.obey (program.without advice) fuel command = machine.obey program fuel command := by
  cases command with
  | boot => simp only [obey, Exec.boot, Exec.scheduled_without]
  | pass => simp only [obey, Exec.pass, Exec.scheduled_without]
  | tick => rfl

/--
What each command comes to: why it stopped early, if it did, and the machine behind it.

Every command has its own fuel, and those that stop early hold up nothing.
-/
def trace (program : Program) (machine : Machine σ) :
    List (Nat × Command) → List (Option Halt × Machine σ)
  | [] => []
  | (fuel, command) :: rest =>
    let outcome := machine.obey program fuel command
    outcome :: outcome.2.trace program rest

/-- All commands come to the same. -/
theorem trace_without (machine : Machine σ) (operations : List (Nat × Command)) :
    machine.trace (program.without advice) operations = machine.trace program operations := by
  -- By induction on the operations: each leaves the same machine for the next.
  induction operations generalizing machine with
  | nil => rfl
  | cons operation rest ih => simp only [trace, obey_without, ih]

end Machine

end Coro
