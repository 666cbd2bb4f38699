import Coro.Proofs.Hint.Removal
import Coro.Proofs.Resolution

/-!
Lowering and linking without hints.

Code refers to entities by their places, and leaving advice out moves none of them. The variables
that keep the local ones of coroutines lose the wishes that these had.
-/

namespace Coro

/-- The program without the advice, which has the same code. -/
def Program.without (advice : Advice) (program : Program) : Program :=
  { program with model := program.model.without advice }

section Fields

variable (advice : Advice) (program : Program)

theorem Program.model_without :
    (program.without advice).model = program.model.without advice := rfl

theorem Program.coroutines_without : (program.without advice).coroutines = program.coroutines := rfl

theorem Program.functions_without : (program.without advice).functions = program.functions := rfl

theorem Program.hooks_without : (program.without advice).hooks = program.hooks := rfl

end Fields

/-! ## Lowering -/

namespace Model

variable (advice : Advice) (model : Model)

theorem parameters_without : (model.without advice).parameters = model.parameters := by
  funext id
  simp only [parameters, without, List.getElem?_map, Option.map_map]
  rfl

theorem routineCode_without (body : List Stmt) :
    (model.without advice).routineCode body = model.routineCode body := by
  simp only [routineCode, parameters_without]

theorem stateMachine_without (first : StaticId) (coroutine : Coroutine) :
    (model.without advice).stateMachine first (coroutine.without advice) =
      model.stateMachine first coroutine := by
  -- Its local variables are counted only.
  simp only [stateMachine, parameters_without, Coroutine.without, List.length_map]

/-- Coroutines keep their state machines. -/
theorem stateMachines_without (first : StaticId) (coroutines : List Coroutine) :
    (model.without advice).stateMachines first (coroutines.map (Coroutine.without advice)) =
      model.stateMachines first coroutines := by
  induction coroutines generalizing first with
  | nil => rfl
  | cons coroutine rest ih =>
    -- Hidden wishes make no local variable appear or vanish, so the next ones start where they did.
    have count : (coroutine.without advice).locals.length = coroutine.locals.length :=
      List.length_map _
    simp only [List.map_cons, stateMachines, stateMachine_without, count, ih]

theorem hoistedLocals_without (coroutine : Coroutine) (id : CoroutineId) :
    (coroutine.without advice).hoistedLocals id =
      (coroutine.hoistedLocals id).map StaticVariable.unhinted := by
  -- A variable that a local one becomes takes over its wish.
  simp only [Coroutine.hoistedLocals, Coroutine.without, List.map_map]
  rfl

theorem hoist_without : (model.without advice).hoist = model.hoist.without advice := by
  -- Every coroutine adds its variables at the same place of the list.
  simp only [hoist, without, List.map_append, List.zipIdx_map, List.flatMap_map, List.map_flatMap,
    Prod.map, hoistedLocals_without, id]

/-- A model without advice has the same code, or no code for the same reason. -/
theorem lower_without :
    (model.without advice).lower = model.lower.map (Program.without advice) := by
  -- What lowering looks up in the model is the same.
  have first : (model.without advice).statics.length = model.statics.length :=
    List.length_map _
  have machines : (model.without advice).stateMachines model.statics.length
      (model.without advice).coroutines =
        model.stateMachines model.statics.length model.coroutines :=
    stateMachines_without advice model model.statics.length model.coroutines
  -- Bodies have code of their own, which is looked up for a model that has them all.
  have functions : (model.without advice).functions.map (fun function =>
      model.routineCode function.body) =
        model.functions.map fun function => model.routineCode function.body := List.map_map
  have hooks : (model.without advice).hooks.map (fun hook => model.routineCode hook.body) =
      model.hooks.map fun hook => model.routineCode hook.body := List.map_map
  simp only [lower, first, machines, routineCode_without, hoist_without, functions, hooks]
  cases model.stateMachines model.statics.length model.coroutines with
  | error fault => rfl
  | ok found => rfl

end Model

/-! ## Linking -/

namespace Program

variable (advice : Advice) (program : Program)

theorem pathOf_without : (program.without advice).pathOf = program.pathOf := by
  funext id
  simp only [pathOf, without, Model.without, List.getElem?_map, Option.map_map]
  rfl

/-- The search for circles goes the same way. -/
theorem search_without (budget : Nat) (way done : List CoroutineId) (id : CoroutineId) :
    (program.without advice).search budget way done id = program.search budget way done id := by
  -- By induction on the budget: the search looks at code, and at paths for its message.
  have calls : (program.without advice).calls = program.calls := rfl
  induction budget generalizing way done id with
  | zero => rfl
  | succ budget ih => simp only [search, calls, overlap, pathOf_without, ih]

theorem checkCalls_without : (program.without advice).checkCalls = program.checkCalls := by
  simp only [checkCalls, coroutines_without, search_without]

theorem unusedSubroutines_without :
    (program.without advice).unusedSubroutines = program.unusedSubroutines := by
  simp only [unusedSubroutines, without, Model.without, List.zipIdx_map, List.filterMap_map]
  rfl

end Program

/-- A model without advice is linked into the same code, or refused for the same reason. -/
theorem Model.link_without (advice : Advice) (model : Model) :
    (model.without advice).link =
      model.link.map (Prod.map (Program.without advice) id) := by
  -- Lowering fails on both sides or on none.
  simp only [link, lower_without]
  cases model.lower with
  | error fault => rfl
  | ok program =>
    -- Behind lowering, both programs are checked, and give the same warnings.
    show (do
      (program.without advice).checkCalls.mapError Failure.linkage
      return (program.without advice, (program.without advice).unusedSubroutines)) =
        Except.map (Prod.map (Program.without advice) id) (do
          program.checkCalls.mapError Failure.linkage
          return (program, program.unusedSubroutines))
    rw [Program.checkCalls_without, Program.unusedSubroutines_without]
    cases program.checkCalls with
    | error fault => rfl
    | ok done => rfl

end Coro
