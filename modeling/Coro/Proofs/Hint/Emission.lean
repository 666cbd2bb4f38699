import Coro.Proofs.Hint.Linking

/-!
Generated files without wishes for registers.

Besides the bindings, which the target may or may not allow, nothing in a generated file depends on
a wish for a register. Names depend on no advice at all.
-/

namespace Coro.Emit

/-! ## Names -/

section Names

variable (advice : Advice) (program : Program)

theorem path_without (model : Model) (id : CoroutineId) :
    ((model.without advice).coroutines.getD id default).path =
      (model.coroutines.getD id default).path :=
  view_getD_map model.coroutines id fun _ => rfl

theorem stateSymbol_without : stateSymbol (program.without advice) = stateSymbol program := by
  funext id
  simp only [stateSymbol, Program.model_without, path_without]

theorem stepSymbol_without : stepSymbol (program.without advice) = stepSymbol program := by
  funext id
  simp only [stepSymbol, Program.model_without, path_without]

theorem hookSymbol_without : hookSymbol (program.without advice) = hookSymbol program := by
  funext id
  have name : ((program.model.without advice).hooks.getD id default).name =
      (program.model.hooks.getD id default).name :=
    view_getD_map program.model.hooks id fun _ => rfl
  simp only [hookSymbol, Program.model_without, name]

/-- Variables and functions keep their names. -/
theorem ofLocals_without (model : Model) (locals : List Local) :
    Names.ofLocals (model.without advice) locals = Names.ofLocals model locals := by
  -- Names are made from paths, which no advice is part of.
  simp only [Names.ofLocals, Names.mk.injEq]
  refine ⟨funext fun var => ?_, funext fun callee => ?_⟩
  · cases var with
    | static id =>
      exact congrArg Path.symbol (view_getD_map model.statics id fun _ => rfl)
    | localVar id => rfl
    | external id => rfl
  · cases callee with
    | function id =>
      exact view_getD_map model.functions id
        (fun _ => rfl : ∀ function, (Function.without advice function).name = function.name)
    | external id => rfl

/-- Code keeps its lines. -/
theorem codeLines_without (names : Names) (self : Option CoroutineId) (code : Code) :
    codeLines (program.without advice) names self code = codeLines program names self code := by
  -- An instruction is written with names, points and whether its coroutine is a thread.
  have thread (id : CoroutineId) :
      ((program.model.without advice).coroutines.getD id default).isThread =
        (program.model.coroutines.getD id default).isThread :=
    view_getD_map program.model.coroutines id fun _ => rfl
  have lines : instrLines (program.without advice) names self = instrLines program names self := by
    funext instr
    cases instr <;>
      simp only [instrLines, stateSymbol_without, stepSymbol_without, Program.model_without,
        Program.coroutines_without, thread]
  simp only [codeLines, lines]

/-- A function without parameters keeps its definition. -/
theorem procedureLines_without (target : Target) (signature : String) (locals : List Local)
    (code : Code) :
    procedureLines target (program.without advice) signature locals code =
      procedureLines target program signature locals code := by
  simp only [procedureLines, codeLines_without, Program.model_without, ofLocals_without]

end Names

/-! ## The scheduler -/

section Scheduler

variable (advice : Advice) (program : Program) (model : Model)

theorem usedIntervals_without : usedIntervals (model.without advice) = usedIntervals model := by
  simp only [usedIntervals, Model.without, List.filterMap_map]
  rfl

/-- A tick does the same. -/
theorem dispatch?_without : dispatch? (model.without advice) = dispatch? model := by
  -- The levels are made from the hooks of the intervals.
  have levels (interval : Interval) (longer : List Interval) :
      Dispatch.ofIntervals (model.without advice) interval longer =
        Dispatch.ofIntervals model interval longer := by
    induction longer generalizing interval with
    | nil => simp only [Dispatch.ofIntervals, Model.hooksOn_without]
    | cons next rest ih => simp only [Dispatch.ofIntervals, Model.hooksOn_without, ih]
  simp only [dispatch?, countedIntervals, usedIntervals_without, levels]

theorem hookCalls_without : hookCalls (program.without advice) = hookCalls program := by
  funext hooks
  simp only [hookCalls, hookSymbol_without]

theorem dispatchLines_without (dispatch : Dispatch) :
    dispatchLines (program.without advice) dispatch = dispatchLines program dispatch := by
  induction dispatch with
  | last hooks => simp only [dispatchLines, hookCalls_without]
  | level hooks next rest ih => simp only [dispatchLines, hookCalls_without, ih]

/-- Bound storage is set to the same values. -/
theorem bindingLine_without : bindingLine (program.without advice) = bindingLine program := by
  have path (id : StaticId) : ((program.model.without advice).statics.getD id default).path =
      (program.model.statics.getD id default).path :=
    view_getD_map program.model.statics id fun _ => rfl
  have initial (id : StaticId) :
      ((program.model.without advice).statics.getD id default).initial =
        (program.model.statics.getD id default).initial :=
    view_getD_map program.model.statics id fun _ => rfl
  funext binding
  simp only [bindingLine, Program.model_without, path, initial, stateSymbol_without]

theorem mainLines_without (plan : Plan) :
    mainLines (program.without advice) plan = mainLines program plan := by
  simp only [mainLines, passLines, bindingLine_without, hookCalls_without, dispatchLines_without,
    stepSymbol_without, Program.model_without, Model.hooksOn_without, Model.threads_without,
    dispatch?_without]

end Scheduler

/-! ## The file -/

section File

variable (target : Target) (program : Program)

/-- Hooks keep their signatures. -/
theorem hookSignature_without :
    hookSignature (program.without .registers) = hookSignature program := by
  have tuning (id : HookId) : ((program.model.without .registers).hooks.getD id default).tuning =
      (program.model.hooks.getD id default).tuning :=
    view_getD_map program.model.hooks id fun _ => rfl
  have kind (id : HookId) : ((program.model.without .registers).hooks.getD id default).kind =
      (program.model.hooks.getD id default).kind :=
    view_getD_map program.model.hooks id fun _ => rfl
  funext id
  simp only [hookSignature, Program.model_without, tuning, kind, hookSymbol_without]

/-- Step functions keep their signatures. -/
theorem stepSignature_without :
    stepSignature (program.without .registers) = stepSignature program := by
  have tuning (id : CoroutineId) :
      ((program.model.without .registers).coroutines.getD id default).tuning =
        (program.model.coroutines.getD id default).tuning :=
    view_getD_map program.model.coroutines id fun _ => rfl
  have thread (id : CoroutineId) :
      ((program.model.without .registers).coroutines.getD id default).isThread =
        (program.model.coroutines.getD id default).isThread :=
    view_getD_map program.model.coroutines id fun _ => rfl
  funext id
  simp only [stepSignature, Program.model_without, tuning, thread, stepSymbol_without]

/-- All variables keep their declarations. -/
theorem storageLines_without (plan : Plan) :
    storageLines target (program.without .registers) plan = storageLines target program plan := by
  -- A declaration needs the plan to tell whether a register is bound.
  have statics : (program.model.without .registers).statics.mapIdx (staticLine target plan) =
      program.model.statics.mapIdx (staticLine target plan) := by
    apply List.ext_getElem?
    intro id
    simp only [Model.without, List.getElem?_mapIdx, List.getElem?_map, Option.map_map]
    rfl
  simp only [storageLines, stateLine, Program.model_without, Program.coroutines_without, statics,
    stateSymbol_without, clockStorage, countedIntervals, usedIntervals_without]

/-- All functions keep their announcements. -/
theorem prototypeLines_without :
    prototypeLines target (program.without .registers) = prototypeLines target program := by
  -- Signatures tell how a function is to be compiled, which registers are no part of.
  have functions : (program.model.without .registers).functions.map (functionSignature target) =
      program.model.functions.map (functionSignature target) := List.map_map
  have hooks : (program.model.without .registers).hooks.length = program.model.hooks.length :=
    List.length_map _
  simp only [prototypeLines, Program.model_without, Program.coroutines_without, functions, hooks,
    hookSignature_without, stepSignature_without]

theorem functionLines_without (function : Function) (code : Code) :
    functionLines target (program.without .registers) (function.without .registers) code =
      functionLines target program function code := by
  simp only [functionLines, codeLines_without, Program.model_without, ofLocals_without]
  rfl

theorem stepLines_without (id : CoroutineId) (machine : StateMachine) :
    stepLines (program.without .registers) id machine = stepLines program id machine := by
  simp only [stepLines, resumeLines, stateSymbol_without, codeLines_without, stepSignature_without,
    Program.model_without, ofLocals_without]

/-- All functions keep their definitions. -/
theorem definitionLines_without :
    definitionLines target (program.without .registers) = definitionLines target program := by
  simp only [definitionLines, Program.model_without, Program.coroutines_without,
    Program.functions_without, Program.hooks_without, Model.without, List.zip_map_left,
    List.zipIdx_map, List.flatMap_map, Prod.map, id, functionLines_without, stepLines_without,
    procedureLines_without, hookSignature_without]
  rfl

/-- Without wishes for registers, but with the same bindings, the file is the same. -/
theorem fileText_without (plan : Plan) (name : String) :
    fileText target (program.without .registers) plan name = fileText target program plan name := by
  -- The file is put together from parts that were seen to be the same.
  have headers : (program.model.without .registers).headers = program.model.headers := rfl
  simp only [fileText, fileLines, Program.model_without, headers, storageLines_without,
    prototypeLines_without, definitionLines_without, mainLines_without]

end File

end Coro.Emit
