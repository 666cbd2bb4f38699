import Coro.Proofs.Program.Suspension
import Coro.Proofs.Resolution

/-!
Well-formed programs.

Their coroutines have code that fits their points, their other bodies are never suspended, and their
calls stay inside one thread. Every program that is linked is one of them.
-/

namespace Coro

variable {machine : StateMachine} {program : Program}

/-- The code of a coroutine tells, goes on with and describes the same points. -/
structure StateMachine.WellFormed (machine : StateMachine) : Prop where
  laid : Code.Laid machine.points machine.code
  /-- Every point that is kept in the state is one of the coroutine. -/
  kept : ∀ point ∈ Code.points true machine.code, point < machine.points.length
  /-- Every point of the coroutine goes on somewhere. -/
  resumed : ∀ point < machine.points.length, point ∈ Code.points false machine.code
  limited : machine.points.length ≤ maxPoints
  /-- Every jump finds its label. -/
  closed : ∀ instr ∈ machine.code, ∀ label, instr.target? = some label →
    label ∈ machine.code.labels
  /-- The code ends with the end of the coroutine. -/
  ends : [.finish] <:+ machine.code

/-- A state that tells a point is the one of this point. -/
theorem eq_stateAt {state : Nat} {width : StateWidth} {point : Nat}
    (told : pointOf? state width = some point) : state = stateAt point := by
  unfold pointOf? at told
  split at told
  · cases told
  · rename_i suspended
    have begun : state ≠ 0 := fun same => suspended (.inl same)
    obtain rfl : state - 1 = point := Option.some.inj told
    simp only [stateAt]
    omega

/-- A coroutine goes on where its point does, or starts if its state tells none of its points. -/
theorem StateMachine.WellFormed.resumeCode_cases (formed : machine.WellFormed) (state : Nat) :
    (∃ point, state = stateAt point ∧
      Code.Resumes machine.points point (machine.resumeCode state)) ∨
    machine.resumeCode state = machine.code ∧
      ∀ point < machine.points.length, state ≠ stateAt point := by
  cases told : pointOf? state machine.width with
  | none =>
    refine .inr ⟨by simp [resumeCode, told], fun point within same => ?_⟩
    rw [same] at told
    cases told.symm.trans (pointOf?_stateAt within formed.limited)
  | some point =>
    by_cases present : point ∈ Code.points false machine.code
    · have found : machine.code.atPoint point ≠ [] :=
        mt Code.atPoint_eq_nil.mp (not_not_intro present)
      have goes : machine.resumeCode state = machine.code.atPoint point := by
        simp only [resumeCode, told]
        split
        · rename_i missing
          exact absurd missing found
        · rfl
      exact .inl ⟨point, eq_stateAt told, goes ▸ formed.laid.atPoint present⟩
    · have missing := Code.atPoint_eq_nil.mpr present
      simp only [Code.atPoint] at missing
      refine .inr ⟨by simp [resumeCode, told, missing], fun other within same => ?_⟩
      rw [same, show pointOf? (stateAt other) machine.width = some other from
        pointOf?_stateAt within formed.limited] at told
      exact present (Option.some.inj told ▸ formed.resumed other within)

theorem StateMachine.WellFormed.resumeCode_ne_nil (formed : machine.WellFormed)
    (state : Nat) : machine.resumeCode state ≠ [] := by
  rcases formed.resumeCode_cases state with ⟨point, -, resumes⟩ | ⟨whole, -⟩
  · exact resumes.ne_nil
  · rw [whole]
    intro empty
    simpa [empty] using formed.ends

namespace Model

variable {model : Model} {program : Program}

/-- Coroutines of a well-formed model have well-formed code. -/
theorem WellFormed.machineOf (formed : model.WellFormed) {id : CoroutineId} {coroutine : Coroutine}
    (found : model.coroutines[id]? = some coroutine)
    (limited : Stmt.pointCounts coroutine.body ≤ maxPoints) :
    (model.machineOf id coroutine).WellFormed := by
  have body := (formed.coroutines id coroutine found).body.statements
  refine ⟨?_, fun point member => ?_, fun point within => ?_, by simpa using limited,
    fun instr member label target => ?_, List.suffix_append _ _⟩
  · exact (BodyContext.codes_laid _ rfl rfl none 0 0 false coroutine.body body
      (by simp [Model.machineOf, coroutineContext])).append (.free trivial .nil)
  · rw [points_machineOf, List.mem_range'_1] at member
    rw [length_points_machineOf]
    exact Nat.lt_of_lt_of_eq member.2 (Nat.zero_add _)
  · rw [length_points_machineOf] at within
    rw [points_machineOf, List.mem_range'_1]
    exact ⟨Nat.zero_le _, by simpa using within⟩
  · -- Outside of all loops, every label that is jumped to is placed in the code itself.
    rcases List.mem_append.mp member with inside | last
    · have jumped := List.mem_filterMap.mpr ⟨instr, inside, target⟩
      have placed := (BodyContext.mem_targets_codes _ 0 0 _).mp jumped
      simp [Model.machineOf, placed]
    · cases List.mem_singleton.mp last
      cases target

/-- Functions, hooks and the entry point let no coroutine go on. -/
theorem LowersTo.isPlain (lowered : model.LowersTo program) (formed : model.WellFormed) :
    program.IsPlain := by
  refine ⟨fun code member => ?_, fun code member => ?_, ?_⟩
  · rw [lowered.functions] at member
    obtain ⟨function, known, rfl⟩ := List.mem_map.mp member
    exact BodyContext.codes_plain _ rfl none 0 0 false function.body
      (formed.functions function known).body.statements
  · rw [lowered.hooks] at member
    obtain ⟨hook, known, rfl⟩ := List.mem_map.mp member
    exact BodyContext.codes_plain _ rfl none 0 0 false hook.body (formed.hooks hook known).statements
  · rw [lowered.entry]
    exact BodyContext.codes_plain _ rfl none 0 0 false model.entry.body formed.entry.statements

end Model

/-- The threads are the coroutines that are declared in no other. -/
theorem Model.mem_threads {model : Model} {id : CoroutineId} :
    id ∈ model.threads ↔
      ∃ coroutine, model.coroutines[id]? = some coroutine ∧ coroutine.isThread = true := by
  simp only [threads, List.mem_map, List.mem_filter]
  constructor
  · rintro ⟨⟨coroutine, place⟩, ⟨known, top⟩, rfl⟩
    exact ⟨coroutine, List.mem_zipIdx_iff_getElem?.mp known, top⟩
  · rintro ⟨coroutine, found, top⟩
    exact ⟨(coroutine, id), ⟨List.mem_zipIdx_iff_getElem?.mpr found, top⟩, rfl⟩

/-- A coroutine calls a subroutine at one of its points. -/
def Program.Calls (program : Program) (caller callee : CoroutineId) : Prop :=
  ∃ machine point, program.coroutines[caller]? = some machine ∧
    kindAt? machine.points point = some (.call callee)

/-- All code of a program can be run, and calls stay inside their threads. -/
structure Program.WellFormed (program : Program) : Prop where
  plain : program.IsPlain
  machines : ∀ (id : CoroutineId) machine, program.coroutines[id]? = some machine → machine.WellFormed
  /-- There is one state machine for each coroutine. -/
  length : program.coroutines.length = program.model.coroutines.length
  /-- A thread works for itself. -/
  threads : ∀ (id : CoroutineId) coroutine, program.model.coroutines[id]? = some coroutine →
    coroutine.isThread = true → coroutine.thread = id
  /-- Only subroutines are called, and they work for the thread of their caller. -/
  calls : ∀ caller callee, program.Calls caller callee → ∃ calling called,
    program.model.coroutines[caller]? = some calling ∧
    program.model.coroutines[callee]? = some called ∧ called.isThread = false ∧
    called.thread = calling.thread

/-- A coroutine drives only subroutines that it calls. -/
theorem Program.WellFormed.calls_of_drive (formed : program.WellFormed) {id callee : CoroutineId}
    (found : program.coroutines[id]? = some machine) (member : .drive callee ∈ machine.code) :
    program.Calls id callee := by
  obtain ⟨point, kind⟩ := (formed.machines id machine found).laid.calls member
  exact ⟨machine, point, found, kind⟩

mutual

/-- A call in a statement has a callee that can be called from there. -/
theorem Stmt.canCall {setting : BodySetting} {inLoop : Bool} {rename : Var → Var}
    {callee : CoroutineId} {suspension : SuspensionPoint} {statement : Stmt}
    (formed : statement.WellFormed setting inLoop) (member : suspension ∈ statement.points rename)
    (called : suspension.kind = .call callee) :
    ∃ caller count, setting.caller = some caller ∧ setting.shapes.CanCall caller callee count := by
  cases statement with
  | yield location | waitUntil condition hint location =>
    obtain rfl := List.mem_singleton.mp member
    cases called
  | call known args location =>
    obtain rfl := List.mem_singleton.mp member
    cases called
    obtain ⟨caller, present, possible⟩ := formed.1
    exact ⟨caller, args.length, present, possible⟩
  | ifThen condition taken otherwise =>
    rcases List.mem_append.mp member with early | late
    · exact Stmt.canCallAll formed.2.1 early called
    · exact Stmt.canCallAll formed.2.2 late called
  | whileLoop condition body => exact Stmt.canCallAll formed.2 member called
  | loop body =>
    have inner : Stmt.WellFormedAll setting true body := formed
    exact Stmt.canCallAll inner member called
  -- No other statement is a suspension.
  | _ => exact nomatch member

theorem Stmt.canCallAll {setting : BodySetting} {inLoop : Bool} {rename : Var → Var}
    {callee : CoroutineId} {suspension : SuspensionPoint} {statements : List Stmt}
    (formed : Stmt.WellFormedAll setting inLoop statements)
    (member : suspension ∈ Stmt.pointsAll rename statements)
    (called : suspension.kind = .call callee) :
    ∃ caller count, setting.caller = some caller ∧ setting.shapes.CanCall caller callee count := by
  cases statements with
  | nil => exact nomatch member
  | cons first rest =>
    rcases List.mem_append.mp member with early | late
    · exact Stmt.canCall formed.1 early called
    · exact Stmt.canCallAll formed.2 late called

end

/-- The program of a well-formed model is well formed. -/
theorem Model.LowersTo.wellFormed {model : Model} (lowered : model.LowersTo program)
    (formed : model.WellFormed) : program.WellFormed := by
  have same : program.model.coroutines = model.coroutines := by rw [lowered.hoisted]; rfl
  -- Every state machine is the one of a coroutine of the model.
  have made : ∀ (id : CoroutineId) machine, program.coroutines[id]? = some machine →
      ∃ coroutine, model.coroutines[id]? = some coroutine ∧ model.machineOf id coroutine = machine :=
    fun id machine found => Option.map_eq_some_iff.mp (lowered.coroutines id ▸ found)
  refine ⟨lowered.isPlain formed, fun id machine found => ?_, ?_, ?_, ?_⟩
  · obtain ⟨coroutine, known, rfl⟩ := made id machine found
    exact formed.machineOf known (lowered.limited coroutine (List.mem_of_getElem? known))
  · rw [same, lowered.length_coroutines]
  · intro id coroutine known top
    rw [same] at known
    exact (formed.coroutines id coroutine known).top (Option.isNone_iff_eq_none.mp top)
  · rintro caller callee ⟨machine, point, found, kind⟩
    obtain ⟨coroutine, known, rfl⟩ := made caller machine found
    -- The point belongs to a call in the body, whose callee can be called from there.
    obtain ⟨suspension, place, called⟩ := Option.map_eq_some_iff.mp kind
    obtain ⟨self, count, itself, possible⟩ :=
      Stmt.canCallAll (formed.coroutines caller coroutine known).body.statements
        (List.mem_of_getElem? place) called
    cases itself
    obtain ⟨calling, called, parent, here, there, -, thread, inside, -⟩ := possible
    simp only [Model.shapes, List.getElem?_map, Option.map_eq_some_iff] at here there
    obtain ⟨calling, here, rfl⟩ := here
    obtain ⟨called, there, rfl⟩ := there
    have nested : called.isThread = false := by
      rw [Coroutine.isThread, show called.parent = some parent from inside]
      rfl
    rw [same]
    exact ⟨calling, called, here, there, nested, thread⟩

/-- Every program that is linked is well formed. -/
theorem Source.link_program {source : Source} {warnings : List (Located Warning)}
    (linked : source.link = .ok (program, warnings)) :
    program.WellFormed ∧ program.checkCalls = .ok () := by
  obtain ⟨description, resolved, -, meant, lowered, checked⟩ := link_eq_ok linked
  obtain ⟨tables, complete, known⟩ := Ast.Description.resolve_tables meant
  have formed := Tables.toModel?_wellFormed complete known
  exact ⟨(Model.lower_lowersTo lowered).wellFormed formed, checked⟩

end Coro
