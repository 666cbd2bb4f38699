import Coro.Machine.Bench
import Coro.Proofs.Machine.Confinement
import Coro.Proofs.Resolution.Ownership

/-!
Threads are isolated from each other.

Code refers to static variables of its own thread, of the top level, and of the functions that it
calls. It drives subroutines of its own thread only. So a thread neither touches nor sees what
belongs to another one.
-/

namespace Coro

/-- All but the static variables and the coroutines of others. -/
def Ownership.reach (known : Ownership) (lead : Owner) : References :=
  { known.references lead with subroutine := fun callee => known.Serves (.coroutine callee) lead }

/-- The code of each entity refers to nothing that belongs to others. -/
structure Program.Separated (program : Program) : Prop where
  code : ∀ owner lead code, program.code? owner = some code →
    program.model.ownership.Serves owner lead →
      ∀ instr ∈ code, instr.Refers (program.model.ownership.reach lead)
  /-- Parameters and local variables of a coroutine belong to it. -/
  owned : ∀ (id : CoroutineId) coroutine machine,
    program.model.coroutines[id]? = some coroutine → program.coroutines[id]? = some machine →
      ∀ place ∈ coroutine.parameters ++ machine.hoisted,
        program.model.ownership.owners[place]? = some (.coroutine id)

namespace Model

variable {model : Model} {program : Program} {owner lead : Owner}

theorem ownership_growsTo (model : Model) : model.ownership.GrowsTo model.hoist.ownership where
  owners := by simp [ownership, hoist]
  threads := List.prefix_rfl

/-- What a coroutine can call works for its thread. -/
theorem serves_of_canCall {caller callee : CoroutineId} {count : Nat}
    (possible : model.shapes.CanCall caller callee count)
    (serves : model.ownership.Serves (.coroutine caller) lead) :
    model.ownership.Serves (.coroutine callee) lead := by
  obtain ⟨calling, called, parent, here, there, -, same, -⟩ := possible
  obtain ⟨thread, found, rfl⟩ := serves
  have listed : ∀ {id : CoroutineId} {shape : CoroutineShape},
      model.shapes.coroutines[id]? = some shape →
        model.ownership.threads[id]? = some shape.thread := by
    intro id shape found
    obtain ⟨coroutine, known, rfl⟩ : ∃ coroutine, model.coroutines[id]? = some coroutine ∧
        coroutine.shape = shape := by
      simpa [shapes] using found
    simp [ownership, known, Coroutine.shape]
  have equal := Option.some.inj ((listed here).symm.trans found)
  exact ⟨called.thread, listed there, by rw [same, equal]⟩

/-- The static variable for a local variable of a coroutine belongs to the coroutine. -/
theorem hoisted_owner {id : CoroutineId} {coroutine : Coroutine}
    (found : model.coroutines[id]? = some coroutine) {place : LocalId}
    (declared : place < coroutine.locals.length) :
    model.hoist.ownership.owners[model.firstHoisted id + place]? = some (.coroutine id) := by
  have kept := hoist_local found (List.getElem?_eq_getElem declared)
  rw [ownership, List.getElem?_map, kept]
  rfl

/-- In a lowered program, parameters and local variables of a coroutine belong to it. -/
theorem LowersTo.owned (lowered : model.LowersTo program) (separated : model.Separated)
    {id : CoroutineId} {coroutine : Coroutine} {machine : StateMachine}
    (known : program.model.coroutines[id]? = some coroutine)
    (found : program.coroutines[id]? = some machine) :
    ∀ place ∈ coroutine.parameters ++ machine.hoisted,
      program.model.ownership.owners[place]? = some (.coroutine id) := by
  rw [lowered.hoisted] at known ⊢
  have known : model.coroutines[id]? = some coroutine := known
  rw [lowered.coroutines, known] at found
  obtain rfl := Option.some.inj found
  intro place member
  rcases List.mem_append.mp member with parameter | kept
  · exact getElem?_grown model.ownership_growsTo.owners
      (separated.parameters id coroutine known place parameter)
  · obtain ⟨behind, small⟩ := List.mem_range'_1.mp kept
    obtain ⟨own, rfl⟩ : ∃ own, place = model.firstHoisted id + own :=
      ⟨_, (Nat.add_sub_cancel' behind).symm⟩
    exact hoisted_owner known (Nat.lt_of_add_lt_add_left small)

/-- In a lowered program, code refers to nothing that belongs to others. -/
theorem LowersTo.code_separated (lowered : model.LowersTo program) (formed : model.WellFormed)
    (separated : model.Separated) {code : Code} (found : program.code? owner = some code)
    (serves : program.model.ownership.Serves owner lead) :
    ∀ instr ∈ code, instr.Refers (program.model.ownership.reach lead) := by
  obtain ⟨body, known, -⟩ := lowered.code?_eq found
  obtain ⟨valued, statements⟩ := formed.statementsOf known
  rw [lowered.hoisted] at serves ⊢
  have serves : model.ownership.Serves owner lead := by cases owner <;> exact serves
  have refers := (separated.bodies owner lead body known serves).both statements.refers
  have grown := model.ownership_growsTo
  have callable : ∀ callee, (BodySetting.references ⟨model.shapes, body.locals.map Local.length,
      owner.coroutine?, valued⟩).subroutine callee →
        model.ownership.Serves (.coroutine callee) lead := by
    intro callee possible
    obtain ⟨caller, count, own, possible⟩ := possible
    -- Only coroutines call subroutines.
    cases owner with
    | coroutine id =>
      cases own
      exact serves_of_canCall possible serves
    | _ => cases own
  refine lowered.refers found known refers ⟨⟨?_, fun _ _ => trivial⟩, ?_, ?_⟩
  · intro var usable
    obtain ⟨opened, indexed, allowed⟩ := usable
    cases var with
    | static id =>
      have still := (grown.within lead).var (.static id) opened
      cases owner <;> exact still
    | localVar id =>
      have declared : id < body.locals.length := by simpa using Shapes.local_declared allowed
      cases owner with
      | coroutine place =>
        -- The variable of a coroutine has become a static one, and belongs to it.
        obtain ⟨coroutine, listed, rfl⟩ := Option.map_eq_some_iff.mp known
        rw [contextOf_local listed declared]
        intro sought same
        cases same
        exact ⟨.coroutine place, hoisted_owner listed declared, .inr (serves.grow grown)⟩
      | _ => exact nofun
    | external id => cases owner <;> exact nofun
  · exact fun callee granted => (callable callee granted.2).grow grown
  · intro callee granted parameter member sought same
    cases same
    rw [contextOf_parameters] at member
    have owned : model.ownership.owners[parameter]? = some (.coroutine callee) := by
      cases listed : model.coroutines[callee]? with
      | none => simp [Model.parameters, listed] at member
      | some coroutine =>
        refine separated.parameters callee coroutine listed parameter ?_
        simpa [Model.parameters, listed] using member
    exact ⟨_, getElem?_grown grown.owners owned, .inr ((callable callee granted.2).grow grown)⟩

/--
What those who serve somebody can look at and change.

Functions can be called from everywhere, so their variables are in sight of all.
-/
def view (model : Model) (lead : Owner) : View where
  statics id := ∃ owner, model.ownership.owners[id]? = some owner ∧
    (owner = .global ∨ (∃ function, owner = .function function) ∨
      model.ownership.Serves owner lead)
  states id := model.ownership.Serves (.coroutine id) lead

theorem reach_static {id : StaticId} (reached : (model.ownership.reach lead).var (.static id)) :
    (model.view lead).statics id := by
  obtain ⟨owner, found, reason⟩ := reached id rfl
  exact ⟨owner, found, reason.imp_right .inr⟩

/-- What functions can refer to is in sight of all. -/
theorem reach_function {place : FunctionId} {id : StaticId} (lead : Owner)
    (reached : (model.ownership.reach (.function place)).var (.static id)) :
    (model.view lead).statics id := by
  obtain ⟨owner, found, reason⟩ := reached id rfl
  refine ⟨owner, found, reason.imp_right fun serves => .inl ?_⟩
  cases owner with
  | coroutine other =>
    obtain ⟨thread, -, impossible⟩ := serves
    cases impossible
  | _ => exact ⟨place, Eq.symm serves⟩

end Model

/-- In a linked program, code refers to nothing that belongs to others. -/
theorem Source.link_separated {source : Source} {program : Program}
    {warnings : List (Located Warning)} (linked : source.link = .ok (program, warnings)) :
    program.Separated := by
  obtain ⟨description, resolved, -, meant, lowered, -⟩ := link_eq_ok linked
  obtain ⟨tables, complete, known⟩ := Ast.Description.resolve_tables meant
  have lowered := Model.lower_lowersTo lowered
  have separated := Ast.Description.resolve_separated meant
  exact ⟨fun _ _ _ => lowered.code_separated (Tables.toModel?_wellFormed complete known) separated,
    fun _ _ _ => lowered.owned separated⟩

/-! ## What bodies are confined to -/

/-- Coroutines serve nobody but threads. -/
theorem Ownership.not_serves {known : Ownership} {id : CoroutineId} {lead : Owner}
    (plain : lead.coroutine? = none) : ¬known.Serves (.coroutine id) lead := by
  rintro ⟨thread, -, rfl⟩
  cases plain

namespace Exec

variable {σ : Type} [Host σ] {program : Program} {callees : Callees σ} {lead : Owner}

section Separated

variable (separated : program.Separated)

include separated

/-- An instruction of a body that is never suspended is confined to what its code refers to. -/
theorem executePlain_confined (functions : ∀ id args,
      Confined (program.model.view lead) (callees.function id args) fun _ => True)
    {owner : Owner} {code : Code} (made : program.code? owner = some code)
    (plain : owner.coroutine? = none)
    (seen : ∀ id, (program.model.ownership.reach owner).var (.static id) →
      (program.model.view lead).statics id) :
    ∀ instr ∈ code, ∀ frame, Confined (program.model.view lead)
      (execute program callees none frame instr) fun _ => True := by
  have serves : program.model.ownership.Serves owner owner := by
    cases owner with
    | coroutine id => cases plain
    | _ => rfl
  -- Such a body drives no subroutines, because none of them serves it.
  have idle : ∀ id, ¬(program.model.ownership.reach owner).subroutine id :=
    fun _ => Ownership.not_serves plain
  intro instr member frame
  have refers := separated.code owner owner code made serves instr member
  refine execute_confined seen functions (fun id known => ?_) (fun id known => ?_) refers frame
  · rcases known with driven | own
    · exact absurd driven (idle id)
    · cases own
  · exact absurd known (idle id)

/--
However many bodies can be started inside each other, all of them are confined.

A function is confined to what is in sight of all, a coroutine also to what belongs to its thread.
-/
theorem callees_confined (fuel levels : Nat) :
    Follows (Confined (σ := σ) (program.model.view lead))
      (fun id => program.model.ownership.Serves (.coroutine id) lead)
      (Exec.callees program fuel levels) := by
  refine Confined.law.callees (fun _ serves => state_confined serves) ?_ ?_ fuel levels
  · intro callees inner id code made
    exact executePlain_confined separated inner.function made rfl
      fun _ reached => Model.reach_function lead reached
  · intro callees inner id serves machine found instr member frame
    have made : program.code? (.coroutine id) = some machine.code :=
      Option.map_eq_some_iff.mpr ⟨machine, found, rfl⟩
    refine execute_confined (fun _ reached => Model.reach_static reached) inner.function ?_
      inner.coroutine
      (separated.code (.coroutine id) lead machine.code made serves instr member) frame
    -- The states that it changes are its own one and those of the subroutines that it drives.
    intro other known
    rcases known with driven | own
    · exact driven
    · cases own
      exact serves

/-- A hook is confined to what belongs to it, and to what is in sight of all. -/
theorem hook_confined (fuel : Nat) (id : HookId) :
    Confined (σ := σ) (program.model.view (.hook id)) (hook program fuel id) fun _ => True :=
  Confined.law.hook fun _ made => executePlain_confined separated
    (callees_confined separated fuel maxDepth).function made rfl
    fun _ reached => Model.reach_static reached

/-- The entry point is confined to what belongs to it, and to what is in sight of all. -/
theorem entry_confined (fuel : Nat) :
    Confined (σ := σ) (program.model.view .entry)
      (runBody program fuel (outermost program fuel) program.model.entry.locals program.entry [])
      fun _ => True := by
  have made : program.code? .entry = some program.entry := rfl
  exact Confined.law.anyBody (executePlain_confined separated
    (callees_confined separated fuel maxDepth).function made rfl
    fun _ reached => Model.reach_static reached) fuel

end Separated

end Exec

/-! ## What belongs to coroutines -/

/-- Everything that belongs to a coroutine is as it was: its state and its static variables. -/
def Model.Unaffected {σ : Type} (model : Model) (id : CoroutineId) (before after : Machine σ) :
    Prop :=
  after.states[id]? = before.states[id]? ∧
    ∀ (place : StaticId) (storage : StaticVariable), model.statics[place]? = some storage →
      storage.owner = .coroutine id → after.statics[place]? = before.statics[place]?

/-- What belongs to a coroutine is out of sight of those who do not serve its thread. -/
theorem View.Untouched.unaffected {σ : Type} {model : Model} {lead : Owner} {id : CoroutineId}
    {before after : Machine σ} (untouched : (model.view lead).Untouched before after)
    (foreign : ¬model.ownership.Serves (.coroutine id) lead) :
    model.Unaffected id before after := by
  refine ⟨untouched.states id foreign, fun place storage found owned => ?_⟩
  refine untouched.statics place fun visible => ?_
  obtain ⟨owner, known, reason⟩ := visible
  have same : owner = .coroutine id := by
    rw [Model.ownership, List.getElem?_map, found] at known
    exact (Option.some.inj known).symm.trans owned
  rw [same] at reason
  rcases reason with top | ⟨function, called⟩ | serves
  · cases top
  · cases called
  · exact foreign serves

namespace Machine

/--
Threads are isolated from each other.

Whatever coroutine goes on, and whether it returns or stops, everything that belongs to coroutines
of other threads stays as it was, parameters and local variables included. Functions, hooks and the
entry point affect no coroutine at all. What a coroutine does, in turn, depends only on the host, on
what belongs to its own thread, and on the static variables of the top level and of functions.
-/
theorem threads_stay_apart {source : Source} {program : Program}
    {warnings : List (Located Warning)} (linked : source.link = .ok (program, warnings))
    (σ : Type) [Host σ] (fuel : Nat) :
    (∀ (id : CoroutineId) (coroutine : Coroutine) (code : StateMachine),
      program.model.coroutines[id]? = some coroutine → program.coroutines[id]? = some code →
        ∀ place ∈ coroutine.parameters ++ code.hoisted,
          program.model.statics[place]?.map StaticVariable.owner = some (.coroutine id)) ∧
    (∀ (self : CoroutineId) (running : Coroutine),
      program.model.coroutines[self]? = some running →
        (∀ (id : CoroutineId) (coroutine : Coroutine),
          program.model.coroutines[id]? = some coroutine → coroutine.thread ≠ running.thread →
            ∀ machine : Machine σ, program.model.Unaffected id machine
              (Exec.behind (Exec.step program fuel self) machine)) ∧
        ∀ one other : Machine σ,
          (program.model.view (.coroutine running.thread)).Alike one other →
            (program.model.view (.coroutine running.thread)).Agree (fun _ => True)
              (Exec.step program fuel self one) (Exec.step program fuel self other)) ∧
    ∀ (id : CoroutineId) (machine : Machine σ),
      (∀ levels function args, program.model.Unaffected id machine
        (Exec.behind ((Exec.callees program fuel levels).function function args) machine)) ∧
      (∀ hook, program.model.Unaffected id machine
        (Exec.behind (Exec.hook program fuel hook) machine)) ∧
      program.model.Unaffected id machine (Exec.behind (Exec.runBody program fuel
        (Exec.outermost program fuel) program.model.entry.locals program.entry []) machine) := by
  have separated := Source.link_separated linked
  have listed : ∀ {id : CoroutineId} {coroutine : Coroutine},
      program.model.coroutines[id]? = some coroutine →
        program.model.ownership.threads[id]? = some coroutine.thread := by
    intro id coroutine found
    simp [Model.ownership, found]
  refine ⟨fun id coroutine code known found place member => ?_, fun self running found => ?_,
    fun id machine => ?_⟩
  · rw [← List.getElem?_map]
    exact separated.owned id coroutine code known found place member
  · have confined := (Exec.callees_confined (σ := σ) separated fuel (maxDepth + 1)).coroutine self
      ⟨running.thread, listed found, rfl⟩
    refine ⟨fun id coroutine known foreign machine => ?_, confined.agree⟩
    refine (confined.untouched machine).unaffected fun serves => ?_
    obtain ⟨thread, there, same⟩ := serves
    injection same with same
    exact foreign ((Option.some.inj ((listed known).symm.trans there)).trans same.symm)
  · refine ⟨fun levels function args => ?_, fun hook => ?_, ?_⟩
    · have confined : Exec.Confined (σ := σ) (program.model.view .global)
          ((Exec.callees program fuel levels).function function args) fun _ => True :=
        (Exec.callees_confined separated fuel levels).function function args
      exact (confined.untouched machine).unaffected (Ownership.not_serves rfl)
    · exact ((Exec.hook_confined separated fuel hook).untouched machine).unaffected
        (Ownership.not_serves rfl)
    · exact ((Exec.entry_confined separated fuel).untouched machine).unaffected
        (Ownership.not_serves rfl)

end Machine

/-- Two threads, each with a local variable. -/
def Source.paired : Source :=
  .ofText "paired" "thread a{let u8 x=1;yield;}thread b{let u8 y=2;yield;}main{}"

theorem Source.paired_links : ∃ program warnings, paired.link = .ok (program, warnings) ∧
    program.model.coroutines.map Coroutine.thread = [0, 1] ∧
    program.coroutines.map StateMachine.hoisted = [[0], [1]] :=
  paired.links_of_decide (by decide +kernel)

/-- However the first thread goes on, the second one keeps its state and its variable. -/
theorem Machine.paired_stay_apart : ∃ program warnings,
    Source.paired.link = .ok (program, warnings) ∧ ∀ fuel (machine : Machine Bench),
      (Exec.behind (Exec.step program fuel 0) machine).states[1]? = machine.states[1]? ∧
      (Exec.behind (Exec.step program fuel 0) machine).statics[1]? = machine.statics[1]? := by
  obtain ⟨program, warnings, linked, threads, hoisted⟩ := Source.paired_links
  obtain ⟨first, here, own⟩ : ∃ first, program.model.coroutines[0]? = some first ∧
      first.thread = 0 := by
    have listed := congrArg (·[0]?) threads
    simpa using listed
  obtain ⟨second, there, foreign⟩ : ∃ second, program.model.coroutines[1]? = some second ∧
      second.thread = 1 := by
    have listed := congrArg (·[1]?) threads
    simpa using listed
  obtain ⟨code, found, kept⟩ : ∃ code, program.coroutines[1]? = some code ∧
      code.hoisted = [1] := by
    have listed := congrArg (·[1]?) hoisted
    simpa using listed
  refine ⟨program, warnings, linked, fun fuel machine => ?_⟩
  obtain ⟨owned, apart, -⟩ := threads_stay_apart linked Bench fuel
  obtain ⟨state, contents⟩ :=
    (apart 0 first here).1 1 second there (by simp [own, foreign]) machine
  have belongs := owned 1 second code there found 1 (by simp [kept])
  obtain ⟨storage, listed, owner⟩ := Option.map_eq_some_iff.mp belongs
  exact ⟨state, contents 1 storage listed owner⟩

end Coro
