import Coro.Proofs.Machine.Isolation
import Coro.Proofs.Program.WellFormed
import Mathlib.Data.List.Sigma

/-!
Yields take turns.

A thread whose statements come one behind the other gets from each of its yields to the next one in
every pass, and from the last one back. Nothing else that happens meanwhile changes its state.
-/

namespace Coro

/-- A statement without others inside it, which suspends by a yield alone and leaves nothing out. -/
def Stmt.isStraight : Stmt → Bool
  | .letVar _ _ | .yield _ | .assign _ _ _ | .eval _ => true
  | _ => false

/-- An instruction that changes no state, and behind which the next one comes. -/
def Instr.isStep : Instr → Bool
  | .setLabel _ | .assign _ _ _ | .eval _ | .resume _ => true
  | _ => false

/-- A thread that goes on with a part of its code gets to a state, whatever it computes. -/
inductive Code.Leads (code : Code) : Code → Nat → Prop where
  | step {instr : Instr} {rest : Code} {state : Nat} (easy : instr.isStep = true)
      (onward : Leads code rest state) : Leads code (instr :: rest) state
  | jump {label : Label} {rest : Code} {state : Nat}
      (onward : Leads code (code.from label) state) : Leads code (.jump label :: rest) state
  | yield (point : Point) (rest : Code) :
      Leads code (.setState point :: .suspend :: rest) (stateAt point)
  | finish (rest : Code) : Leads code (.finish :: rest) startState

/-- The state behind another one, of a thread that goes back from the last of its states. -/
def nextState (last back state : Nat) : Nat :=
  if state = last then back else state + 1

/-- Code leads to the first of its points, from each to the next, and from the last one back. -/
def Code.Turns (code : Code) (points back : Nat) : Prop :=
  code.Leads code (stateAt 0) ∧ ∀ point < points,
    code.Leads (code.atPoint point) (nextState points back (stateAt point))

/-! ## Straight code -/

/-- Code that computes and yields, with the points from a first one up to another. -/
inductive Code.Straight : Nat → Code → Nat → Prop where
  | nil (point : Nat) : Straight point [] point
  | step {first last : Nat} {instr : Instr} {rest : Code} (easy : instr.isStep = true)
      (plain : instr.resumes? = none) (behind : Straight first rest last) :
      Straight first (instr :: rest) last
  | yield {point last : Nat} {rest : Code} (behind : Straight (point + 1) rest last) :
      Straight point (.setState point :: .suspend :: .resume point :: rest) last

namespace Code.Straight

variable {code part after : Code} {first last state : Nat}

variable (straight : Straight first part last)

include straight

theorem le : first ≤ last := by
  induction straight with
  | nil => exact Nat.le_refl _
  | step _ _ _ ih => exact ih
  | yield _ ih => exact Nat.le_of_succ_le ih

/-- Straight code leads to its first yield, or behind all of it if it has none. -/
theorem leads (behind : first = last → code.Leads after state)
    (next : first ≠ last → state = stateAt first) : code.Leads (part ++ after) state := by
  induction straight with
  | nil => exact behind rfl
  | step easy _ _ ih => exact .step easy (ih behind next)
  | yield later =>
    obtain rfl := next (Nat.ne_of_lt later.le)
    exact .yield _ _

/-- Behind one of its yields, straight code leads to the next one, if there is one. -/
theorem resumed {target : Nat} (early : first ≤ target) (late : target < last)
    (behind : target + 1 = last → code.Leads after state)
    (next : target + 1 ≠ last → state = stateAt (target + 1)) :
    code.Leads ((part ++ after).atPoint target) state := by
  induction straight with
  | nil => exact absurd late (Nat.not_lt.mpr early)
  | step _ plain _ ih =>
    rw [List.cons_append, Code.atPoint_cons, if_neg (by simp [plain])]
    exact ih early late behind next
  | @yield point last rest later ih =>
    simp only [List.cons_append, Code.atPoint_cons, Instr.resumes?, reduceCtorEq, ↓reduceIte,
      Option.some.injEq]
    by_cases here : point = target
    · subst here
      rw [if_pos rfl]
      exact .step rfl (later.leads behind next)
    · rw [if_neg here]
      exact ih (by omega) late behind next

end Code.Straight

namespace BodyContext

variable (context : BodyContext) {code after : Code} (loop : Option LoopLabels)
  {statements : List Stmt} (straight : ∀ statement ∈ statements, statement.isStraight = true)

include straight

theorem codes_straight (label point : Nat) :
    Code.Straight point (context.codes loop label point statements)
      (point + Stmt.pointCounts statements) := by
  induction statements generalizing label point with
  | nil => exact .nil point
  | cons head rest ih =>
    obtain ⟨here, others⟩ := List.forall_mem_cons.mp straight
    have later := ih others (label + head.labelCount) (point + head.pointCount)
    rw [Nat.add_assoc] at later
    rw [codes, Stmt.pointCounts]
    -- A statement that is no yield has no point, and one instruction at most.
    cases head with
    | yield location => exact .yield later
    | letVar id value =>
      cases value with
      | none => exact later
      | some value => exact .step rfl rfl later
    | assign place op value | eval expr => exact .step rfl rfl later
    | _ => cases here

/-- The points of straight statements lead to each other, if the last one leads back. -/
theorem atPoint_leads (label : Nat) {back : Nat} (ends : code.Leads after back) {point : Nat}
    (small : point < Stmt.pointCounts statements) :
    code.Leads ((context.codes loop label 0 statements ++ after).atPoint point)
      (nextState (Stmt.pointCounts statements) back (stateAt point)) := by
  refine (context.codes_straight loop straight label 0).resumed (Nat.zero_le point) (by omega)
    (fun last => ?_) fun more => ?_
  · rwa [nextState, if_pos (by simpa [stateAt] using last)]
  · rw [nextState, if_neg (by simpa [stateAt] using more), stateAt, stateAt]

/-- In a loop of straight statements the last yield leads back to the first. -/
theorem loop_turns (first : Nat) {label : Label} {tail : Code}
    (shape : code =
      .setLabel label :: (context.codes loop first 0 statements ++ .jump label :: tail))
    (yields : 0 < Stmt.pointCounts statements) :
    code.Turns (Stmt.pointCounts statements) (stateAt 0) := by
  have whole : code.Leads code (stateAt 0) := by
    have inner : code.Leads (context.codes loop first 0 statements ++ .jump label :: tail)
        (stateAt 0) :=
      (context.codes_straight loop straight first 0).leads (by omega) fun _ => rfl
    have entered : code.Leads (.setLabel label :: _) (stateAt 0) := .step rfl inner
    rwa [← shape] at entered
  have again : code.from label = code := by simp [shape, Code.from, Instr.label?]
  have back : code.Leads (.jump label :: tail) (stateAt 0) := .jump (again.symm ▸ whole)
  refine ⟨whole, fun point small => ?_⟩
  have found : code.atPoint point =
      (context.codes loop first 0 statements ++ .jump label :: tail).atPoint point := by
    rw [shape, Code.atPoint_cons, if_neg (by simp [Instr.resumes?])]
  rw [found]
  exact context.atPoint_leads loop straight first back small

end BodyContext

/-! ## Turns -/

/-- The state behind some passes. -/
def stateBehind (last back : Nat) : Nat → Nat
  | 0 => startState
  | passes + 1 => nextState last back (stateBehind last back passes)

/-- Every state of a thread leads to the next one. -/
def StateMachine.Rotates (machine : StateMachine) (last back : Nat) : Prop :=
  ∀ state ≤ last, machine.code.Leads (machine.resumeCode state) (nextState last back state)

theorem stateBehind_le {last back : Nat} (small : back ≤ last) (passes : Nat) :
    stateBehind last back passes ≤ last := by
  induction passes with
  | zero => exact Nat.zero_le _
  | succ passes ih =>
    rw [stateBehind, nextState]
    split <;> omega

/-- A thread that goes back to its start or to its first yield counts its passes. -/
theorem stateBehind_add {last back : Nat} (yields : 0 < last) (small : back ≤ 1) (passes : Nat) :
    stateBehind last back (passes + back) = passes % (last + 1 - back) + back := by
  induction passes with
  | zero =>
    obtain rfl | rfl : back = 0 ∨ back = 1 := by omega
    · simp [stateBehind, startState]
    · simp [stateBehind, nextState, startState, yields.ne]
  | succ passes ih =>
    rw [Nat.succ_add, stateBehind, ih, nextState, ← Nat.mod_add_mod]
    have bound := Nat.mod_lt passes (show 0 < last + 1 - back by omega)
    generalize passes % (last + 1 - back) = turn at bound
    split
    · rw [show turn + 1 = last + 1 - back by omega, Nat.mod_self, Nat.zero_add]
    · rw [Nat.mod_eq_of_lt (by omega), Nat.add_right_comm]

namespace Model

variable (model : Model) (id : CoroutineId) {coroutine : Coroutine} {body : List Stmt} {back : Nat}

theorem rotates_of_turns (limited : Stmt.pointCounts coroutine.body ≤ maxPoints)
    (yields : 0 < Stmt.pointCounts coroutine.body)
    (turns : (model.machineOf id coroutine).code.Turns (Stmt.pointCounts coroutine.body) back) :
    (model.machineOf id coroutine).Rotates (Stmt.pointCounts coroutine.body) back := by
  intro state small
  rw [resumeCode_machineOf]
  cases state with
  | zero =>
    rw [nextState, if_neg yields.ne]
    exact turns.1
  | succ point =>
    have small := Nat.lt_of_succ_le small
    have told : pointOf? (point + 1) (model.machineOf id coroutine).width = some point :=
      pointOf?_stateAt (by simpa using small) (by simpa using limited)
    have here : (model.machineOf id coroutine).pointAt? (point + 1) = some point := by
      simpa [StateMachine.pointAt?, told, Option.filter] using small
    rw [here]
    exact turns.2 point small

/-- A thread of straight statements, or of a loop of them, leads from each yield to the next. -/
theorem machineOf_rotates (straight : ∀ statement ∈ body, statement.isStraight = true)
    (yields : 0 < Stmt.pointCounts body) (limited : Stmt.pointCounts coroutine.body ≤ maxPoints) :
    (coroutine.body = body →
      (model.machineOf id coroutine).Rotates (Stmt.pointCounts body) startState) ∧
    (coroutine.body = [.loop body] →
      (model.machineOf id coroutine).Rotates (Stmt.pointCounts body) (stateAt 0)) := by
  constructor
  · rintro rfl
    have ends : (model.machineOf id coroutine).code.Leads [.finish] startState := .finish []
    refine model.rotates_of_turns id limited yields ⟨?_, fun point small =>
      (model.coroutineContext id).atPoint_leads none straight 0 ends small⟩
    exact ((model.coroutineContext id).codes_straight none straight 0 0).leads (by omega)
      fun _ => rfl
  · intro looped
    have same : Stmt.pointCounts coroutine.body = Stmt.pointCounts body := by
      simp [looped, Stmt.pointCounts, Stmt.pointCount]
    obtain ⟨tail, shape⟩ : ∃ tail, (model.machineOf id coroutine).code = .setLabel 0 ::
        ((model.coroutineContext id).codes (some ⟨0, 1⟩) 2 0 body ++ .jump 0 :: tail) := by
      simp [machineOf, looped, BodyContext.codes, BodyContext.code]
    have turns := (model.coroutineContext id).loop_turns (some ⟨0, 1⟩) straight 2 shape yields
    rw [← same] at turns yields ⊢
    exact model.rotates_of_turns id limited yields turns

theorem nodup_threads : model.threads.Nodup :=
  (List.filter_sublist.map Prod.snd).nodup (List.nodup_zipIdx_map_snd model.coroutines)

end Model

/-! ## Runs -/

namespace Exec

variable {σ : Type} {id : CoroutineId} {state : Nat}

/-- A run that returns takes a coroutine from one state to another. -/
def Takes {α : Type} (run : Exec σ α) (id : CoroutineId) (before after : Nat) : Prop :=
  ∀ machine value left, machine.states[id]? = some before → run machine = .ok value left →
    left.states[id]? = some after

theorem Takes.bind {α β : Type} {first : Exec σ α} {next : α → Exec σ β} {before middle last : Nat}
    (early : Takes first id before middle) (late : ∀ value, Takes (next value) id middle last) :
    Takes (first >>= next) id before last := by
  intro machine value left here ran
  simp only [Bind.bind, EStateM.bind] at ran
  cases begun : first machine with
  | ok given between =>
    rw [begun] at ran
    exact late given between value left (early machine given between here begun) ran
  | error halt between =>
    rw [begun] at ran
    cases ran

theorem Takes.pure {α : Type} {value : α} : Takes (σ := σ) (Pure.pure value) id state state := by
  rintro machine _ _ here ⟨⟩
  exact here

/-- A coroutine is in some state. -/
abbrev StaysIn (id : CoroutineId) (state : Nat) (machine : Machine σ) : Prop :=
  machine.states[id]? = some state

theorem staysIn_lasting : Machine.Lasting (StaysIn (σ := σ) id state) :=
  fun _ _ _ states _ held => (congrArg (·[id]?) states).trans held

theorem Keeps.takes {α : Type} {run : Exec σ α} {post : α → Prop}
    (keeps : Keeps (StaysIn id state) (fun _ => True) run post) : Takes run id state state := by
  intro machine value left here ran
  have outcome := keeps machine here
  rw [ran] at outcome
  exact outcome.1

variable {program : Program}

/-- Whoever does not serve its thread leaves a coroutine in its state. -/
theorem Confined.staysIn {α : Type} {run : Exec σ α} {post : α → Prop} {lead : Owner}
    (confined : Confined (program.model.view lead) run post)
    (foreign : ¬program.model.ownership.Serves (.coroutine id) lead) :
    Keeps (StaysIn id state) (fun _ => True) run fun _ => True := by
  intro machine held
  have same := (confined.untouched machine).states id foreign
  simp only [behind] at same
  cases ran : run machine with
  | ok value left | error halt left =>
    rw [ran] at same
    exact ⟨same.trans held, trivial⟩

theorem setState_told {pre : Array Nat → Prop} (value : Nat) :
    Meets (σ := σ) pre (setState id value) (setState id value)
      (fun _ states => states[id]? = some value) fun _ => True :=
  .setState (fun _ _ _ => trivial) fun states old _ here => by
    simp [(Array.getElem?_eq_some_iff.mp here).1]

theorem staysIn_law : Law (σ := σ) (Keeps (StaysIn id state) fun _ => True) fun _ => True :=
  (Keeps.openLaw staysIn_lasting.level).toLaw

variable [Host σ]

/-- Hooks leave a coroutine in its state. -/
theorem hook_staysIn (separated : program.Separated) (fuel : Nat) (place : HookId) :
    Keeps (StaysIn id state) (fun _ => True) (hook (σ := σ) program fuel place) fun _ => True :=
  (hook_confined separated fuel place).staysIn (Ownership.not_serves rfl)

/-- Starting a program leaves a coroutine in its state. -/
theorem boot_takes (separated : program.Separated) (fuel : Nat) :
    Takes (σ := σ) (boot program fuel) id state state := by
  have entered : Keeps (σ := σ) (StaysIn id state) (fun _ => True) (scheduled program fuel).entry
      fun _ => True :=
    staysIn_law.bind ((entry_confined separated fuel).staysIn (Ownership.not_serves rfl))
      fun _ _ => staysIn_law.pure trivial
  have booted := (Keeps.respected staysIn_law staysIn_lasting).boot (scheduled program fuel)
    (scheduled program fuel)
    (hooks_keep staysIn_law staysIn_lasting fun place _ _ => hook_staysIn separated fuel place) entered
  exact booted.takes.bind fun _ => .pure

section Threads

variable {coroutine : Coroutine} (known : program.model.coroutines[id]? = some coroutine)
  (top : coroutine.isThread = true)

include known top

/-- A thread gets to the state that its code leads to. -/
theorem run_leads {callees : Callees σ} (quiet : callees.Quiet callees) {code rest : Code}
    (leads : code.Leads rest state) (fuel : Nat) (frame : Frame) :
    Meets (fun _ => True) (run program callees (some id) code fuel rest frame)
      (run program callees (some id) code fuel rest frame)
      (fun _ states => states[id]? = some state) fun _ => True := by
  -- Behind the change of state nothing is left but to suspend.
  let position : Code → Array Nat → Prop := fun rest states =>
    code.Leads rest state ∨ (∃ more, rest = .suspend :: more) ∧ states[id]? = some state
  have body : Meets (position rest) (run program callees (some id) code fuel rest frame)
      (run program callees (some id) code fuel rest frame)
      (fun _ states => states[id]? = some state) fun _ => True := by
    refine run_meets (fun instr rest frame => .ofEach fun states reached => ?_)
      (fun _ reached => ?_) (fun _ _ _ => trivial) fuel rest frame
    · rcases reached with leads | ⟨⟨more, same⟩, here⟩
      · cases leads with
        | step easy onward =>
          have still : instr.IsStill ∧ ∀ control, instr.MayGo control → control = .next := by
            cases instr <;> simp_all [Instr.isStep, Instr.IsStill, Instr.MayGo]
          refine (execute_quiet quiet (.inl still.1) frame).weaken (fun _ same => same)
            (fun result after changed => ?_) fun _ _ => trivial
          rw [still.2 _ changed.2]
          exact .inl onward
        | jump onward => exact .pure fun _ _ => .inl onward
        | yield point rest =>
          exact (setState_told _).bind fun _ => .pure fun _ told => .inr ⟨⟨rest, rfl⟩, told⟩
        | finish rest =>
          refine .require (fun _ _ _ => trivial) fun found same =>
            .require (fun _ _ _ => trivial) fun machine _ => ?_
          cases known.symm.trans same
          rw [if_pos top]
          exact (setState_told _).bind fun _ => .pure fun _ told => told
      · cases same
        exact .pure fun _ same => same ▸ here
    · rcases reached with leads | ⟨⟨more, same⟩, -⟩
      · cases leads
      · cases same
  exact body.weaken (fun _ _ => .inl leads) (fun _ _ told => told) fun _ stops => stops

variable (formed : program.WellFormed) {code : StateMachine}
  (found : program.coroutines[id]? = some code) {last back : Nat}
  (rotates : code.Rotates last back) (small : state ≤ last)

include formed found rotates small

/-- A thread goes on to the next of its states. -/
theorem step_rotates (fuel : Nat) :
    Takes (σ := σ) (step program fuel id) id state (nextState last back state) := by
  have meets : Meets (fun states => states[id]? = some state) (step (σ := σ) program fuel id)
      (step program fuel id) (fun _ states => states[id]? = some (nextState last back state))
      fun _ => True := by
    refine .require (fun _ _ _ => trivial) fun other same =>
      .state (fun _ _ _ => trivial) fun value => .ofEach fun states reached => ?_
    cases found.symm.trans same
    obtain rfl : state = value := Option.some.inj (reached.1.symm.trans reached.2)
    have goes := run_leads known top (callees_quiet (σ := σ) formed.plain fuel maxDepth)
      (rotates state small) fuel (.enter [] [])
    exact ((goes.enter fun _ _ => trivial).bind fun _ => .pure fun _ told => told).weaken
      (fun _ _ => trivial) (fun _ _ told => told) fun _ stops => stops
  intro machine value left here ran
  have outcome := (meets machine here).2
  rw [ran] at outcome
  exact outcome.1

/-- A pass lets a thread go on to the next of its states. -/
theorem pass_rotates (separated : program.Separated) (fuel : Nat) :
    Takes (σ := σ) (pass program fuel) id state (nextState last back state) := by
  -- The thread has one turn, between the turns of the others.
  obtain ⟨front, behind, split⟩ :=
    List.append_of_mem (Model.mem_threads.mpr ⟨coroutine, known, top⟩)
  have once := program.model.nodup_threads
  rw [split] at once
  obtain ⟨absent, -⟩ := List.nodup_cons.mp (List.nodup_middle.mp once)
  have threads : ∀ other ∈ program.model.threads,
      program.model.ownership.threads[other]? = some other := by
    intro other member
    obtain ⟨running, listed, above⟩ := Model.mem_threads.mp member
    simp [Model.ownership, listed, formed.threads other running listed above]
  have others : ∀ (list : List CoroutineId) state, id ∉ list → list ⊆ program.model.threads →
      Takes (σ := σ) (list.forM (step program fuel)) id state state := by
    intro list state absent listed
    refine (staysIn_law.forM fun other member => ?_).takes
    have confined := (callees_confined (σ := σ) separated fuel (maxDepth + 1)).coroutine other
      ⟨other, threads other (listed member), rfl⟩
    refine confined.staysIn ?_
    rintro ⟨thread, listed, same⟩
    cases same
    have own := threads id (Model.mem_threads.mpr ⟨coroutine, known, top⟩)
    exact absent (Option.some.inj (own.symm.trans listed) ▸ member)
  have turns : Takes (σ := σ) (program.model.threads.forM (step program fuel)) id state
      (nextState last back state) := by
    rw [split, List.forM_eq_forM, List.forM_append, List.forM_cons]
    refine (others front state (fun here => absent (by simp [here])) (by simp [split])).bind
      fun _ => (step_rotates known top formed found rotates small fuel).bind fun _ => ?_
    exact others behind _ (fun here => absent (by simp [here])) (by simp [split])
  have hooks : ∀ state place hook, program.model.hooks[place]? = some hook →
      Keeps (StaysIn id state) (fun _ => True) (Exec.hook (σ := σ) program fuel place)
        fun _ => True := fun _ place _ _ => hook_staysIn separated fuel place
  -- Behind the turns, the clock is served and the pass is counted.
  have served := ((Keeps.respected staysIn_law staysIn_lasting).dispatch (scheduled program fuel)
    (scheduled program fuel)
    (hooks_keep staysIn_law staysIn_lasting (hooks (nextState last back state)))).takes
  have passed : Takes (σ := σ) (scheduled program fuel).pass id state (nextState last back state) :=
    (hooks_keep staysIn_law staysIn_lasting (hooks state) _).takes.bind fun _ => turns.bind fun _ =>
      served.bind fun _ => Takes.bind (fun machine _ _ here ran => by cases ran; exact here)
        fun _ => .pure
  exact passed.bind fun _ => .pure

end Threads

end Exec

namespace Machine

variable {σ : Type} [Host σ] {program : Program} {id : CoroutineId}

omit [Host σ] in
theorem finish_takes {run : Exec σ Unit} {before last : Nat} (takes : run.Takes id before last)
    {machine : Machine σ} (here : machine.states[id]? = some before)
    (ended : (obey.finish (run machine)).1 = none) :
    (obey.finish (run machine)).2.states[id]? = some last := by
  cases ran : run machine with
  | ok value left => exact takes machine value left here ran
  | error halt left =>
    rw [ran] at ended
    cases ended

/-- Behind commands that do not stop early, a thread is where its passes have taken it. -/
theorem after_rotates (formed : program.WellFormed) (separated : program.Separated)
    {coroutine : Coroutine} (known : program.model.coroutines[id]? = some coroutine)
    (top : coroutine.isThread = true)
    {code : StateMachine} (found : program.coroutines[id]? = some code) {last back : Nat}
    (rotates : code.Rotates last back) (small : back ≤ last) (operations : List (Nat × Command))
    {machine : Machine σ} {passes : Nat}
    (here : machine.states[id]? = some (stateBehind last back passes))
    (unbroken : machine.halts program operations = []) :
    (machine.after program operations).states[id]? = some (stateBehind last back
      (passes + operations.countP fun operation => operation.2 = .pass)) := by
  induction operations generalizing machine passes with
  | nil => exact here
  | cons operation rest ih =>
    obtain ⟨fuel, command⟩ := operation
    simp only [halts, List.append_eq_nil_iff, Option.toList_eq_nil_iff] at unbroken
    have small := stateBehind_le small passes
    cases command with
    | boot =>
      have next := finish_takes (Exec.boot_takes separated fuel) here unbroken.1
      simpa [after, obey] using ih next unbroken.2
    | tick =>
      have next : machine.tick.states[id]? = _ := here
      simpa [after, obey] using ih next unbroken.2
    | pass =>
      have next : _ = some (stateBehind last back (passes + 1)) := finish_takes
        (Exec.pass_rotates known top formed found rotates small separated fuel) here unbroken.1
      simpa [after, obey, Nat.add_assoc, Nat.add_comm 1] using ih next unbroken.2

/--
Yields take turns.

A thread may consist of yields between statements that never branch. As long as no operation stops
early, its state counts the passes: from the last yield it comes back to its start or, if all of it
is a loop, to the first yield. So it visits all of its yields in the order of the text, whatever
hooks and other threads do.
-/
theorem yields_take_turns {source : Source} {warnings : List (Located Warning)}
    (linked : source.link = .ok (program, warnings)) {coroutine : Coroutine}
    (known : program.model.coroutines[id]? = some coroutine) (top : coroutine.isThread = true)
    {body : List Stmt} (straight : ∀ statement ∈ body, statement.isStraight = true)
    (yields : 0 < Stmt.pointCounts body) (host : σ) (operations : List (Nat × Command))
    (unbroken : (Machine.start program host).halts program operations = []) :
    let state? := ((Machine.start program host).after program operations).states[id]?
    let passes := operations.countP fun operation => operation.2 = .pass
    (coroutine.body = body → state? = some (passes % (Stmt.pointCounts body + 1))) ∧
    (coroutine.body = [.loop body] →
      state? = some (if passes = 0 then 0 else (passes - 1) % Stmt.pointCounts body + 1)) := by
  intro state? passes
  obtain ⟨formed, -⟩ := Source.link_program linked
  have separated := Source.link_separated linked
  obtain ⟨description, resolved, -, -, lowered, -⟩ := Source.link_eq_ok linked
  have lowers := Model.lower_lowersTo lowered
  have listed : resolved.model.coroutines[id]? = some coroutine := by
    rw [lowers.hoisted] at known
    exact known
  have found : program.coroutines[id]? = some (resolved.model.machineOf id coroutine) := by
    simp [lowers.coroutines, listed]
  have limited := lowers.limited coroutine (List.mem_of_getElem? listed)
  obtain ⟨plain, looped⟩ := resolved.model.machineOf_rotates id straight yields limited
  have begun : (Machine.start program host).states[id]? = some startState := by
    simp [Machine.start, (List.getElem?_eq_some_iff.mp found).1]
  have behind : ∀ back ≤ Stmt.pointCounts body,
      (resolved.model.machineOf id coroutine).Rotates (Stmt.pointCounts body) back →
      state? = some (stateBehind (Stmt.pointCounts body) back passes) := by
    intro back small rotates
    have first : _ = some (stateBehind (Stmt.pointCounts body) back 0) := begun
    simpa using after_rotates formed separated known top found rotates small operations first
      unbroken
  refine ⟨fun same => ?_, fun same => ?_⟩
  · rw [behind startState (Nat.zero_le _) (plain same)]
    exact congrArg some (stateBehind_add yields (Nat.zero_le 1) passes)
  · rw [behind (stateAt 0) yields (looped same)]
    cases passes with
    | zero => rfl
    | succ earlier => exact congrArg some (stateBehind_add yields (Nat.le_refl 1) earlier)

end Machine

/-- A thread that yields twice, and one that does so in a loop. -/
def Source.turning : Source :=
  .ofText "turning" "thread t{let u8 x=1;yield;x=2;yield;}thread l{loop{yield;yield;}}main{}"

/-- Some operations with four passes among them. -/
def turningOperations : List (Nat × Command) :=
  [(9, .boot), (9, .pass), (9, .pass), (9, .tick), (9, .pass), (9, .pass)]

/-- What is repeated, if all is a loop. -/
def Stmt.looped : List Stmt → List Stmt
  | [.loop body] => body
  | _ => []

/-- Only a loop repeats something. -/
theorem Stmt.eq_loop_looped {body : List Stmt} (some : 0 < pointCounts (looped body)) :
    body = [.loop (looped body)] := by
  unfold looped at some ⊢
  split at some
  · rfl
  · cases some

/-- In the fourth pass, one thread comes to its first yield again, and a loop to its second. -/
theorem Machine.turning_takes_turns :
    ∃ program warnings, Source.turning.link = .ok (program, warnings) ∧
      ((Machine.start program Bench.empty).after program turningOperations).states[0]? = some 1 ∧
      ((Machine.start program Bench.empty).after program turningOperations).states[1]? = some 2 := by
  obtain ⟨program, warnings, linked, shape, unbroken⟩ :
      ∃ program warnings, Source.turning.link = .ok (program, warnings) ∧
        program.model.coroutines.map (fun coroutine => (coroutine.isThread,
          coroutine.body.all Stmt.isStraight, Stmt.pointCounts coroutine.body,
          (Stmt.looped coroutine.body).all Stmt.isStraight,
          Stmt.pointCounts (Stmt.looped coroutine.body))) =
            [(true, true, 2, true, 0), (true, false, 2, true, 2)] ∧
        (Machine.start program Bench.empty).halts program turningOperations = [] :=
    Source.turning.links_of_decide (by decide +kernel)
  obtain ⟨plain, rest, all, one, others⟩ := List.map_eq_cons_iff.mp shape
  obtain ⟨looping, rfl, other⟩ := List.map_eq_singleton_iff.mp others
  simp only [Prod.mk.injEq] at one other
  obtain ⟨top, straight, two, -⟩ := one
  obtain ⟨top', -, -, straight', two'⟩ := other
  have first : program.model.coroutines[0]? = some plain := by simp [all]
  have second : program.model.coroutines[1]? = some looping := by simp [all]
  have turns := yields_take_turns linked first top (List.all_eq_true.mp straight) (by simp [two])
    Bench.empty _ unbroken
  have turns' := yields_take_turns linked second top' (List.all_eq_true.mp straight')
    (by simp [two']) Bench.empty _ unbroken
  refine ⟨program, warnings, linked, (turns.1 rfl).trans ?_,
    (turns'.2 (Stmt.eq_loop_looped (by simp [two']))).trans ?_⟩
  · rw [two]
    rfl
  · rw [two']
    rfl

end Coro
