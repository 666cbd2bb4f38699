import Coro.Proofs.Program.Layout
import Coro.Proofs.Resolution.Body

/-!
The parts of a lowered program, each in terms of the entity that it was made from.

The local variables of a coroutine are kept behind the declared static variables and behind those of
all coroutines before it.
-/

namespace Coro

section Flattened

variable {α β : Type} {pieces : α → List β}

/-- The number of elements that come from those before a place. -/
def lengthBefore (pieces : α → List β) (list : List α) (place : Nat) : Nat :=
  ((list.take place).map fun value => (pieces value).length).sum

/-- An element of a list in pieces is one of the piece that it belongs to. -/
theorem getElem?_flatMap {list : List α} {place : Nat} {value : α}
    (found : list[place]? = some value) {inside : Nat} (small : inside < (pieces value).length) :
    (list.flatMap pieces)[lengthBefore pieces list place + inside]? = (pieces value)[inside]? := by
  induction list generalizing place with
  | nil => simp at found
  | cons head rest ih =>
    cases place with
    | zero =>
      obtain rfl : head = value := by simpa using found
      simp [lengthBefore, List.getElem?_append_left small]
    | succ place =>
      have later := ih (by simpa using found)
      simp only [lengthBefore] at later
      rw [List.flatMap_cons, List.getElem?_append_right (by simp [lengthBefore]; omega), ← later]
      congr 1
      simp only [lengthBefore, List.take_succ_cons, List.map_cons, List.sum_cons]
      omega

/-- Every element of a list in pieces belongs to one of them. -/
theorem getElem?_flatMap_cases {list : List α} {index : Nat} {entry : β}
    (found : (list.flatMap pieces)[index]? = some entry) :
    ∃ place value inside, list[place]? = some value ∧ (pieces value)[inside]? = some entry ∧
      index = lengthBefore pieces list place + inside := by
  induction list generalizing index with
  | nil => simp at found
  | cons head rest ih =>
    rw [List.flatMap_cons] at found
    by_cases small : index < (pieces head).length
    · rw [List.getElem?_append_left small] at found
      exact ⟨0, head, index, rfl, found, by simp [lengthBefore]⟩
    · rw [List.getElem?_append_right (Nat.le_of_not_lt small)] at found
      obtain ⟨place, value, inside, listed, inner, same⟩ := ih found
      refine ⟨place + 1, value, inside, by simpa using listed, inner, ?_⟩
      simp only [lengthBefore, List.take_succ_cons, List.map_cons, List.sum_cons] at same ⊢
      omega

end Flattened

theorem StateMachine.resumeCode_suffix (machine : StateMachine) (state : Nat) :
    machine.resumeCode state <:+ machine.code := by
  simp only [resumeCode]
  split
  · exact List.suffix_refl _
  · split
    · exact List.suffix_refl _
    · exact List.dropWhile_suffix _

/-- The point at which a coroutine in a given state goes on, if it has such a point. -/
def StateMachine.pointAt? (machine : StateMachine) (state : Nat) : Option Point :=
  (pointOf? state machine.width).filter (· < machine.points.length)

theorem StateMachine.lt_of_pointAt? {machine : StateMachine} {state : Nat} {point : Point}
    (found : machine.pointAt? state = some point) : point < machine.points.length := by
  simpa using (Option.filter_eq_some_iff.mp found).2

namespace Model

/-- The first of the static variables that keep the local variables of a coroutine. -/
def firstHoisted (model : Model) (id : CoroutineId) : StaticId :=
  model.statics.length +
    ((model.coroutines.take id).map fun coroutine => coroutine.locals.length).sum

/-- Where the local variables of a coroutine are kept. -/
def hoistOwn (model : Model) (id : CoroutineId) : Var → Var :=
  hoistVar (model.firstHoisted id)
    ((model.coroutines[id]?.map fun coroutine => coroutine.locals.length).getD 0)

/-- What the code of a coroutine depends on. -/
def coroutineContext (model : Model) (id : CoroutineId) : BodyContext :=
  ⟨model.hoistOwn id, model.parameters, true⟩

/-- What the code of a function, a hook or the entry point depends on. -/
def routineContext (model : Model) : BodyContext :=
  ⟨id, model.parameters, false⟩

/-- The state machine of a coroutine, however many points it has. -/
def machineOf (model : Model) (id : CoroutineId) (coroutine : Coroutine) : StateMachine where
  points := Stmt.pointsAll (model.hoistOwn id) coroutine.body
  code := (model.coroutineContext id).codes none 0 0 coroutine.body ++ [.finish]
  hoisted := List.range' (model.firstHoisted id) coroutine.locals.length

/-- A program has the code of all bodies of a model. -/
structure LowersTo (model : Model) (program : Program) : Prop where
  hoisted : program.model = model.hoist
  coroutines : ∀ id : CoroutineId, program.coroutines[id]? =
    model.coroutines[id]?.map (model.machineOf id)
  functions : program.functions = model.functions.map fun function =>
    model.routineContext.codes none 0 0 function.body
  hooks : program.hooks = model.hooks.map fun hook =>
    model.routineContext.codes none 0 0 hook.body
  entry : program.entry = model.routineContext.codes none 0 0 model.entry.body
  /-- No coroutine has more points than a state can tell apart. -/
  limited : ∀ coroutine ∈ model.coroutines, Stmt.pointCounts coroutine.body ≤ maxPoints

section Hoisted

variable {model : Model} {id : CoroutineId} {coroutine : Coroutine}

theorem hoistOwn_eq (found : model.coroutines[id]? = some coroutine) :
    model.hoistOwn id = hoistVar (model.firstHoisted id) coroutine.locals.length := by
  rw [hoistOwn, found, Option.map_some, Option.getD_some]

/-- A local variable is kept by a static one: a coroutine that has it does not have none. -/
theorem hoistOwn_local (found : model.coroutines[id]? = some coroutine) {place : LocalId}
    (small : place < coroutine.locals.length) :
    model.hoistOwn id (.localVar place) = .static (model.firstHoisted id + place) := by
  rw [hoistOwn_eq found]
  exact if_neg (Nat.ne_zero_of_lt small)

theorem hoist_statics {id : StaticId} (known : id < model.statics.length) :
    model.hoist.statics[id]? = model.statics[id]? :=
  List.getElem?_append_left known

/-- The variables that are kept for coroutines come in pieces, behind the declared ones. -/
theorem firstHoisted_eq (id : CoroutineId) : model.firstHoisted id = model.statics.length +
    lengthBefore (fun numbered => numbered.1.hoistedLocals numbered.2) model.coroutines.zipIdx
      id := by
  rw [firstHoisted, lengthBefore,
    ← congrArg (List.take id) (List.zipIdx_map_fst 0 model.coroutines), ← List.map_take,
    List.map_map]
  simp [Coroutine.hoistedLocals, Function.comp_def]

/-- The static variable for a local variable of a coroutine. -/
theorem hoist_local (found : model.coroutines[id]? = some coroutine) {place : LocalId}
    {known : Local} (listed : coroutine.locals[place]? = some known) :
    model.hoist.statics[model.firstHoisted id + place]? =
      some ⟨coroutine.path.member known.name, .coroutine id, known.type, known.length, false,
        none, known.hint, known.location⟩ := by
  let pieces : Coroutine × Nat → List StaticVariable :=
    fun numbered => numbered.1.hoistedLocals numbered.2
  have numbered : model.coroutines.zipIdx[id]? = some (coroutine, id) := by simp [found]
  obtain ⟨small, -⟩ := List.getElem?_eq_some_iff.mp listed
  have inside : place < (pieces (coroutine, id)).length := by
    simpa [pieces, Coroutine.hoistedLocals] using small
  have placed := getElem?_flatMap numbered inside
  rw [hoist, firstHoisted_eq, Nat.add_assoc, List.getElem?_append_right (Nat.le_add_right ..),
    Nat.add_sub_cancel_left]
  simpa [pieces, Coroutine.hoistedLocals, listed] using placed

/-- A static variable is declared, or keeps a local variable of a coroutine. -/
theorem hoist_cases {id : StaticId} {storage : StaticVariable}
    (found : model.hoist.statics[id]? = some storage) :
    model.statics[id]? = some storage ∨ ∃ (owner : CoroutineId) (coroutine : Coroutine)
      (place : LocalId) (known : Local), model.coroutines[owner]? = some coroutine ∧
        coroutine.locals[place]? = some known ∧ id = model.firstHoisted owner + place ∧
        storage.path = coroutine.path.member known.name := by
  rcases Nat.lt_or_ge id model.statics.length with declared | behind
  · exact .inl (hoist_statics declared ▸ found)
  · rw [hoist, List.getElem?_append_right behind] at found
    obtain ⟨owner, ⟨coroutine, number⟩, place, listed, inner, same⟩ :=
      getElem?_flatMap_cases found
    obtain ⟨numbered, rfl⟩ : model.coroutines[owner]? = some coroutine ∧ owner = number := by
      simpa using listed
    obtain ⟨known, there, rfl⟩ : ∃ known, coroutine.locals[place]? = some known ∧ _ = storage := by
      simpa [Coroutine.hoistedLocals] using inner
    refine .inr ⟨owner, coroutine, place, known, numbered, there, ?_, rfl⟩
    rw [firstHoisted_eq, Nat.add_assoc, ← same, Nat.add_sub_cancel' behind]

end Hoisted

/-- Parameters of subroutines are declared variables. -/
theorem WellFormed.parameters_static {model : Model} (formed : model.WellFormed)
    (locals : List (Option Nat)) (callee : CoroutineId) :
    ∀ parameter ∈ model.parameters callee,
      model.shapes.Allows locals false (.static parameter) := by
  intro parameter member
  cases found : model.coroutines[callee]? with
  | none => simp [Model.parameters, found] at member
  | some coroutine =>
    have listed : parameter ∈ coroutine.parameters := by
      simpa [Model.parameters, found] using member
    exact ⟨none, (formed.coroutines callee coroutine found).parameters parameter listed, rfl⟩

theorem LowersTo.length_coroutines {model : Model} {program : Program}
    (lowered : model.LowersTo program) : program.coroutines.length = model.coroutines.length := by
  have same : program.coroutines = model.coroutines.mapIdx model.machineOf :=
    List.ext_getElem? fun id => by simp [lowered.coroutines]
  simp [same]

@[simp] theorem length_points_machineOf (model : Model) (id : CoroutineId) (coroutine : Coroutine) :
    (model.machineOf id coroutine).points.length = Stmt.pointCounts coroutine.body :=
  Stmt.length_pointsAll _ _

theorem points_machineOf (model : Model) (kept : Bool) (id : CoroutineId) (coroutine : Coroutine) :
    Code.points kept (model.machineOf id coroutine).code =
      List.range' 0 (Stmt.pointCounts coroutine.body) := by
  simp [machineOf, BodyContext.points_codes, Instr.point?]

/-- A coroutine goes on at its point, and starts again where it has none. -/
theorem resumeCode_machineOf (model : Model) (id : CoroutineId) (coroutine : Coroutine)
    (state : Nat) :
    let machine := model.machineOf id coroutine
    machine.resumeCode state =
      ((machine.pointAt? state).map machine.code.atPoint).getD machine.code := by
  intro machine
  rw [StateMachine.resumeCode, StateMachine.pointAt?]
  cases pointOf? state machine.width with
  | none => rfl
  | some point =>
    have present : point ∈ Code.points false machine.code ↔ point < machine.points.length := by
      rw [points_machineOf, length_points_machineOf, List.mem_range'_1]
      simp
    by_cases known : point < machine.points.length
    · -- The point goes on somewhere, so its code is not empty.
      have found : machine.code.atPoint point ≠ [] :=
        mt Code.atPoint_eq_nil.mp (not_not_intro (present.mpr known))
      simp only [Option.filter, known, decide_true, ↓reduceIte, Option.map_some, Option.getD_some]
      split
      · rename_i missing
        exact absurd missing found
      · rfl
    · have missing : machine.code.atPoint point = [] :=
        Code.atPoint_eq_nil.mpr (mt present.mp known)
      simp only [Code.atPoint] at missing
      simp [Option.filter, known, missing]

variable {model : Model} {program : Program}

/-- A coroutine has a state machine if it has not too many points. -/
theorem stateMachine_eq_ok {first : StaticId} {coroutine : Coroutine} {machine : StateMachine}
    (done : model.stateMachine first coroutine = .ok machine) :
    Stmt.pointCounts coroutine.body ≤ maxPoints ∧
      machine = ⟨Stmt.pointsAll (hoistVar first coroutine.locals.length) coroutine.body,
        BodyContext.codes ⟨hoistVar first coroutine.locals.length, model.parameters, true⟩ none 0 0
          coroutine.body ++ [.finish], List.range' first coroutine.locals.length⟩ := by
  simp only [stateMachine] at done
  split at done
  · exact absurd done throw_ne_ok
  · rename_i within
    rw [List.getElem?_eq_none_iff, Stmt.length_pointsAll] at within
    exact ⟨within, (pure_eq_ok.mp done).symm⟩

/-- State machines stand at the places of their coroutines. -/
theorem stateMachines_eq_ok {coroutines : List Coroutine} {first : StaticId}
    {machines : List StateMachine} (done : model.stateMachines first coroutines = .ok machines) :
    machines.length = coroutines.length ∧
      ∀ (id : Nat) (coroutine : Coroutine), coroutines[id]? = some coroutine →
        ∃ machine, machines[id]? = some machine ∧
          model.stateMachine (first +
            ((coroutines.take id).map fun coroutine => coroutine.locals.length).sum)
            coroutine = .ok machine := by
  induction coroutines generalizing first machines with
  | nil =>
    cases pure_eq_ok.mp done
    simp
  | cons head rest ih =>
    simp only [stateMachines, bind_eq_ok, pure_eq_ok] at done
    obtain ⟨machine, one, others, more, rfl⟩ := done
    obtain ⟨length, each⟩ := ih more
    refine ⟨by simp [length], fun id coroutine found => ?_⟩
    cases id with
    | zero =>
      obtain rfl : head = coroutine := by simpa using found
      exact ⟨machine, rfl, by simpa using one⟩
    | succ id =>
      obtain ⟨later, place, made⟩ := each id coroutine (by simpa using found)
      exact ⟨later, by simpa using place, by simpa [Nat.add_assoc] using made⟩

/-- Lowering makes the code of all bodies. -/
theorem lower_lowersTo (lowered : model.lower = .ok program) : model.LowersTo program := by
  simp only [lower, bind_eq_ok, pure_eq_ok] at lowered
  obtain ⟨machines, made, rfl⟩ := lowered
  obtain ⟨length, each⟩ := stateMachines_eq_ok made
  refine ⟨rfl, fun id => ?_, rfl, rfl, rfl, fun coroutine member => ?_⟩
  · cases found : model.coroutines[id]? with
    | none =>
      rw [List.getElem?_eq_none_iff] at found
      exact List.getElem?_eq_none_iff.mpr (length ▸ found)
    | some coroutine =>
      obtain ⟨machine, place, one⟩ := each id coroutine found
      obtain ⟨-, rfl⟩ := stateMachine_eq_ok one
      rw [Option.map_some, machineOf, coroutineContext, hoistOwn_eq found]
      exact place
  · obtain ⟨id, found⟩ := List.getElem?_of_mem member
    obtain ⟨machine, -, one⟩ := each id coroutine found
    exact (stateMachine_eq_ok one).1

end Model

end Coro
