import Coro.Proofs.Structured.Lowering

/-!
How a machine of state machines keeps what coroutines are doing.

Where a coroutine is becomes the number of its state. Its local variables become static variables,
which stand behind the declared ones, one coroutine after the other.
-/

namespace Coro

variable {known : LocalId} {place : Nat} {id : StaticId}

section Flattened

variable {α β : Type} {pieces : α → List β} {change : β → β} {list : List α}

theorem modify_append_right {first second : List β} :
    (first ++ second).modify (first.length + place) change =
      first ++ second.modify place change := by
  induction first with
  | nil => simp
  | cons head rest ih => simpa [Nat.add_right_comm] using ih

/-- A change in the first part of a list. -/
theorem modify_append_left {first second : List β} (small : place < first.length) :
    (first ++ second).modify place change = first.modify place change ++ second := by
  induction first generalizing place with
  | nil => simp at small
  | cons head rest ih =>
    cases place with
    | zero => simp
    | succ place => simpa using ih (by simpa using small)

/-- A piece with a change makes the same change of the whole list. -/
theorem flatMap_set {value changed : α} (found : list[place]? = some value) {inside : Nat}
    (small : inside < (pieces value).length)
    (same : pieces changed = (pieces value).modify inside change) :
    (list.set place changed).flatMap pieces =
      (list.flatMap pieces).modify (lengthBefore pieces list place + inside) change := by
  induction list generalizing place with
  | nil => simp at found
  | cons head rest ih =>
    cases place with
    | zero =>
      obtain rfl : head = value := by simpa using found
      simp [lengthBefore, same, modify_append_left small]
    | succ place =>
      have later := ih (by simpa using found)
      have before : lengthBefore pieces (head :: rest) (place + 1) + inside =
          (pieces head).length + (lengthBefore pieces rest place + inside) := by
        simp [lengthBefore, Nat.add_assoc]
      simp [before, modify_append_right, later]

theorem set_same {value : α} (found : list[place]? = some value) : list.set place value = list := by
  obtain ⟨small, rfl⟩ := List.getElem?_eq_some_iff.mp found
  exact List.set_getElem_self small

theorem setIfInBounds_same {array : Array α} {value : α} (found : array[place]? = some value) :
    array.setIfInBounds place value = array := by
  apply Array.ext'
  rw [Array.toList_setIfInBounds]
  exact set_same (by simpa using found)

/-- A piece that stays the same changes nothing. -/
theorem flatMap_set_same {value changed : α} (found : list[place]? = some value)
    (same : pieces changed = pieces value) :
    (list.set place changed).flatMap pieces = list.flatMap pieces := by
  have kept : (list.map pieces).set place (pieces value) = list.map pieces :=
    set_same (by simp [found])
  rw [List.flatMap_def, List.flatMap_def, List.map_set, same, kept]

end Flattened

/-- The state that tells where a coroutine is. -/
def Whereabouts.state (width : StateWidth) : Whereabouts → Nat
  | idle => startState
  | suspended point => stateAt point
  | ended => width.endState

/-- The values of the local variables of a coroutine, variable by variable. -/
def Activity.cells (activity : Activity) : List (Array Int64) :=
  activity.memory.toList

/-- The local variables of all coroutines, one coroutine after the other. -/
def hoistedMemory (states : Array Activity) : Memory :=
  (states.toList.flatMap Activity.cells).toArray

/-- The machine with another activity of a coroutine. -/
def Machine.withActivity {σ : Type} (machine : Machine σ Activity) (id : CoroutineId)
    (activity : Activity) : Machine σ Activity :=
  { machine with states := machine.states.setIfInBounds id activity }

namespace Model

variable {σ : Type} (model : Model)

/-- The size of the state of a coroutine. -/
def width (id : CoroutineId) : StateWidth :=
  .forPoints ((model.coroutines[id]?.map fun coroutine => Stmt.pointCounts coroutine.body).getD 0)

/-- The machine with numbers for states and static variables for local ones. -/
def encode (machine : Machine σ Activity) : Machine σ where
  statics := machine.statics ++ hoistedMemory machine.states
  states := machine.states.mapIdx fun id activity => activity.whereabouts.state (model.width id)
  clock := machine.clock
  passes := machine.passes
  depth := machine.depth
  host := machine.host

/-- A machine has the variables and the coroutines of a model. -/
structure Fits (machine : Machine σ Activity) : Prop where
  statics : machine.statics.size = model.statics.length
  memories : (machine.states.toList.map fun activity => activity.memory.size) =
    model.coroutines.map fun coroutine => coroutine.locals.length
  /-- A coroutine is suspended at points of its own only. -/
  points : ∀ (id : CoroutineId) coroutine activity point, model.coroutines[id]? = some coroutine →
    machine.states[id]? = some activity → activity.whereabouts = .suspended point →
    point < Stmt.pointCounts coroutine.body

variable {model} {machine : Machine σ Activity} {id : CoroutineId} {coroutine : Coroutine}

namespace Fits

/-- Every coroutine of the model does something. -/
theorem activity (fits : model.Fits machine) (found : model.coroutines[id]? = some coroutine) :
    ∃ activity, machine.states[id]? = some activity ∧
      activity.memory.size = coroutine.locals.length := by
  have sizes := congrArg (·[id]?) fits.memories
  simp only [List.getElem?_map, Array.getElem?_toList, found, Option.map_some,
    Option.map_eq_some_iff] at sizes
  exact sizes

/-- The local variables of a coroutine start where they are kept. -/
theorem firstHoisted (fits : model.Fits machine) (id : CoroutineId) :
    model.firstHoisted id = machine.statics.size +
      lengthBefore Activity.cells machine.states.toList id := by
  have sizes := congrArg (fun sizes => (sizes.take id).sum) fits.memories
  simp only [← List.map_take] at sizes
  simp only [Model.firstHoisted, lengthBefore, Activity.cells, Array.length_toList, fits.statics,
    sizes]

end Fits

theorem encode_statics (fits : model.Fits machine) (known : id < model.statics.length) :
    (model.encode machine).statics[id]? = machine.statics[id]? :=
  Array.getElem?_append_left (fits.statics ▸ known)

theorem encode_states (machine : Machine σ Activity) (id : CoroutineId) :
    (model.encode machine).states[id]? =
      machine.states[id]?.map fun activity => activity.whereabouts.state (model.width id) :=
  Array.getElem?_mapIdx

/-- Writing to a declared variable is writing to the variable that keeps it. -/
theorem encode_write (fits : model.Fits machine) (known : id < model.statics.length) (index : Nat)
    (value : Int64) :
    model.encode { machine with statics := machine.statics.write id index value } =
      { model.encode machine with
        statics := (model.encode machine).statics.write id index value } := by
  have inside : id < machine.statics.toList.length := by simpa [fits.statics] using known
  have same : machine.statics.write id index value ++ hoistedMemory machine.states =
      (machine.statics ++ hoistedMemory machine.states : Memory).write id index value := by
    apply Array.ext'
    simp only [Memory.write, Array.toList_append, Array.toList_modify, modify_append_left inside]
  simp only [encode, same]

section Hoisted

variable (fits : model.Fits machine) (found : model.coroutines[id]? = some coroutine)
  {activity : Activity} (active : machine.states[id]? = some activity)
  (small : known < coroutine.locals.length)

include fits found active small

/-- A local variable is among the cells of its coroutine. -/
theorem Fits.cell : machine.states.toList[id]? = some activity ∧ known < activity.cells.length := by
  obtain ⟨_, same, size⟩ := fits.activity found
  obtain rfl := Option.some.inj (active.symm.trans same)
  exact ⟨by simpa using active, by simpa [Activity.cells, size] using small⟩

/-- A local variable of a coroutine keeps its values. -/
theorem encode_hoisted :
    (model.encode machine).statics[model.firstHoisted id + known]? = activity.memory[known]? := by
  obtain ⟨listed, inside⟩ := fits.cell found active small
  have placed := getElem?_flatMap listed inside
  rw [encode, fits.firstHoisted, Nat.add_assoc, Array.getElem?_append_right (Nat.le_add_right ..),
    Nat.add_sub_cancel_left, hoistedMemory, List.getElem?_toArray, placed, Activity.cells,
    Array.getElem?_toList]

/-- Writing to a local variable is writing to the variable that keeps it. -/
theorem encode_write_hoisted (index : Nat) (value : Int64) :
    model.encode (machine.withActivity id
        { activity with memory := activity.memory.write known index value }) =
      { model.encode machine with
        statics := (model.encode machine).statics.write (model.firstHoisted id + known) index
          value } := by
  obtain ⟨listed, inside⟩ := fits.cell found active small
  have cells : ({ activity with memory := activity.memory.write known index value }).cells =
      activity.cells.modify known fun cells => cells.setIfInBounds index value := by
    simp [Activity.cells, Memory.write]
  have written : machine.statics ++ hoistedMemory (machine.states.setIfInBounds id
        { activity with memory := activity.memory.write known index value }) =
      (machine.statics ++ hoistedMemory machine.states : Memory).write
        (model.firstHoisted id + known) index value := by
    apply Array.ext'
    simp only [hoistedMemory, Array.toList_append, Array.toList_setIfInBounds]
    rw [flatMap_set listed inside cells]
    simp only [Memory.write, Array.toList_append, Array.toList_modify, fits.firstHoisted,
      Nat.add_assoc, ← Array.length_toList, modify_append_right]
  -- The coroutine itself stays where it is.
  have still : (machine.states.mapIdx
        fun id activity => activity.whereabouts.state (model.width id)).setIfInBounds id
          (activity.whereabouts.state (model.width id)) = _ :=
    setIfInBounds_same (by simp [active])
  simp only [encode, Machine.withActivity, written, Array.mapIdx_setIfInBounds, still]

end Hoisted

/-- Moving a coroutine changes its state. -/
theorem encode_move {activity : Activity} (active : machine.states[id]? = some activity)
    (whereabouts : Whereabouts) :
    model.encode (machine.withActivity id { activity with whereabouts }) =
      { model.encode machine with
        states := (model.encode machine).states.setIfInBounds id
          (whereabouts.state (model.width id)) } := by
  have listed : machine.states.toList[id]? = some activity := by simpa using active
  have kept : hoistedMemory (machine.states.setIfInBounds id { activity with whereabouts }) =
      hoistedMemory machine.states := by
    have same : ({ activity with whereabouts }).cells = activity.cells := rfl
    simp only [hoistedMemory, Array.toList_setIfInBounds, flatMap_set_same listed same]
  simp only [encode, Machine.withActivity, kept, Array.mapIdx_setIfInBounds]

namespace Fits

theorem write (fits : model.Fits machine) (id index : Nat) (value : Int64) :
    model.Fits { machine with statics := machine.statics.write id index value } where
  statics := by simpa [Memory.write] using fits.statics
  memories := fits.memories
  points := fits.points

/-- A coroutine may do anything that its variables and points allow. -/
theorem withActivity (fits : model.Fits machine)
    (found : model.coroutines[id]? = some coroutine) {activity : Activity}
    (size : activity.memory.size = coroutine.locals.length)
    (points : ∀ point, activity.whereabouts = .suspended point →
      point < Stmt.pointCounts coroutine.body) :
    model.Fits (machine.withActivity id activity) where
  statics := fits.statics
  memories := by
    have same : (model.coroutines.map fun coroutine => coroutine.locals.length)[id]? =
        some activity.memory.size := by
      simp [found, size]
    simp only [Machine.withActivity, Array.toList_setIfInBounds, List.map_set, fits.memories,
      set_same same]
  points := by
    intro other known doing point listed active suspended
    rw [Machine.withActivity, Array.getElem?_setIfInBounds] at active
    split at active
    · rename_i here
      subst here
      obtain rfl := Option.some.inj (listed.symm.trans found)
      split at active
      · obtain rfl := Option.some.inj active
        exact points point suspended
      · cases active
    · exact fits.points other known doing point listed active suspended

end Fits

section States

variable {whereabouts : Whereabouts} (found : model.coroutines[id]? = some coroutine)
  (limited : Stmt.pointCounts coroutine.body ≤ maxPoints)
  (points : ∀ point, whereabouts = .suspended point → point < Stmt.pointCounts coroutine.body)

include found

theorem width_eq : (model.machineOf id coroutine).width = model.width id := by
  simp [StateMachine.width, width, found]

include limited points

/-- The point of a suspended coroutine is told by its state. -/
theorem pointOf?_state :
    pointOf? (whereabouts.state (model.width id)) (model.width id) = whereabouts.point? := by
  cases whereabouts with
  | idle | ended => simp [Whereabouts.state, Whereabouts.point?, pointOf?]
  | suspended point =>
    have told := pointOf?_stateAt (points point rfl) limited
    simpa [Whereabouts.state, Whereabouts.point?, width, found] using told

theorem pointAt?_state :
    (model.machineOf id coroutine).pointAt? (whereabouts.state (model.width id)) =
      whereabouts.point? := by
  rw [StateMachine.pointAt?, width_eq found, length_points_machineOf,
    pointOf?_state found limited points]
  cases whereabouts with
  | idle | ended => rfl
  | suspended point => simp [Whereabouts.point?, points point rfl]

/-- The end of a coroutine is told by its state. -/
theorem state_eq_endState :
    whereabouts.state (model.width id) = (model.width id).endState ↔ whereabouts = .ended := by
  cases whereabouts with
  | idle => cases model.width id <;> simp [Whereabouts.state, startState, StateWidth.endState]
  | ended => simp [Whereabouts.state]
  | suspended point =>
    have told := pointOf?_stateAt (points point rfl) limited
    have same : model.width id = .forPoints (Stmt.pointCounts coroutine.body) := by
      simp [width, found]
    simp only [Whereabouts.state, reduceCtorEq, iff_false, same]
    intro ended
    simp [pointOf?, ended] at told

end States

theorem frame_locals {place : LocalId} {known : Local}
    (listed : coroutine.locals[place]? = some known) (memory : Memory) :
    (coroutine.frame memory).locals[place]? =
      some { known with name := (coroutine.path.member known.name).dotted } := by
  simp [Coroutine.frame, listed]

theorem argumentCells_nil (locals : List Local) :
    argumentCells locals [] = locals.map fun known => Array.replicate known.size 0 := by
  induction locals with
  | nil => rfl
  | cons known rest ih => simp [argumentCells, ih]

/-- Before the first step, the variables of coroutines hold what their static variables do. -/
theorem encode_start {program : Program} (lowered : model.LowersTo program) (host : σ) :
    model.encode (model.start host) = Machine.start program host := by
  -- A hoisted variable starts with zeros, as the local variable does.
  have zeros : ∀ pair : Coroutine × Nat,
      ((pair.1.hoistedLocals pair.2).map fun storage =>
        Array.replicate storage.size (storage.initial.getD 0)) =
      pair.1.locals.map fun known => Array.replicate known.size 0 := by
    intro pair
    simp [Coroutine.hoistedLocals, StaticVariable.size, Local.size]
  have statics : initialMemory model.statics ++ hoistedMemory (model.start host).states =
      initialMemory program.model.statics := by
    apply Array.ext'
    have pairs := congrArg
      (List.flatMap fun coroutine : Coroutine =>
        coroutine.locals.map fun known => (Array.replicate known.size 0 : Array Int64))
      (List.zipIdx_map_fst 0 model.coroutines)
    rw [List.flatMap_map] at pairs
    rw [lowered.hoisted]
    simp only [hoistedMemory, start, initialMemory, hoist, Array.toList_append, List.map_append,
      List.map_flatMap, zeros, pairs]
    simp [List.flatMap_map, Activity.cells, Frame.enter, argumentCells_nil]
  have states : (model.start host).states.mapIdx
      (fun id activity => activity.whereabouts.state (model.width id)) =
      Array.replicate program.coroutines.length startState := by
    rw [lowered.length_coroutines]
    apply Array.ext_getElem?
    intro id
    rw [Array.getElem?_mapIdx, Array.getElem?_replicate]
    by_cases known : id < model.coroutines.length
    · simp [start, known, Whereabouts.state]
    · simp [start, known]
  rw [encode, Machine.start, ← statics, ← states]
  rfl

/-- The machine before the first step has the variables and coroutines of the model. -/
theorem start_fits (model : Model) (host : σ) : model.Fits (model.start host) where
  statics := by simp [start, initialMemory]
  memories := by
    simp [start, Frame.enter, argumentCells_nil]
  points := by
    intro id coroutine activity point found active suspended
    have idle : activity.whereabouts = .idle := by
      obtain ⟨known, -, rfl⟩ : ∃ known, model.coroutines[id]? = some known ∧
          (⟨.idle, (Frame.enter known.locals []).memory⟩ : Activity) = activity := by
        simpa [start] using active
      rfl
    rw [idle] at suspended
    cases suspended

end Model

end Coro
