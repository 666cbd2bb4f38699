import Coro.Proofs.Machine.Law
import Coro.Proofs.Structured.Agreement

/-!
Local variables that outlive suspensions can be kept as static ones.

A body refers to its own variables only, so that what one coroutine does to its local variables
changes nothing else.
-/

namespace Coro

namespace Exec.Agrees

variable {σ α β γ δ : Type} {model : Model} {allowed : Array Activity → Prop}
  {same : γ → δ → Prop}

/-- Runs in sequence, the first of which have the same value. -/
theorem andThen {first : ExecWith σ Activity α} {first' : Exec σ α}
    {next : α → ExecWith σ Activity γ} {next' : α → Exec σ δ}
    (early : Agrees model allowed Eq first first')
    (late : ∀ value, Agrees model allowed same (next value) (next' value)) :
    Agrees model allowed same (first >>= next) (first' >>= next') := by
  refine early.bind ?_
  rintro value _ rfl
  exact late value

theorem require_same (found : Option α) :
    Agrees (σ := σ) model allowed Eq (Exec.require found) (Exec.require found) := by
  cases found with
  | none => exact .throw _
  | some value => exact .pure rfl

theorem compute (op : BinaryOp) (left right : Int64) :
    Agrees (σ := σ) model allowed Eq (Exec.compute op left right) (Exec.compute op left right) := by
  simp only [Exec.compute]
  split
  · exact .pure rfl
  · exact .throw _

theorem checkIndex (name : String) (size : Nat) (index : Int64) :
    Agrees (σ := σ) model allowed Eq (Exec.checkIndex name size index)
      (Exec.checkIndex name size index) := by
  simp only [Exec.checkIndex]
  split
  · exact .pure rfl
  · exact .throw _

/-- A declared variable has the same values. -/
theorem statics {id : StaticId} (known : id < model.statics.length)
    {next : Array Int64 → ExecWith σ Activity γ} {next' : Array Int64 → Exec σ δ}
    (late : ∀ cells, Agrees model allowed same (next cells) (next' cells)) :
    Agrees model allowed same (do next (← Exec.require (← get).statics[id]?))
      (do next' (← Exec.require (← get).statics[id]?)) := by
  intro machine fits held
  change OutcomeAgrees model allowed same ((Exec.require machine.statics[id]? >>= next) machine)
    ((Exec.require (model.encode machine).statics[id]? >>= next') (model.encode machine))
  rw [Model.encode_statics fits known]
  exact (require_same _).andThen late machine fits held

/-- A declared variable is changed in the same way. -/
theorem write {id : StaticId} (known : id < model.statics.length) (index : Nat) (value : Int64) :
    Agrees (σ := σ) model allowed Eq
      (modify fun machine => { machine with statics := machine.statics.write id index value })
      (modify fun machine => { machine with statics := machine.statics.write id index value }) :=
  fun _ fits held =>
    .done (Model.encode_write fits known index value) rfl (fits.write id index value) held

theorem withHost (ask : σ → α × σ) :
    Agrees model allowed Eq
      (modifyGet fun machine => ((ask machine.host).1, { machine with host := (ask machine.host).2 }))
      (modifyGet fun machine => ((ask machine.host).1, { machine with host := (ask machine.host).2 })) :=
  fun _ fits held => .ok rfl ⟨fits.statics, fits.memories, fits.points⟩ held

variable [Host σ]

theorem readExternal (external : External) :
    Agrees (σ := σ) model allowed Eq (Exec.readExternal external) (Exec.readExternal external) :=
  (withHost (Host.read external.name)).andThen fun _ => .pure rfl

theorem writeExternal (external : External) (value : Int64) :
    Agrees (σ := σ) model allowed Eq (Exec.writeExternal external value)
      (Exec.writeExternal external value) :=
  fun _ fits held => .ok rfl ⟨fits.statics, fits.memories, fits.points⟩ held

theorem callExternal (external : External) (args : List Int64) :
    Agrees (σ := σ) model allowed Eq (Exec.callExternal external args)
      (Exec.callExternal external args) :=
  withHost (Host.call external.name args)

end Exec.Agrees

open Exec

/-- What can be started does the same; functions change nothing that coroutines do. -/
structure Callees.Agrees {σ : Type} (model : Model) (callees : Callees σ Activity)
    (encoded : Callees σ) : Prop where
  function : ∀ states id args,
    Exec.Agrees model (· = states) Eq (callees.function id args) (encoded.function id args)
  coroutine : ∀ id,
    Exec.Agrees model (fun _ => True) Eq (callees.coroutine id) (encoded.coroutine id)

/-- The variables of a body are kept by others, and slots of the ones by slots of the others. -/
structure Represents (σ : Type) [Host σ] (model : Model) (allowed : Array Activity → Prop)
    (setting : BodySetting) (rename : Var → Var) (frame frame' : Frame)
    (slots : Slot → Slot → Prop) : Prop where
  locate : ∀ var indexed index, setting.shapes.Allows setting.locals indexed var →
    Agrees (σ := σ) model allowed slots (Exec.locate model frame var index)
      (Exec.locate model.hoist frame' (rename var) index)
  load : ∀ slot slot', slots slot slot' →
    Agrees (σ := σ) model allowed Eq (Exec.load model frame slot)
      (Exec.load model.hoist frame' slot')

namespace Represents

variable {σ : Type} [Host σ] {model : Model} {states : Array Activity} {setting : BodySetting}
  {rename : Var → Var} {frame frame' : Frame} {slots : Slot → Slot → Prop}
  {callees : Callees σ Activity} {encoded : Callees σ}

/-- A call with the same arguments. -/
theorem call (same : callees.Agrees model encoded) (callee : Callee) {args : List Expr}
    (values : Agrees model (· = states) Eq (evalAll model callees frame args)
      (evalAll model.hoist encoded frame' (Expr.mapVarsAll rename args))) :
    Agrees model (· = states) Eq (Exec.eval model callees frame (.call callee args))
      (Exec.eval model.hoist encoded frame' ((Expr.call callee args).mapVars rename)) := by
  refine values.andThen fun values => ?_
  cases callee with
  | function id => exact same.function states id values
  | external id => exact (Agrees.require_same _).andThen fun external => .callExternal external _

mutual

/-- An expression has the same value. -/
theorem eval (represents : Represents σ model (· = states) setting rename frame frame' slots)
    (same : callees.Agrees model encoded) {expr : Expr} (formed : expr.WellFormed setting) :
    Agrees model (· = states) Eq (Exec.eval model callees frame expr)
      (Exec.eval model.hoist encoded frame' (expr.mapVars rename)) := by
  cases expr with
  | const value => exact .pure rfl
  | read var => exact (represents.locate var false 0 formed).bind represents.load
  | element var index =>
    exact (eval represents same formed.2).andThen fun value =>
      (represents.locate var true value formed.1).bind represents.load
  | call callee args => exact call same callee (evalAll represents same formed.2)
  | unary op operand =>
    have inner : operand.WellFormed setting := formed
    have value := eval represents same inner
    exact value.andThen fun _ => .pure rfl
  | binary op left right =>
    have first := eval represents same formed.1
    have second := eval represents same formed.2
    cases op
    case logicAnd =>
      refine first.andThen fun value => ?_
      split
      · exact .pure rfl
      · exact second.andThen fun _ => .pure rfl
    case logicOr =>
      refine first.andThen fun value => ?_
      split
      · exact .pure rfl
      · exact second.andThen fun _ => .pure rfl
    all_goals exact first.andThen fun _ => second.andThen fun _ => .compute _ _ _

theorem evalAll (represents : Represents σ model (· = states) setting rename frame frame' slots)
    (same : callees.Agrees model encoded) {exprs : List Expr}
    (formed : Expr.WellFormedAll setting exprs) :
    Agrees model (· = states) Eq (evalAll model callees frame exprs)
      (evalAll model.hoist encoded frame' (Expr.mapVarsAll rename exprs)) := by
  cases exprs with
  | nil => exact .pure rfl
  | cons first rest =>
    exact (eval represents same formed.1).andThen fun _ =>
      (evalAll represents same formed.2).andThen fun _ => .pure rfl

end

variable (represents : Represents σ model (· = states) setting rename frame frame' slots)
  (same : callees.Agrees model encoded)

include represents same

/-- An expression that stands alone has the same value. -/
theorem evalAlone {expr : Expr} (formed : expr.WellFormedAlone setting) :
    Agrees model (· = states) Eq (Exec.eval model callees frame expr)
      (Exec.eval model.hoist encoded frame' (expr.mapVars rename)) := by
  cases expr with
  | call callee args => exact call same callee (represents.evalAll same formed.2)
  | _ => exact represents.eval same formed

/-- An assignment finds slots that keep each other, and the same value for them. -/
theorem assignment {place : Place} (op : Option BinaryOp) {value : Expr}
    (placed : place.WellFormed setting) (formed : value.WellFormed setting) :
    Agrees model (· = states) (fun found found' => slots found.1 found'.1 ∧ found.2 = found'.2)
      (assignment model callees frame place op value)
      (assignment model.hoist encoded frame' (place.mapVars rename) op
        (value.mapVars rename)) := by
  have located : Agrees model (· = states) slots (slotOf model callees frame place)
      (slotOf model.hoist encoded frame' (place.mapVars rename)) := by
    obtain ⟨var, index⟩ := place
    cases index with
    | none => exact represents.locate var false 0 placed.1
    | some index =>
      exact (represents.eval same (placed.2 index rfl)).andThen fun value =>
        represents.locate var true value placed.1
  refine located.bind fun slot slot' kept => (represents.eval same formed).andThen fun value => ?_
  cases op with
  | none => exact .pure ⟨kept, rfl⟩
  | some op =>
    exact (represents.load slot slot' kept).andThen fun old =>
      (Agrees.compute op old value).andThen fun _ => .pure ⟨kept, rfl⟩

end Represents

/-- A slot of a variable that is declared, or that is one of so many local ones. -/
def Slot.Declared (model : Model) (locals : Nat) : Slot → Prop
  | .static id _ => id < model.statics.length
  | .localVar id _ => id < locals
  | .external _ => True

/-- The slot that keeps a slot of a coroutine. -/
def Slot.hoist (first : StaticId) : Slot → Slot
  | .localVar id index => .static (first + id) index
  | slot => slot

section Routine

variable {σ : Type} [Host σ] {model : Model} {allowed : Array Activity → Prop}

omit [Host σ] in
/-- A declared variable is found where it was. -/
theorem locate_static {place : StaticId} (known : place < model.statics.length)
    (frame frame' : Frame) (index : Int64) :
    Agrees (σ := σ) model allowed
      (fun slot slot' => (∃ inside, slot = .static place inside) ∧ slot = slot')
      (locate model frame (.static place) index)
      (locate model.hoist frame' (.static place) index) := by
  simp only [locate, Model.hoist_statics known]
  exact (Agrees.require_same _).andThen fun storage => .statics known fun cells =>
    (Agrees.checkIndex _ _ _).andThen fun inside => .pure ⟨⟨inside, rfl⟩, rfl⟩

/-- A declared variable has the same value. -/
theorem load_static {place : StaticId} (known : place < model.statics.length)
    (frame frame' : Frame) (index : Nat) :
    Agrees (σ := σ) model allowed Eq (load model frame (.static place index))
      (load model.hoist frame' (.static place index)) := by
  intro machine fits held
  change OutcomeAgrees model allowed Eq
    (require (machine.statics[place]?.bind (·[index]?)) machine)
    (require ((model.encode machine).statics[place]?.bind (·[index]?))
      (model.encode machine))
  rw [Model.encode_statics fits known]
  exact Agrees.require_same _ machine fits held

/-- The variables of a body that is never suspended are kept where they are. -/
theorem routine_represents (states : Array Activity) (setting : BodySetting)
    (shapes : setting.shapes = model.shapes) (frame : Frame) :
    Represents σ model (· = states) setting id frame frame fun slot slot' =>
      slot.Declared model setting.locals.length ∧ slot = slot' where
  locate := by
    intro var indexed index usable
    rw [shapes] at usable
    cases var with
    | static place =>
      have known := Model.static_declared usable
      refine (locate_static known frame frame index).mono ?_
      rintro _ _ ⟨⟨inside, rfl⟩, rfl⟩
      exact ⟨known, rfl⟩
    | localVar id =>
      exact (Agrees.require_same _).andThen fun known =>
        (Agrees.require_same _).andThen fun cells =>
          (Agrees.checkIndex _ _ _).andThen fun _ =>
            .pure ⟨Shapes.local_declared usable, rfl⟩
    | external id => exact .pure ⟨trivial, rfl⟩
  load := by
    rintro slot _ ⟨declared, rfl⟩
    cases slot with
    | static place index => exact load_static declared frame frame index
    | localVar id index => exact .require_same _
    | external id => exact (Agrees.require_same _).andThen fun _ => .readExternal _

/-- A value is stored in the same slot. -/
theorem store_agrees (frame : Frame) {slot : Slot} {locals : Nat}
    (declared : slot.Declared model locals) (value : Int64) :
    Agrees (σ := σ) model allowed Eq (store model frame slot value)
      (store model.hoist frame slot value) := by
  cases slot with
  | static id index =>
    -- The old value is looked for as it is when it is read.
    have old : Agrees (σ := σ) model allowed Eq (load model frame (.static id index))
        (load model.hoist frame (.static id index)) :=
      load_static declared frame frame index
    simp only [load] at old
    simp only [store, Model.hoist_statics declared]
    refine (Agrees.require_same _).andThen fun storage => ?_
    have after := old.andThen fun _ =>
      (Agrees.write declared index (storage.type.wrap value)).andThen fun _ =>
        .pure (rfl : frame = frame)
    simpa only [bind_assoc] using after
  | localVar id index =>
    exact (Agrees.require_same _).andThen fun _ =>
      (Agrees.require_same _).andThen fun _ => .pure rfl
  | external id =>
    exact (Agrees.require_same _).andThen fun _ =>
      (Agrees.writeExternal _ _).andThen fun _ => .pure rfl

end Routine

namespace Exec

variable {σ γ : Type} {id : CoroutineId} {machine : Machine σ Activity} {activity : Activity}

theorem activity_bind (active : machine.states[id]? = some activity)
    {next : Activity → ExecWith σ Activity γ} :
    (Exec.activity id >>= next) machine = next activity machine := by
  change (require machine.states[id]? >>= next) machine = _
  rw [active]
  rfl

theorem setMemory_run (active : machine.states[id]? = some activity) (memory : Memory) :
    (do setActivity id { ← Exec.activity id with memory }) machine =
      .ok () (machine.withActivity id { activity with memory }) := by
  rw [activity_bind active]
  rfl

/-- The local variables of a coroutine are looked up. -/
theorem ownFrame_bind {model : Model} {coroutine : Coroutine}
    (found : model.coroutines[id]? = some coroutine)
    (active : machine.states[id]? = some activity) {next : Frame → ExecWith σ Activity γ} :
    (ownFrame model id >>= next) machine = next (coroutine.frame activity.memory) machine := by
  simp only [ownFrame, found, require, pure_bind, bind_assoc]
  exact activity_bind active

theorem state_bind {machine : Machine σ} {state : Nat} (found : machine.states[id]? = some state)
    {next : Nat → Exec σ γ} : (Exec.state id >>= next) machine = next state machine := by
  change (require machine.states[id]? >>= next) machine = _
  rw [found]
  rfl

end Exec

section Coroutine

variable {σ : Type} [Host σ] {model : Model} {id : CoroutineId} {coroutine : Coroutine}
  {states : Array Activity} {activity : Activity}
  (found : model.coroutines[id]? = some coroutine) (active : states[id]? = some activity)

include found active

omit [Host σ] in
/-- A local variable of a coroutine has the values of the variable that keeps it. -/
theorem Agrees.hoisted {γ δ : Type} {same : γ → δ → Prop} {known : LocalId}
    (small : known < coroutine.locals.length)
    {next : Array Int64 → ExecWith σ Activity γ} {next' : Array Int64 → Exec σ δ}
    (late : ∀ cells, Agrees model (· = states) same (next cells) (next' cells)) :
    Agrees model (· = states) same (do next (← require activity.memory[known]?))
      (do next' (← require (← get).statics[model.firstHoisted id + known]?)) := by
  intro machine fits held
  change OutcomeAgrees model _ same ((require activity.memory[known]? >>= next) machine)
    ((require (model.encode machine).statics[model.firstHoisted id + known]? >>= next')
      (model.encode machine))
  rw [Model.encode_hoisted fits found (held ▸ active) small]
  exact (Agrees.require_same _).andThen late machine fits held

/-- The local variables of a coroutine are kept by static ones. -/
theorem coroutine_represents (setting : BodySetting) (shapes : setting.shapes = model.shapes)
    (locals : setting.locals.length = coroutine.locals.length) :
    Represents σ model (· = states) setting (model.hoistOwn id)
      (coroutine.frame activity.memory) (.enter [] []) fun slot slot' =>
        slot.Declared model setting.locals.length ∧ slot.hoist (model.firstHoisted id) = slot' where
  locate := by
    intro var indexed index usable
    rw [shapes] at usable
    cases var with
    | static place =>
      have known := Model.static_declared usable
      refine (locate_static known _ _ index).mono ?_
      rintro _ _ ⟨⟨inside, rfl⟩, rfl⟩
      exact ⟨known, rfl⟩
    | localVar place =>
      have declared := Shapes.local_declared usable
      have small : place < coroutine.locals.length := locals ▸ declared
      obtain ⟨known, listed⟩ : ∃ known, coroutine.locals[place]? = some known :=
        ⟨_, List.getElem?_eq_getElem small⟩
      -- A fault tells the same name in both ways.
      simp only [locate, Model.hoistOwn_local found small, Model.frame_locals listed,
        Model.hoist_local found listed]
      refine Agrees.hoisted found active small fun cells =>
        (Agrees.checkIndex _ _ _).andThen fun _ => .pure ⟨declared, rfl⟩
    | external id => exact .pure ⟨trivial, rfl⟩
  load := by
    rintro slot _ ⟨declared, rfl⟩
    cases slot with
    | static place index => exact load_static declared _ _ index
    | localVar place index =>
      have small : place < coroutine.locals.length := locals ▸ declared
      intro machine fits held
      change OutcomeAgrees model _ Eq
        (require (activity.memory[place]?.bind (·[index]?)) machine)
        (require ((model.encode machine).statics[model.firstHoisted id + place]?.bind
          (·[index]?)) (model.encode machine))
      rw [Model.encode_hoisted fits found (held ▸ active) small]
      exact Agrees.require_same _ machine fits held
    | external place => exact (Agrees.require_same _).andThen fun _ => .readExternal _

/-- A value that a coroutine stores is stored in the slot that keeps it. -/
theorem storeOwn_agrees {slot : Slot} (declared : slot.Declared model coroutine.locals.length)
    (value : Int64) {machine : Machine σ Activity} (fits : model.Fits machine)
    (held : machine.states = states) :
    OutcomeAgrees model (fun _ => True) (fun _ frame' => frame' = .enter [] [])
      ((store model (coroutine.frame activity.memory) slot value >>= fun frame => do
        setActivity id { ← Exec.activity id with memory := frame.memory }) machine)
      (store model.hoist (.enter [] []) (slot.hoist (model.firstHoisted id)) value
        (model.encode machine)) := by
  subst held
  -- What is not local leaves the coroutine as it is.
  have unchanged : ∀ after : Machine σ Activity, after.states = machine.states →
      (do setActivity id { ← Exec.activity id with memory := activity.memory }) after =
        .ok () after := by
    intro after same
    have still : after.states[id]? = some activity := same ▸ active
    rw [setMemory_run still, Machine.withActivity, setIfInBounds_same still]
  cases slot with
  | static place index =>
    obtain ⟨storage, listed⟩ : ∃ storage, model.statics[place]? = some storage :=
      ⟨_, List.getElem?_eq_getElem declared⟩
    have written := Model.encode_write fits declared index (storage.type.wrap value)
    have same : (model.encode machine).statics.read? place index =
        machine.statics.read? place index := by
      simp only [Memory.read?, Model.encode_statics fits declared]
    simp only [store, Slot.hoist, Model.hoist_statics declared, listed, require,
      pure_bind, bind_assoc]
    change OutcomeAgrees model _ _ ((require (machine.statics.read? place index) >>= _) machine)
      ((require ((model.encode machine).statics.read? place index) >>= _)
        (model.encode machine))
    rw [same]
    cases machine.statics.read? place index with
    | none => exact .error fits trivial
    | some old =>
      have kept := unchanged { machine with
        statics := machine.statics.write place index (storage.type.wrap value) } rfl
      exact kept ▸ .done written rfl (fits.write place index _) trivial
  | localVar place index =>
    obtain ⟨known, listed⟩ : ∃ known, coroutine.locals[place]? = some known :=
      ⟨_, List.getElem?_eq_getElem declared⟩
    obtain ⟨_, same, size⟩ := fits.activity found
    obtain rfl := Option.some.inj (active.symm.trans same)
    have written := Model.encode_write_hoisted fits found active declared index
      (known.type.wrap value)
    have old : (model.encode machine).statics.read? (model.firstHoisted id + place) index =
        activity.memory.read? place index := by
      simp only [Memory.read?, Model.encode_hoisted fits found active declared]
    simp only [store, Slot.hoist, Model.frame_locals listed, Model.hoist_local found listed,
      require, pure_bind, bind_assoc]
    change OutcomeAgrees model _ _ ((require (activity.memory.read? place index) >>= _) machine)
      ((require ((model.encode machine).statics.read? (model.firstHoisted id + place) index)
        >>= _) (model.encode machine))
    rw [old]
    cases activity.memory.read? place index with
    | none => exact .error fits trivial
    | some old =>
      change OutcomeAgrees model _ _ ((do setActivity id { ← Exec.activity id with
        memory := activity.memory.write place index (known.type.wrap value) }) machine) _
      rw [setMemory_run active]
      refine .done written rfl (fits.withActivity found ?_ ?_) trivial
      · simpa [Coroutine.frame, Memory.write] using size
      · exact fun point suspended =>
          fits.points id coroutine activity point found active suspended
  | external place =>
    have same : model.hoist.externals = model.externals := rfl
    simp only [store, Slot.hoist, same, bind_assoc, pure_bind]
    cases model.externals[place]? with
    | none => exact .error fits trivial
    | some external =>
      have kept := unchanged { machine with
        host := Host.write external.name (externalValue external.kind value) machine.host } rfl
      exact kept ▸ .ok rfl ⟨fits.statics, fits.memories, fits.points⟩ trivial

end Coroutine

section Moves

variable {σ : Type} {model : Model} {id : CoroutineId} {coroutine : Coroutine}
  (found : model.coroutines[id]? = some coroutine)

include found

/-- Moving a coroutine is changing its state. -/
theorem move_agrees {whereabouts : Whereabouts}
    (points : ∀ point, whereabouts = .suspended point →
      point < Stmt.pointCounts coroutine.body) :
    Agrees (σ := σ) model (fun _ => True) Eq (move id whereabouts)
      (setState id (whereabouts.state (model.width id))) := by
  intro machine fits held
  obtain ⟨activity, active, size⟩ := fits.activity found
  have state : (model.encode machine).states[id]? =
      some (activity.whereabouts.state (model.width id)) := by
    simp [Model.encode_states, active]
  rw [move, activity_bind active, setState, state_bind state]
  exact .done (Model.encode_move active whereabouts) rfl
    (fits.withActivity found size points) trivial

end Moves

section Bodies

variable {σ : Type} [Host σ] {model : Model} {program : Program}
  (lowered : model.LowersTo program) (formed : model.WellFormed)
  {callees : Callees σ Activity} {encoded : Callees σ} (same : callees.Agrees model encoded)
  {coroutine : Coroutine}

include lowered formed same

/-- A body that is never suspended does the same. -/
theorem routine_agrees (states : Array Activity) {valued : Bool} {locals : List Local} (points : Nat) :
    Actions.Agrees (BodyStep.Agrees model (· = states) Eq)
      ⟨model.shapes, locals.map Local.length, none, valued⟩ points (model.routineActions callees)
      ((program.world model).routine encoded) where
  toCongruence := BodyStep.Agrees.congruence
  parameters := by
    simp only [Model.routineActions, Program.world, actions, lowered.hoisted]
    rfl
  static := formed.parameters_static _
  eval := by
    rintro expr usable frame _ rfl
    have value := (routine_represents states _ rfl frame).evalAlone same usable
    rw [Expr.mapVars_id] at value
    simp only [Model.routineActions, Program.world, actions, lowered.hoisted, StateT.run_bind,
      StateT.run_get, pure_bind]
    exact value.andThen fun _ => .pure ⟨rfl, rfl⟩
  assign := by
    rintro place op value placed usable frame _ rfl
    have chosen := (routine_represents states _ rfl frame).assignment same op placed usable
    rw [Expr.mapVars_id, Place.mapVars_id] at chosen
    simp only [Model.routineActions, Program.world, actions, lowered.hoisted, StateT.run_bind,
      StateT.run_get, pure_bind, StateT.run_lift, StateT.run_set, bind_assoc, assign_eq]
    refine chosen.bind ?_
    rintro ⟨slot, value⟩ ⟨_, _⟩ ⟨⟨declared, rfl⟩, rfl⟩
    exact (store_agrees frame declared value).andThen fun _ => .pure ⟨trivial, rfl⟩
  suspendAt := nofun
  drive := nofun
  finish := .pure _

omit [Host σ] formed in
/-- A subroutine that goes on does the same, and ends in the same way. -/
theorem driveOn_agrees {callee : CoroutineId} (found : model.coroutines[callee]? = some coroutine) :
    Agrees model (fun _ => True) Eq (driveOn callees callee)
      (driveMachine program encoded callee) := by
  refine (same.coroutine callee).andThen fun _ => ?_
  intro machine fits held
  obtain ⟨activity, active, -⟩ := fits.activity found
  have state : (model.encode machine).states[callee]? =
      some (activity.whereabouts.state (model.width callee)) := by
    simp [Model.encode_states, active]
  have made : program.coroutines[callee]? = some (model.machineOf callee coroutine) := by
    simp [lowered.coroutines, found]
  have ended := Model.state_eq_endState found (lowered.limited _ (List.mem_of_getElem? found))
    fun point => fits.points callee coroutine activity point found active
  rw [activity_bind active]
  simp only [made, require, pure_bind, Model.width_eq found]
  rw [state_bind state]
  by_cases finished : activity.whereabouts = .ended
  · simp only [finished, ne_eq, not_true_eq_false, ↓reduceIte, Whereabouts.state]
    -- The end is seen once, and the subroutine is at its start again.
    have moved : Agrees (σ := σ) model (fun _ => True) Eq (move callee .idle)
        (setState callee startState) := by
      refine move_agrees found fun point same => ?_
      cases same
    exact moved.andThen (fun _ => .pure rfl) machine fits held
  · have going := mt ended.mp finished
    simp only [finished, going, ne_eq, not_false_eq_true, ↓reduceIte]
    exact .ok rfl fits held

omit lowered formed in
/-- An assignment in a coroutine is one to the variables that keep its own. -/
theorem assignOwn_agrees {id : CoroutineId} (found : model.coroutines[id]? = some coroutine)
    {place : Place} (op : Option BinaryOp) {value : Expr} {setting : BodySetting}
    (shapes : setting.shapes = model.shapes)
    (locals : setting.locals.length = coroutine.locals.length) (placed : place.WellFormed setting)
    (usable : value.WellFormed setting) :
    Agrees model (fun _ => True) (fun _ frame' => frame' = .enter [] [])
      (assignOwn model callees id place op value)
      (assign model.hoist encoded (.enter [] []) (place.mapVars (model.hoistOwn id)) op
        (value.mapVars (model.hoistOwn id))) := by
  intro machine fits held
  obtain ⟨activity, active, -⟩ := fits.activity found
  have chosen := (coroutine_represents found active setting shapes locals).assignment same op placed
    usable
  rw [assignOwn, ownFrame_bind found active, assign_eq, assign_eq, bind_assoc]
  refine chosen.bindLast (fun _ _ => trivial) ?_ fits rfl
  rintro ⟨slot, value⟩ ⟨_, _⟩ ⟨⟨declared, rfl⟩, rfl⟩ after fits held
  exact storeOwn_agrees found (held ▸ active) (locals ▸ declared) value fits rfl

/-- A coroutine does the same. -/
theorem coroutine_agrees {id : CoroutineId} (found : model.coroutines[id]? = some coroutine) :
    Actions.Agrees (BodyStep.Agrees model (fun _ => True)
        fun frame frame' => frame = .enter [] [] ∧ frame' = .enter [] [])
      ⟨model.shapes, coroutine.locals.map Local.length, some id, false⟩
      (Stmt.pointCounts coroutine.body) (model.coroutineActions callees id)
      ((program.world model).coroutine encoded id) where
  toCongruence := BodyStep.Agrees.congruence
  parameters := by
    simp only [Model.coroutineActions, Program.world, Actions.through, actions,
      lowered.hoisted]
    rfl
  static := formed.parameters_static _
  eval := by
    rintro expr usable _ _ ⟨rfl, rfl⟩ machine fits held
    obtain ⟨activity, active, -⟩ := fits.activity found
    have value := (coroutine_represents found active _ rfl (by simp)).evalAlone same usable
    simp only [Model.coroutineActions, Program.world, Actions.through, actions,
      lowered.hoisted, StateT.run_bind, StateT.run_get, pure_bind, StateT.run_lift, bind_assoc]
    rw [ownFrame_bind found active]
    refine value.bindLast (fun _ _ => trivial) ?_ fits rfl
    rintro result _ rfl after fits -
    exact .ok ⟨rfl, rfl, rfl⟩ fits trivial
  assign := by
    rintro place op value placed usable _ _ ⟨rfl, rfl⟩
    have stored := assignOwn_agrees same found op rfl (by simp) placed usable
    simp only [Model.coroutineActions, Program.world, Actions.through, actions,
      lowered.hoisted, StateT.run_bind, StateT.run_get, pure_bind, StateT.run_lift, StateT.run_set,
      bind_assoc]
    refine stored.bind ?_
    rintro _ _ rfl
    exact .pure ⟨trivial, rfl, rfl⟩
  suspendAt := by
    intro _ point small
    refine .lift (move_agrees found ?_)
    rintro _ ⟨rfl⟩
    exact small
  drive := by
    intro caller callee count _ possible
    obtain ⟨-, called, -, -, there, -⟩ := possible
    obtain ⟨coroutine, known, -⟩ : ∃ coroutine, model.coroutines[callee]? = some coroutine ∧ _ := by
      simpa [Model.shapes] using there
    exact .lift (driveOn_agrees lowered same known)
  finish := by
    refine .lift ?_
    have known : program.model.coroutines[id]? = some coroutine := by
      rw [lowered.hoisted]
      exact found
    have made : program.coroutines[id]? = some (model.machineOf id coroutine) := by
      simp [lowered.coroutines, found]
    simp only [finishOwn, finishMachine, found, known, made, require, pure_bind,
      Model.width_eq found]
    split
    · exact move_agrees found fun point same => by cases same
    · exact move_agrees found fun point same => by cases same

/-- A body that is never suspended has the same outcome. -/
theorem runBody_agrees (states : Array Activity) {valued : Bool} {locals : List Local}
    {body : List Stmt} (statements : BodyWellFormed model.shapes none valued locals body)
    (fuel : Nat) (args : List Int64) :
    Agrees model (· = states) Eq (model.world.runBody fuel callees locals body args)
      ((program.world model).runBody fuel encoded locals body args) := by
  have runs := (routine_agrees lowered formed same states (Stmt.pointCounts body)).runFrom fuel
    statements.statements (Nat.le_refl _) none
  refine (runs (.enter locals args) _ rfl).enter.bind ?_
  rintro ⟨value, _⟩ ⟨_, _⟩ ⟨rfl, -⟩
  exact .pure rfl

/-- A function has the same value. -/
theorem runFunction_agrees (states : Array Activity) (fuel : Nat) (id : FunctionId)
    (args : List Int64) :
    Agrees model (· = states) Eq (model.world.runFunction fuel callees id args)
      ((program.world model).runFunction fuel encoded id args) := by
  have functions : (program.world model : World σ Nat).model.functions = model.functions := by
    simp only [Program.world, lowered.hoisted]
    rfl
  have known : (model.world : World σ Activity).model.functions = model.functions := rfl
  simp only [World.runFunction, functions, known]
  cases found : model.functions[id]? with
  | none => exact .throw _
  | some function =>
    have statements := (formed.functions function (List.mem_of_getElem? found)).body
    exact (runBody_agrees lowered formed same states statements fuel _).andThen fun _ => .pure rfl

/-- A coroutine goes on in the same way. -/
theorem runCoroutine_agrees (fuel : Nat) (id : CoroutineId) :
    Agrees model (fun _ => True) Eq (model.world.runCoroutine fuel callees id)
      ((program.world model).runCoroutine fuel encoded id) := by
  cases found : model.coroutines[id]? with
  | none =>
    have lost : model.world.runCoroutine fuel callees id = throw .dangling := by
      simp only [World.runCoroutine, Model.world, found, require]
      rfl
    rw [lost, (Model.runCoroutine_unknown lowered found fuel fuel encoded encoded).2]
    exact .throw _
  | some coroutine =>
    intro machine fits held
    obtain ⟨activity, active, -⟩ := fits.activity found
    have state : (model.encode machine).states[id]? =
        some (activity.whereabouts.state (model.width id)) := by
      simp [Model.encode_states, active]
    have point := Model.pointAt?_state found (lowered.limited _ (List.mem_of_getElem? found))
      fun point => fits.points id coroutine activity point found active
    rw [Model.world_runCoroutine_eq lowered found, state_bind state, point]
    simp only [World.runCoroutine, Model.world, found, require, pure_bind, bind_assoc]
    rw [activity_bind active]
    have body := (formed.coroutines id coroutine found).body
    have runs := (coroutine_agrees lowered formed same found).runFrom fuel body.statements
      (Nat.le_refl _) activity.whereabouts.point?
    refine (runs _ _ ⟨rfl, rfl⟩).enter.bind ?_ machine fits held
    rintro ⟨value, _⟩ ⟨_, _⟩ -
    exact .pure rfl

end Bodies

section Steps

variable {σ : Type} [Host σ] {model : Model} {program : Program}
  (lowered : model.LowersTo program) (formed : model.WellFormed)

include lowered formed

/-- Whatever bodies start inside each other does the same. -/
theorem callees_agree (fuel levels : Nat) :
    (model.world.callees fuel levels : Callees σ Activity).Agrees model
      ((program.world model).callees fuel levels) := by
  induction levels with
  | zero => exact ⟨fun _ _ _ => .throw _, fun _ => .throw _⟩
  | succ levels ih =>
    exact ⟨fun states id args => runFunction_agrees lowered formed ih states fuel id args,
      fun id => runCoroutine_agrees lowered formed ih fuel id⟩

theorem step_agrees (fuel : Nat) (id : CoroutineId) :
    Agrees (σ := σ) model (fun _ => True) Eq (model.step fuel id)
      ((program.world model).step fuel id) :=
  runCoroutine_agrees lowered formed (callees_agree lowered formed fuel maxDepth) fuel id

end Steps

end Coro
