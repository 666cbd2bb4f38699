import Coro.Proofs.Machine.Invariant

/-!
Runs that are confined to a part of the machine.

A confined run changes nothing outside its part, and nothing outside of it makes a difference: where
two machines look the same to the run, it has the same outcome on both.
-/

namespace Coro

/-- Some of the static variables and states of a machine. -/
structure View where
  statics : StaticId → Prop
  states : CoroutineId → Prop

namespace View

variable {σ : Type} {view : View} {one other : Machine σ}

/-- Two machines look the same to a run; the host and the active bodies are always in sight. -/
structure Alike (view : View) (one other : Machine σ) : Prop where
  statics : ∀ id, view.statics id → one.statics[id]? = other.statics[id]?
  states : ∀ id, view.states id → one.states[id]? = other.states[id]?
  depth : one.depth = other.depth
  host : one.host = other.host

/-- Whatever is out of sight is as it was, and so is all that counts time. -/
structure Untouched (view : View) (before after : Machine σ) : Prop where
  statics : ∀ id, ¬view.statics id → after.statics[id]? = before.statics[id]?
  states : ∀ id, ¬view.states id → after.states[id]? = before.states[id]?
  clock : after.clock = before.clock
  passes : after.passes = before.passes

/-- Two runs return the same value, or stop for the same reason, on machines that look the same. -/
inductive Agree (view : View) {α : Type} (post : α → Prop) :
    EStateM.Result Halt (Machine σ) α → EStateM.Result Halt (Machine σ) α → Prop where
  | ok {value : α} {one other : Machine σ} : post value → view.Alike one other →
      Agree view post (.ok value one) (.ok value other)
  | error {halt : Halt} {one other : Machine σ} : view.Alike one other →
      Agree view post (.error halt one) (.error halt other)

theorem Alike.refl (machine : Machine σ) : view.Alike machine machine :=
  ⟨fun _ _ => rfl, fun _ _ => rfl, rfl, rfl⟩

theorem Alike.withDepth (alike : view.Alike one other)
    {depth depth' : Nat} (same : depth = depth') :
    view.Alike { one with depth } { other with depth := depth' } :=
  ⟨alike.statics, alike.states, same, alike.host⟩

theorem Alike.withHost (alike : view.Alike one other) {host host' : σ}
    (same : host = host') : view.Alike { one with host } { other with host := host' } :=
  ⟨alike.statics, alike.states, alike.depth, same⟩

theorem Untouched.refl (machine : Machine σ) : view.Untouched machine machine :=
  ⟨fun _ _ => rfl, fun _ _ => rfl, rfl, rfl⟩

theorem Untouched.trans {first second third : Machine σ} (early : view.Untouched first second)
    (late : view.Untouched second third) : view.Untouched first third where
  statics id hidden := (late.statics id hidden).trans (early.statics id hidden)
  states id hidden := (late.states id hidden).trans (early.states id hidden)
  clock := late.clock.trans early.clock
  passes := late.passes.trans early.passes

theorem Alike.read? (alike : view.Alike one other) {id : StaticId} (seen : view.statics id)
    (index : Nat) : one.statics.read? id index = other.statics.read? id index := by
  simp only [Memory.read?, alike.statics id seen]

end View

namespace Exec

variable {σ α β : Type} {view : View} {granted : References}

/-- A run neither changes nor depends on anything but the part in sight. -/
structure Confined (view : View) (run : Exec σ α) (post : α → Prop) : Prop where
  agree : ∀ one other, view.Alike one other → view.Agree post (run one) (run other)
  untouched : ∀ machine, view.Untouched machine (behind run machine)

namespace Confined

variable {post : α → Prop}

theorem returns {run : Exec σ α} (confined : Confined view run post) {machine after : Machine σ}
    {value : α} (ran : run machine = .ok value after) : post value := by
  have outcome := confined.agree machine machine (.refl machine)
  rw [ran] at outcome
  cases outcome with
  | ok given _ => exact given

theorem bind {first : Exec σ α} {next : α → Exec σ β} {middle : α → Prop} {post : β → Prop}
    (early : Confined view first middle)
    (late : ∀ value, middle value → Confined view (next value) post) :
    Confined view (first >>= next) post := by
  constructor
  · intro one other alike
    have outcome := early.agree one other alike
    simp only [Bind.bind, EStateM.bind]
    generalize first one = left at outcome ⊢
    generalize first other = right at outcome ⊢
    cases outcome with
    | ok given alike => exact (late _ given).agree _ _ alike
    | error alike => exact .error alike
  · intro machine
    have start := early.untouched machine
    simp only [behind, Bind.bind, EStateM.bind] at start ⊢
    cases ran : first machine with
    | ok value after =>
      rw [ran] at start
      exact start.trans ((late value (early.returns ran)).untouched after)
    | error halt after =>
      rw [ran] at start
      exact start

/-- A body that is entered is confined if it is so by itself. -/
theorem enter {body : Exec σ α} (inner : Confined view body post) :
    Confined view (Exec.enter body) post := by
  constructor
  · intro one other alike
    by_cases room : one.depth < maxDepth
    · have also : other.depth < maxDepth := alike.depth ▸ room
      have outcome := inner.agree { one with depth := one.depth + 1 }
        { other with depth := other.depth + 1 } (alike.withDepth (by rw [alike.depth]))
      simp only [Exec.enter, room, also, ↓reduceIte]
      generalize body { one with depth := one.depth + 1 } = left at outcome ⊢
      generalize body { other with depth := other.depth + 1 } = right at outcome ⊢
      cases outcome with
      | ok given alike => exact .ok given (alike.withDepth (by rw [alike.depth]))
      | error alike => exact .error (alike.withDepth (by rw [alike.depth]))
    · -- Both machines are at the limit, or none is.
      have also : ¬other.depth < maxDepth := alike.depth ▸ room
      simp only [Exec.enter, room, also, ↓reduceIte]
      exact .error alike
  · intro machine
    by_cases room : machine.depth < maxDepth
    · have kept := inner.untouched { machine with depth := machine.depth + 1 }
      simp only [behind, Exec.enter, room, ↓reduceIte] at kept ⊢
      cases ran : body { machine with depth := machine.depth + 1 } with
      | ok value after | error halt after =>
        rw [ran] at kept
        exact ⟨kept.statics, kept.states, kept.clock, kept.passes⟩
    · simp only [behind, Exec.enter, room, ↓reduceIte]
      exact .refl machine

theorem law : Law (σ := σ) (Confined view) fun _ => True where
  pure given := ⟨fun _ _ alike => .ok given alike, .refl⟩
  bind := bind
  throw _ := ⟨fun _ _ alike => .error alike, .refl⟩
  enter := enter
  fault _ := trivial
  outOfFuel := trivial

/-- What is looked up in the machine has to be in sight. -/
theorem lookup {look : Machine σ → Option β} {next : β → Exec σ α}
    (same : ∀ one other, view.Alike one other → look one = look other)
    (late : ∀ value, Confined view (next value) post) :
    Confined view (MonadState.get >>= fun machine => Exec.require (look machine) >>= next)
      post := by
  have found : ∀ value, Confined view (Exec.require value >>= next) post :=
    fun value => law.require (fun _ => trivial) fun value _ => late value
  constructor
  · intro one other alike
    have outcome := (found (look one)).agree one other alike
    show view.Agree post ((Exec.require (look one) >>= next) one)
      ((Exec.require (look other) >>= next) other)
    rw [← same one other alike]
    exact outcome
  · exact fun machine => (found (look machine)).untouched machine

/-- A change has to be in sight, with all that it depends on. -/
theorem modifyGet {change : Machine σ → α × Machine σ}
    (same : ∀ one other, view.Alike one other → (change one).1 = (change other).1 ∧
      view.Alike (change one).2 (change other).2)
    (kept : ∀ machine, view.Untouched machine (change machine).2) :
    Confined view (MonadStateOf.modifyGet change : Exec σ α) fun _ => True := by
  refine ⟨fun one other alike => ?_, kept⟩
  obtain ⟨value, after⟩ := same one other alike
  show view.Agree _ (.ok (change one).1 (change one).2) (.ok (change other).1 (change other).2)
  rw [value]
  exact .ok trivial after

theorem require {found : Option β} {next : β → Exec σ α}
    (late : ∀ value, found = some value → Confined view (next value) post) :
    Confined view (Exec.require found >>= next) post :=
  law.require (fun _ => trivial) late

end Confined

/-! ## Single steps -/

/-- A static variable in sight can be looked up. -/
theorem locate_confined (model : Model) (frame : Frame) {var : Var}
    (index : Int64) (seen : ∀ id, granted.var (.static id) → view.statics id)
    (known : granted.var var) :
    Confined (σ := σ) view (locate model frame var index) (Slot.Granted granted) := by
  cases var with
  | static id =>
    refine .require fun storage _ => .lookup (fun _ _ alike => alike.statics id (seen id known)) ?_
    intro cells
    exact Confined.law.bind (Confined.law.checkIndex _ _ _) fun _ _ => Confined.law.pure known
  | localVar id =>
    refine .require fun storage _ => .require fun cells _ => ?_
    exact Confined.law.bind (Confined.law.checkIndex _ _ _) fun _ _ => Confined.law.pure trivial
  | external id => exact Confined.law.pure trivial

theorem state_confined {id : CoroutineId} (seen : view.states id) :
    Confined (σ := σ) view (state id) fun _ => True := by
  have found : Confined (σ := σ) view
      (get >>= fun machine => require machine.states[id]? >>= pure) fun _ => True :=
    .lookup (fun _ _ alike => alike.states id seen) fun _ => Confined.law.pure trivial
  simpa [state] using found

/-- The state of a coroutine in sight can be changed. -/
theorem setState_confined {id : CoroutineId} (seen : view.states id) (value : Nat) :
    Confined (σ := σ) view (setState id value) fun _ => True := by
  -- A state that is there is replaced, and all others stay as they are.
  have changed : ∀ (states : Array Nat) (place : Nat),
      (states.setIfInBounds id value)[place]? =
        if id = place then states[id]?.map fun _ => value else states[place]? := by
    intro states place
    rw [Array.getElem?_setIfInBounds]
    by_cases same : id = place
    · subst same
      by_cases there : id < states.size <;> simp [there]
    · simp [same]
  refine Confined.law.bind (state_confined seen) fun _ _ => .modifyGet ?_ fun machine => ?_
  · refine fun one other alike => ⟨rfl, alike.statics, fun place visible => ?_, alike.depth,
      alike.host⟩
    rw [changed, changed, alike.states id seen, alike.states place visible]
  · refine ⟨fun _ _ => rfl, fun place hidden => ?_, rfl, rfl⟩
    have distinct : id ≠ place := fun same => hidden (same ▸ seen)
    rw [changed, if_neg distinct]

/-- What the host does depends on the host alone, and changes nothing else. -/
theorem host_confined (ask : σ → α × σ) :
    Confined view (MonadStateOf.modifyGet (fun machine : Machine σ =>
      ((ask machine.host).1, { machine with host := (ask machine.host).2 })) : Exec σ α)
      fun _ => True := by
  refine .modifyGet (fun one other alike => ?_) fun machine => ?_
  · rw [alike.host]
    exact ⟨rfl, alike.withHost rfl⟩
  · exact ⟨fun _ _ => rfl, fun _ _ => rfl, rfl, rfl⟩

variable [Host σ]

/-- A value in sight can be read. -/
theorem load_confined (model : Model) (frame : Frame) {slot : Slot}
    (seen : ∀ id, granted.var (.static id) → view.statics id) (known : slot.Granted granted) :
    Confined (σ := σ) view (load model frame slot) fun _ => True := by
  cases slot with
  | static id index =>
    have found : Confined (σ := σ) view
        (get >>= fun machine => require (machine.statics.read? id index) >>= pure) fun _ => True :=
      .lookup (fun _ _ alike => alike.read? (seen id known) index) fun _ =>
        Confined.law.pure trivial
    simpa [load] using found
  | localVar id index =>
    have found : Confined (σ := σ) view (require (frame.memory.read? id index) >>= pure)
        fun _ => True := .require fun _ _ => Confined.law.pure trivial
    simpa [load] using found
  | external id =>
    refine .require fun external _ => ?_
    exact Confined.law.bind (host_confined (Host.read external.name)) fun _ _ =>
      Confined.law.pure trivial

/-- A value in sight can be changed. -/
theorem store_confined (model : Model) (frame : Frame) {slot : Slot}
    (value : Int64) (seen : ∀ id, granted.var (.static id) → view.statics id)
    (known : slot.Granted granted) :
    Confined (σ := σ) view (store model frame slot value) fun _ => True := by
  cases slot with
  | static id index =>
    have visible := seen id known
    refine .require fun storage _ => .lookup (fun _ _ alike => alike.read? visible index) ?_
    intro old
    refine Confined.law.bind (.modifyGet ?_ fun machine => ?_) fun _ _ => Confined.law.pure trivial
    · refine fun one other alike => ⟨rfl, fun place visible => ?_, alike.states, alike.depth,
        alike.host⟩
      simp only [Memory.write, Array.getElem?_modify, alike.statics place visible]
    · refine ⟨fun place hidden => ?_, fun _ _ => rfl, rfl, rfl⟩
      have distinct : id ≠ place := fun same => hidden (same ▸ visible)
      simp [Memory.write, Array.getElem?_modify, distinct]
  | localVar id index =>
    exact .require fun _ _ => .require fun _ _ => Confined.law.pure trivial
  | external id =>
    refine .require fun external _ => ?_
    have asked : Confined (σ := σ) view (writeExternal external value) fun _ => True :=
      host_confined fun host =>
        ((), Host.write external.name (externalValue external.kind value) host)
    exact Confined.law.bind asked fun _ _ => Confined.law.pure trivial

/-! ## Code -/

section Code

variable {program : Program} {callees : Callees σ} {granted : References}
  (seen : ∀ id, granted.var (.static id) → view.statics id)
  (functions : ∀ id args, Confined view (callees.function id args) fun _ => True)

include seen functions

/-- An expression looks at variables in sight, and at what functions do. -/
theorem reads_confined (model : Model) :
    Reads (Confined view) model callees (fun _ => True) (Slot.Granted granted) granted where
  locate frame _ index _ known := locate_confined model frame index seen known
  load frame _ _ known := load_confined model frame seen known
  function id args _ := functions id args
  external _ args _ := .require fun external _ => host_confined (Host.call external.name args)

/-- An instruction is confined if all is in sight that it refers to. -/
theorem execute_confined {own : Option CoroutineId}
    (states : ∀ id, granted.subroutine id ∨ own = some id → view.states id)
    (coroutines : ∀ id, granted.subroutine id →
      Confined view (callees.coroutine id) fun _ => True)
    {instr : Instr} (refers : instr.Refers granted) (frame : Frame) :
    Confined view (execute program callees own frame instr) fun _ => True := by
  have drives : Drives (Confined view) (fun _ => True) program callees own granted :=
    ⟨coroutines, fun _ _ => ⟨fun _ => trivial, fun _ => trivial⟩,
      fun id known => state_confined (states id known),
      fun id value known => setState_confined (states id known) value⟩
  exact Confined.law.execute (reads_confined seen functions program.model)
    (fun frame _ value _ known => store_confined program.model frame value seen known)
    drives trivial refers

end Code

end Exec

end Coro
