import Coro.Proofs.Program.Reference

/-!
Laws about runs.

What can be said of single steps, and of runs in sequence, can be said of all code. The argument
follows expressions, instructions and code once for all laws: a law only has to tell what it means
for the variables, functions and subroutines that the code refers to.
-/

namespace Coro

/-- The variable that a slot is part of. -/
def Slot.var : Slot → Var
  | .static id _ => .static id
  | .localVar id _ => .localVar id
  | .external id => .external id

/-- A slot is one of the variables that may be referred to. -/
def Slot.Granted (granted : References) : Slot → Prop
  | .static id _ => granted.var (.static id)
  | _ => True

theorem Slot.granted_of_var {granted : References} {slot : Slot} (known : granted.var slot.var) :
    slot.Granted granted := by
  cases slot with
  | static id index => exact known
  | _ => trivial

/-- Everything may be referred to. -/
def References.everything : References where
  var _ := True
  callee _ := True
  subroutine _ := True

mutual

/-- An expression refers to something. -/
theorem Expr.refers_everything (expr : Expr) : expr.Refers .everything := by
  cases expr with
  | const value => trivial
  | read var => trivial
  | element var index => exact ⟨trivial, index.refers_everything⟩
  | call callee args => exact ⟨trivial, Expr.refersAll_everything args⟩
  | unary op operand =>
    have inner := operand.refers_everything
    exact inner
  | binary op left right => exact ⟨left.refers_everything, right.refers_everything⟩

theorem Expr.refersAll_everything (exprs : List Expr) : Expr.RefersAll .everything exprs := by
  cases exprs with
  | nil => trivial
  | cons first rest => exact ⟨first.refers_everything, Expr.refersAll_everything rest⟩

end

/-- An instruction refers to something. -/
theorem Instr.refers_everything (instr : Instr) : instr.Refers .everything := by
  cases instr with
  | jumpIfFalse condition label | returnUnless condition hint => exact condition.refers_everything
  | assign place op value =>
    exact ⟨⟨trivial, fun index _ => index.refers_everything⟩, value.refers_everything⟩
  | eval expr => exact expr.refers_everything
  | returnFrom value => exact fun expr _ => expr.refers_everything
  | _ => trivial

theorem Slot.granted_everything (slot : Slot) : slot.Granted .everything :=
  granted_of_var trivial

namespace Exec

@[simp] theorem require_some {σ κ α : Type} (value : α) :
    require (σ := σ) (κ := κ) (some value) = pure value :=
  rfl

section

variable {σ κ : Type} [Host σ]

/-- The slot that an assignment changes, and the value for it. -/
def assignment (model : Model) (callees : Callees σ κ) (frame : Frame) (place : Place)
    (op : Option BinaryOp) (value : Expr) : ExecWith σ κ (Slot × Int64) := do
  let slot ← slotOf model callees frame place
  let value ← eval model callees frame value
  match op with
  | none => return (slot, value)
  | some op => return (slot, ← Exec.compute op (← load model frame slot) value)

/-- An assignment finds a slot and a value, and stores it there. -/
theorem assign_eq (model : Model) (callees : Callees σ κ) (frame : Frame) (place : Place)
    (op : Option BinaryOp) (value : Expr) :
    assign model callees frame place op value =
      assignment model callees frame place op value >>= fun found =>
        store model frame found.1 found.2 := by
  simp only [assign, assignment, bind_assoc]
  refine bind_congr fun slot => bind_congr fun value => ?_
  cases op <;> simp

end

variable {σ : Type}

/-- Something that holds of runs and their values, and of all that is made of such runs. -/
structure Law (holds : {α : Type} → Exec σ α → (α → Prop) → Prop) (stops : Halt → Prop) :
    Prop where
  pure : ∀ {α : Type} {value : α} {post : α → Prop}, post value → holds (Pure.pure value) post
  bind : ∀ {α β : Type} {first : Exec σ α} {next : α → Exec σ β} {middle : α → Prop}
    {post : β → Prop}, holds first middle → (∀ value, middle value → holds (next value) post) →
    holds (first >>= next) post
  throw : ∀ {α : Type} {halt : Halt} {post : α → Prop}, stops halt →
    holds (MonadExcept.throw halt) post
  enter : ∀ {α : Type} {body : Exec σ α} {post : α → Prop}, holds body post →
    holds (Exec.enter body) post
  /-- Every program may fault. -/
  fault : ∀ fault, stops (.fault fault)
  /-- Every run may be given too little. -/
  outOfFuel : stops .outOfFuel

namespace Law

variable {holds : {α : Type} → Exec σ α → (α → Prop) → Prop} {stops : Halt → Prop} {α β : Type}

variable (law : Law holds stops)

include law

theorem weaken {run : Exec σ α} {post post' : α → Prop} (known : holds run post)
    (implies : ∀ value, post value → post' value) : holds run post' := by
  -- A run is itself in sequence with a run that does nothing.
  rw [← bind_pure run]
  exact law.bind known fun value given => law.pure (implies value given)

/-- What is looked up may be relied on. -/
theorem require {found : Option β} {next : β → Exec σ α} {post : α → Prop}
    (missing : found = none → stops .dangling)
    (late : ∀ value, found = some value → holds (next value) post) :
    holds (Exec.require found >>= next) post := by
  cases known : found with
  | none =>
    have stopped : holds (Exec.require none) fun _ : β => False := law.throw (missing known)
    exact law.bind stopped fun _ impossible => impossible.elim
  | some value =>
    have given : holds (Exec.require (some value)) (· = value) := law.pure rfl
    refine law.bind given fun other same => ?_
    rw [same]
    exact late value known

theorem compute (op : BinaryOp) (left right : Int64) :
    holds (Exec.compute op left right) fun _ => True := by
  simp only [Exec.compute]
  split
  · exact law.pure trivial
  · exact law.throw (law.fault _)

theorem checkIndex (name : String) (size : Nat) (index : Int64) :
    holds (Exec.checkIndex name size index) (· < size) := by
  simp only [Exec.checkIndex]
  split
  · rename_i inside
    exact law.pure (show index.toInt.toNat < size by omega)
  · exact law.throw (law.fault _)

/-- What holds of the run for each element holds of all of them. -/
theorem forM {list : List β} {each : β → Exec σ Unit}
    (known : ∀ value ∈ list, holds (each value) fun _ => True) :
    holds (list.forM each) fun _ => True := by
  induction list with
  | nil => exact law.pure trivial
  | cons first rest ih =>
    refine law.bind (known first (by simp)) fun _ _ => ih fun value member => ?_
    exact known value (by simp [member])

end Law

/-- A law under which runs may look at the whole machine, and stop where something is missing. -/
structure OpenLaw (holds : {α : Type} → Exec σ α → (α → Prop) → Prop) : Prop
    extends Law holds fun _ => True where
  get : ∀ {α : Type} {next : Machine σ → Exec σ α} {post : α → Prop},
    (∀ machine, holds (next machine) post) → holds (MonadState.get >>= next) post

namespace OpenLaw

variable {holds : {α : Type} → Exec σ α → (α → Prop) → Prop} {model : Model} {frame : Frame}

/-- What follows several laws follows one. -/
theorem all {ι : Type} {each : ι → {α : Type} → Exec σ α → (α → Prop) → Prop}
    (laws : ∀ one, OpenLaw (each one)) : OpenLaw fun run post => ∀ one, each one run post where
  pure given := fun one => (laws one).pure given
  bind early late := fun one => (laws one).bind (early one) fun value given => late value given one
  throw stopped := fun one => (laws one).throw stopped
  enter inner := fun one => (laws one).enter (inner one)
  fault _ := trivial
  outOfFuel := trivial
  get late := fun one => (laws one).get fun machine => late machine one

variable (law : OpenLaw holds)

include law

theorem found {α : Type} (value : Option α) : holds (Exec.require value) fun _ => True := by
  cases value with
  | none => exact law.throw trivial
  | some value => exact law.pure trivial

/-- A slot that is found is part of the variable that it was looked for in. -/
theorem locate (frame : Frame) (var : Var) (index : Int64) :
    holds (Exec.locate model frame var index) (·.var = var) := by
  cases var with
  | static id =>
    refine law.bind (law.found _) fun storage _ => law.get fun machine => ?_
    refine law.bind (law.found _) fun cells _ => ?_
    exact law.bind (law.checkIndex _ _ _) fun _ _ => law.pure rfl
  | localVar id =>
    refine law.bind (law.found _) fun known _ => law.bind (law.found _) fun cells _ => ?_
    exact law.bind (law.checkIndex _ _ _) fun _ _ => law.pure rfl
  | external id => exact law.pure rfl

theorem state (id : CoroutineId) : holds (Exec.state id) fun _ => True :=
  law.get fun _ => law.found _

variable [Host σ]

/-- A read asks the host at most. -/
theorem load (read : ∀ external, holds (readExternal external) fun _ => True) (frame : Frame)
    (slot : Slot) : holds (Exec.load model frame slot) fun _ => True := by
  cases slot with
  | static id index => exact law.get fun _ => law.found _
  | localVar id index => exact law.found _
  | external id => exact law.bind (law.found _) fun external _ => read external

/-- A store changes a variable or the host. -/
theorem store {framed : Frame → Prop} (fits : framed frame) {slot : Slot} {value : Int64}
    (own : ∀ id index known, slot = .localVar id index → frame.locals[id]? = some known →
      framed { frame with memory := frame.memory.write id index (known.type.wrap value) })
    (static : ∀ id index storage, slot = .static id index → model.statics[id]? = some storage →
      holds (modify fun machine => { machine with
        statics := machine.statics.write id index (storage.type.wrap value) }) fun _ => True)
    (written : ∀ id external, slot = .external id → model.externals[id]? = some external →
      holds (writeExternal external value) fun _ => True) :
    holds (Exec.store model frame slot value) framed := by
  cases slot with
  | static id index =>
    refine law.require (fun _ => trivial) fun storage listed => law.get fun machine => ?_
    refine law.bind (law.found _) fun old _ => ?_
    exact law.bind (static id index storage rfl listed) fun _ _ => law.pure fits
  | localVar id index =>
    refine law.require (fun _ => trivial) fun known listed => law.bind (law.found _) fun old _ => ?_
    exact law.pure (own id index known rfl listed)
  | external id =>
    refine law.require (fun _ => trivial) fun external listed => ?_
    exact law.bind (written id external rfl listed) fun _ _ => law.pure fits

end OpenLaw

variable [Host σ]

/-- What expressions may refer to can be looked up, wherever local variables are as they should. -/
structure Reads (holds : {α : Type} → Exec σ α → (α → Prop) → Prop) (model : Model)
    (callees : Callees σ) (framed : Frame → Prop) (slots : Slot → Prop) (granted : References) :
    Prop where
  locate : ∀ frame var index, framed frame → granted.var var →
    holds (locate model frame var index) slots
  load : ∀ frame slot, framed frame → slots slot → holds (load model frame slot) fun _ => True
  function : ∀ id args, granted.callee (.function id) →
    holds (callees.function id args) fun _ => True
  external : ∀ id args, granted.callee (.external id) →
    holds (Exec.require model.externals[id]? >>= (callExternal · args)) fun _ => True

namespace Law

variable {holds : {α : Type} → Exec σ α → (α → Prop) → Prop} {stops : Halt → Prop}

section Expressions

variable {model : Model} {callees : Callees σ} {framed : Frame → Prop} {slots : Slot → Prop}
  {granted : References} {frame : Frame}

mutual

/-- A law about what an expression refers to holds of its evaluation. -/
theorem eval (law : Law holds stops) (reads : Reads holds model callees framed slots granted)
    (fits : framed frame) {expr : Expr} (refers : expr.Refers granted) :
    holds (Exec.eval model callees frame expr) fun _ => True := by
  cases expr with
  | const value => exact law.pure trivial
  | read var =>
    exact law.bind (reads.locate frame var 0 fits refers) fun slot known =>
      reads.load frame slot fits known
  | element var index =>
    -- The index is evaluated before the variable is looked up.
    refine law.bind (eval law reads fits refers.2) fun value _ => ?_
    exact law.bind (reads.locate frame var value fits refers.1) fun slot known =>
      reads.load frame slot fits known
  | call callee args =>
    refine law.bind (evalAll law reads fits refers.2) fun values _ => ?_
    cases callee with
    | function id => exact reads.function id values refers.1
    | external id => exact reads.external id values refers.1
  | unary op operand =>
    have known : operand.Refers granted := refers
    have inner := eval law reads fits known
    exact law.bind inner fun _ _ => law.pure trivial
  | binary op left right =>
    have first := eval law reads fits refers.1
    have second := eval law reads fits refers.2
    -- A logical operator looks at its right side only behind some values of its left side.
    cases op
    case logicAnd =>
      refine law.bind first fun value _ => ?_
      split
      · exact law.pure trivial
      · exact law.bind second fun _ _ => law.pure trivial
    case logicOr =>
      refine law.bind first fun value _ => ?_
      split
      · exact law.pure trivial
      · exact law.bind second fun _ _ => law.pure trivial
    all_goals exact law.bind first fun _ _ => law.bind second fun _ _ => law.compute _ _ _

theorem evalAll (law : Law holds stops) (reads : Reads holds model callees framed slots granted)
    (fits : framed frame) {exprs : List Expr} (refers : Expr.RefersAll granted exprs) :
    holds (Exec.evalAll model callees frame exprs) fun _ => True := by
  cases exprs with
  | nil => exact law.pure trivial
  | cons first rest =>
    refine law.bind (eval law reads fits refers.1) fun _ _ => ?_
    exact law.bind (evalAll law reads fits refers.2) fun _ _ => law.pure trivial

end

/-- A law about what an assignment refers to holds of finding its slot and its value. -/
theorem assignment (law : Law holds stops)
    (reads : Reads holds model callees framed slots granted) (fits : framed frame) {place : Place}
    (op : Option BinaryOp) {value : Expr} (placed : place.Refers granted)
    (refers : value.Refers granted) :
    holds (Exec.assignment model callees frame place op value) fun found => slots found.1 := by
  have slot : holds (slotOf model callees frame place) slots := by
    simp only [slotOf]
    split
    · exact reads.locate frame _ 0 fits placed.1
    · rename_i index present
      refine law.bind (law.eval reads fits (placed.2 index present)) fun value _ => ?_
      exact reads.locate frame _ value fits placed.1
  refine law.bind slot fun slot known => law.bind (law.eval reads fits refers) fun value _ => ?_
  -- A compound assignment reads the old value last.
  cases op with
  | none => exact law.pure known
  | some op =>
    refine law.bind (reads.load frame slot fits known) fun old _ => ?_
    exact law.bind (law.compute op old value) fun _ _ => law.pure known

end Expressions

end Law

/-- What the code of a body does to states: its own one, and those of the subroutines it drives. -/
structure Drives (holds : {α : Type} → Exec σ α → (α → Prop) → Prop) (stops : Halt → Prop)
    (program : Program) (callees : Callees σ) (own : Option CoroutineId) (granted : References) :
    Prop where
  coroutine : ∀ id, granted.subroutine id → holds (callees.coroutine id) fun _ => True
  known : ∀ id, granted.subroutine id ∨ own = some id →
    (program.coroutines[id]? = none → stops .dangling) ∧
    (program.model.coroutines[id]? = none → stops .dangling)
  state : ∀ id, granted.subroutine id ∨ own = some id → holds (state id) fun _ => True
  setState : ∀ id value, granted.subroutine id ∨ own = some id →
    holds (setState id value) fun _ => True

omit [Host σ] in
theorem OpenLaw.drives {holds : {α : Type} → Exec σ α → (α → Prop) → Prop} (law : OpenLaw holds)
    {program : Program} {callees : Callees σ} (own : Option CoroutineId) {granted : References}
    (changed : ∀ id value, holds (modify fun machine : Machine σ => { machine with
      states := machine.states.setIfInBounds id value }) fun _ => True)
    (coroutines : ∀ id, granted.subroutine id → holds (callees.coroutine id) fun _ => True) :
    Drives holds (fun _ => True) program callees own granted where
  coroutine := coroutines
  known _ _ := ⟨fun _ => trivial, fun _ => trivial⟩
  state id _ := law.state id
  setState id value _ := law.bind (law.state id) fun _ _ => changed id value

namespace Law

variable {holds : {α : Type} → Exec σ α → (α → Prop) → Prop} {stops : Halt → Prop}
  {program : Program} {callees : Callees σ} {own : Option CoroutineId} {framed : Frame → Prop}
  {slots : Slot → Prop} {granted : References} {code : Code} {frame : Frame}

variable (law : Law holds stops)

include law

/-- A law about what an instruction refers to holds of the instruction, assignments apart. -/
theorem executeOther (reads : Reads holds program.model callees framed slots granted)
    (drives : Drives holds stops program callees own granted) (fits : framed frame) {instr : Instr}
    (refers : instr.Refers granted) (other : ∀ place op value, instr ≠ .assign place op value) :
    holds (execute program callees own frame instr) fun result => framed result.2 := by
  cases instr with
  | setLabel label | jump label | suspend | resume point => exact law.pure fits
  | jumpIfFalse condition label | returnUnless condition hint =>
    exact law.bind (law.eval reads fits refers) fun _ _ => law.pure fits
  | assign place op value => exact absurd rfl (other place op value)
  | eval expr => exact law.bind (law.eval reads fits refers) fun _ _ => law.pure fits
  | setState point =>
    cases own with
    | none => exact law.pure fits
    | some id => exact law.bind (drives.setState id _ (.inr rfl)) fun _ _ => law.pure fits
  | drive callee =>
    -- The subroutine goes on, and its state tells whether it has ended.
    refine law.bind (drives.coroutine callee refers) fun _ _ => ?_
    refine law.require (drives.known callee (.inl refers)).1 fun machine _ => ?_
    refine law.bind (drives.state callee (.inl refers)) fun state _ => ?_
    split
    · exact law.pure fits
    · exact law.bind (drives.setState callee _ (.inl refers)) fun _ _ => law.pure fits
  | finish =>
    cases own with
    | none => exact law.pure fits
    | some id =>
      refine law.require (drives.known id (.inr rfl)).2 fun coroutine _ => ?_
      refine law.require (drives.known id (.inr rfl)).1 fun machine _ => ?_
      exact law.bind (drives.setState id _ (.inr rfl)) fun _ _ => law.pure fits
  | returnFrom value =>
    cases value with
    | none => exact law.pure fits
    | some value =>
      exact law.bind (law.eval reads fits (refers value rfl)) fun _ _ => law.pure fits

/-- A law about what an instruction refers to holds of the instruction. -/
theorem execute (reads : Reads holds program.model callees framed slots granted)
    (store : ∀ frame slot value, framed frame → slots slot →
      holds (Exec.store program.model frame slot value) framed)
    (drives : Drives holds stops program callees own granted)
    (fits : framed frame) {instr : Instr} (refers : instr.Refers granted) :
    holds (Exec.execute program callees own frame instr) fun result => framed result.2 := by
  cases instr with
  | assign place op value =>
    simp only [Exec.execute, assign_eq, bind_assoc]
    refine law.bind (law.assignment reads fits op refers.1 refers.2) fun found known => ?_
    exact law.bind (store frame found.1 found.2 fits known) fun _ fits => law.pure fits
  | _ => exact law.executeOther reads drives fits refers fun _ _ _ same => by cases same

/-- What holds of each instruction holds of running the code, and of the value it is left with. -/
theorem runValue (final : Option Int64 → Prop) (ended : final none)
    (each : ∀ instr ∈ code, ∀ frame, framed frame →
      holds (Exec.execute program callees own frame instr) fun result =>
        framed result.2 ∧ ∀ value, result.1 = .leave value → final value)
    (fuel : Nat) {rest : Code} (part : rest <:+ code) (fits : framed frame) :
    holds (Exec.run program callees own code fuel rest frame) fun result => final result.1 := by
  -- A jump leads to some other part of the same code.
  induction fuel generalizing rest frame with
  | zero => exact law.throw law.outOfFuel
  | succ fuel ih =>
    cases rest with
    | nil => exact law.pure ended
    | cons instr rest =>
      refine law.bind (each instr (part.subset (by simp)) frame fits) ?_
      rintro ⟨control, frame⟩ ⟨fits, left⟩
      cases control with
      | next => exact ih ((List.suffix_cons _ _).trans part) fits
      | jump label => exact ih (List.dropWhile_suffix _) fits
      | leave value => exact law.pure (left value rfl)

/-- What holds of each instruction holds of running the code, from wherever it is gone on with. -/
theorem run (each : ∀ instr ∈ code, ∀ frame, framed frame →
      holds (Exec.execute program callees own frame instr) fun result => framed result.2)
    (fuel : Nat) {rest : Code} (part : rest <:+ code) (fits : framed frame) :
    holds (Exec.run program callees own code fuel rest frame) fun _ => True := by
  refine law.runValue (fun _ => True) trivial (fun instr member frame fits => ?_) fuel part fits
  exact law.weaken (each instr member frame fits) fun _ kept => ⟨kept, fun _ _ => trivial⟩

/-- What holds of each instruction of a body holds of the body. -/
theorem runBody {locals : List Local} {args : List Int64}
    (each : ∀ instr ∈ code, ∀ frame, framed frame →
      holds (Exec.execute program callees none frame instr) fun result => framed result.2)
    (fuel : Nat) (fits : framed (.enter locals args)) :
    holds (Exec.runBody program fuel callees locals code args) fun _ => True := by
  have body := law.run each fuel List.suffix_rfl fits
  exact law.bind (law.enter body) fun _ _ => law.pure trivial

/-- What holds of each instruction of a coroutine holds of letting it go on. -/
theorem runCoroutine {id : CoroutineId}
    (known : program.coroutines[id]? = none → stops .dangling)
    (state : holds (Exec.state id) fun _ => True)
    (each : ∀ machine, program.coroutines[id]? = some machine → ∀ instr ∈ machine.code,
      ∀ frame, framed frame →
        holds (Exec.execute program callees (some id) frame instr) fun result => framed result.2)
    (fuel : Nat) (fits : framed (.enter [] [])) :
    holds (Exec.runCoroutine program fuel callees id) fun _ => True := by
  refine law.require known fun machine found => law.bind state fun state _ => ?_
  -- Wherever it goes on, it does so in its own code.
  have body := law.run (each machine found) fuel (machine.resumeCode_suffix state) fits
  exact law.bind (law.enter body) fun _ _ => law.pure trivial

end Law

/-- What a body can start follows a law, as far as coroutines matter. -/
structure Follows (holds : {α : Type} → Exec σ α → (α → Prop) → Prop) (good : CoroutineId → Prop)
    (callees : Callees σ) : Prop where
  function : ∀ id args, holds (callees.function id args) fun _ => True
  coroutine : ∀ id, good id → holds (callees.coroutine id) fun _ => True

namespace Law

variable {holds : {α : Type} → Exec σ α → (α → Prop) → Prop} {program : Program}
  {good : CoroutineId → Prop}

variable (law : Law holds fun _ => True)

include law

/-- What holds of each instruction of a body holds of the body, whatever its local variables are. -/
theorem anyBody {callees : Callees σ} {code : Code}
    (each : ∀ instr ∈ code, ∀ frame,
      holds (Exec.execute program callees none frame instr) fun _ => True)
    (fuel : Nat) {locals : List Local} {args : List Int64} :
    holds (Exec.runBody program fuel callees locals code args) fun _ => True := by
  have framed : ∀ instr ∈ code, ∀ frame : Frame, True →
      holds (Exec.execute program callees none frame instr) fun _ => True :=
    fun instr member frame _ => each instr member frame
  exact law.runBody framed fuel trivial

/-- What holds of the instructions of functions and coroutines holds of all that can be started. -/
theorem callees (state : ∀ id, good id → holds (Exec.state id) fun _ => True)
    (functions : ∀ callees, Follows holds good callees → ∀ id code,
      program.code? (.function id) = some code → ∀ instr ∈ code, ∀ frame,
        holds (Exec.execute program callees none frame instr) fun _ => True)
    (coroutines : ∀ callees, Follows holds good callees → ∀ id, good id → ∀ machine,
      program.coroutines[id]? = some machine → ∀ instr ∈ machine.code, ∀ frame,
        holds (Exec.execute program callees (some id) frame instr) fun _ => True)
    (fuel levels : Nat) : Follows holds good (Exec.callees program fuel levels) := by
  -- By induction on the depth of calls: a body follows the law if all that it can start does.
  induction levels with
  | zero => exact ⟨fun _ _ => law.throw trivial, fun _ _ => law.throw trivial⟩
  | succ levels ih =>
    refine ⟨fun id args => law.require (fun _ => trivial) fun function _ =>
      law.require (fun _ => trivial) fun code made => ?_, fun id known => ?_⟩
    · exact law.bind (law.anyBody (functions _ ih id code made) fuel) fun _ _ => law.pure trivial
    · have each : ∀ machine, program.coroutines[id]? = some machine → ∀ instr ∈ machine.code,
          ∀ frame : Frame, True → holds
            (Exec.execute program (Exec.callees program fuel levels) (some id) frame instr)
            fun _ => True :=
        fun machine found instr member frame _ =>
          coroutines _ ih id known machine found instr member frame
      exact law.runCoroutine (fun _ => trivial) (state id known) each fuel trivial

/-- What holds of the instructions of a hook holds of the hook. -/
theorem hook {fuel : Nat} {id : HookId}
    (each : ∀ code, program.code? (.hook id) = some code → ∀ instr ∈ code, ∀ frame,
      holds (Exec.execute program (outermost program fuel) none frame instr) fun _ => True) :
    holds (Exec.hook program fuel id) fun _ => True :=
  law.require (fun _ => trivial) fun _ _ => law.require (fun _ => trivial) fun code made =>
    law.bind (law.anyBody (each code made) fuel) fun _ _ => law.pure trivial

end Law

end Exec

end Coro
