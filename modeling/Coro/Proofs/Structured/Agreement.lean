import Coro.Proofs.Structured.Encoding

/-!
Runs that do the same step by step, whichever way they keep what coroutines are doing.

The argument follows the statements of a body once for all actions that agree with each other.
-/

namespace Coro

/-- Two runs end in the same way, and the machine of the one is kept by that of the other. -/
inductive OutcomeAgrees {σ α β : Type} (model : Model) (allowed : Array Activity → Prop)
    (same : α → β → Prop) :
    EStateM.Result Halt (Machine σ Activity) α → EStateM.Result Halt (Machine σ) β → Prop where
  | ok {value other machine} : same value other → model.Fits machine → allowed machine.states →
      OutcomeAgrees model allowed same (.ok value machine) (.ok other (model.encode machine))
  | error {halt machine} : model.Fits machine → allowed machine.states →
      OutcomeAgrees model allowed same (.error halt machine) (.error halt (model.encode machine))

/-- A run that ends with a machine that keeps the other one. -/
theorem OutcomeAgrees.done {σ α β : Type} {model : Model} {allowed : Array Activity → Prop}
    {same : α → β → Prop} {value : α} {other : β} {machine : Machine σ Activity}
    {encoded : Machine σ} (kept : model.encode machine = encoded) (agrees : same value other)
    (fits : model.Fits machine) (held : allowed machine.states) :
    OutcomeAgrees model allowed same (.ok value machine) (.ok other encoded) :=
  kept ▸ .ok agrees fits held

/-- Two runs agree wherever coroutines do something that is allowed, and it stays allowed. -/
def Exec.Agrees {σ α β : Type} (model : Model) (allowed : Array Activity → Prop)
    (same : α → β → Prop) (steps : ExecWith σ Activity α) (encoded : Exec σ β) : Prop :=
  ∀ machine, model.Fits machine → allowed machine.states →
    OutcomeAgrees model allowed same (steps machine) (encoded (model.encode machine))

namespace Exec.Agrees

variable {σ α β γ δ : Type} {model : Model} {allowed : Array Activity → Prop}
  {same : α → β → Prop} {same' : γ → δ → Prop}

theorem pure {value : α} {other : β} (agrees : same value other) :
    Agrees (σ := σ) model allowed same (Pure.pure value) (Pure.pure other) :=
  fun _ fits held => .ok agrees fits held

theorem throw (halt : Halt) :
    Agrees (σ := σ) model allowed same (MonadExcept.throw halt) (MonadExcept.throw halt) :=
  fun _ fits held => .error fits held

section Sequence

variable {first : ExecWith σ Activity α} {first' : Exec σ β} {next : α → ExecWith σ Activity γ}
  {next' : β → Exec σ δ}

/-- Runs in sequence, of which the last one may do more than the others. -/
theorem bindLast {bound : Array Activity → Prop} (early : Agrees model bound same first first')
    (wider : ∀ states, bound states → allowed states)
    (late : ∀ value other, same value other → ∀ machine, model.Fits machine →
      bound machine.states →
      OutcomeAgrees model allowed same' (next value machine) (next' other (model.encode machine)))
    {machine : Machine σ Activity} (fits : model.Fits machine) (held : bound machine.states) :
    OutcomeAgrees model allowed same' ((first >>= next) machine)
      ((first' >>= next') (model.encode machine)) := by
  have outcome := early machine fits held
  simp only [Bind.bind, EStateM.bind]
  revert outcome
  generalize first machine = result
  generalize first' (model.encode machine) = result'
  rintro (⟨agrees, fits, held⟩ | ⟨fits, held⟩)
  · exact late _ _ agrees _ fits held
  · exact .error fits (wider _ held)

/-- Runs in sequence. -/
theorem bind (early : Agrees model allowed same first first')
    (late : ∀ value other, same value other →
      Agrees model allowed same' (next value) (next' other)) :
    Agrees model allowed same' (first >>= next) (first' >>= next') :=
  fun _ => early.bindLast (fun _ held => held) late

end Sequence

/-- The same for a list of runs. -/
theorem forM {list : List γ} {steps : γ → ExecWith σ Activity Unit} {encoded : γ → Exec σ Unit}
    (each : ∀ value, Agrees model allowed Eq (steps value) (encoded value)) :
    Agrees model allowed Eq (list.forM steps) (list.forM encoded) := by
  induction list with
  | nil => exact pure rfl
  | cons first rest ih => exact (each first).bind fun _ _ _ => ih

/-- What agrees in a stronger sense agrees in a weaker one. -/
theorem mono {weaker : α → β → Prop} {steps : ExecWith σ Activity α} {encoded : Exec σ β}
    (agrees : Agrees model allowed same steps encoded)
    (implies : ∀ value other, same value other → weaker value other) :
    Agrees model allowed weaker steps encoded := by
  intro machine fits held
  have outcome := agrees machine fits held
  revert outcome
  generalize steps machine = result
  generalize encoded (model.encode machine) = result'
  rintro (⟨agrees, fits, held⟩ | ⟨fits, held⟩)
  · exact .ok (implies _ _ agrees) fits held
  · exact .error fits held

/-- A run with a body that is active. -/
theorem enter {body : ExecWith σ Activity α} {body' : Exec σ β}
    (inner : Agrees model allowed same body body') :
    Agrees model allowed same (Exec.enter body) (Exec.enter body') := by
  intro machine fits held
  have outcome := inner { machine with depth := machine.depth + 1 }
    ⟨fits.statics, fits.memories, fits.points⟩ held
  have moved : model.encode { machine with depth := machine.depth + 1 } =
      { model.encode machine with depth := (model.encode machine).depth + 1 } := rfl
  rw [moved] at outcome
  have depth : (model.encode machine).depth = machine.depth := rfl
  simp only [Exec.enter, depth] at outcome ⊢
  split
  · revert outcome
    generalize body { machine with depth := machine.depth + 1 } = result
    generalize body' { model.encode machine with depth := machine.depth + 1 } = result'
    rintro (⟨agrees, fits, held⟩ | ⟨fits, held⟩)
    · exact .ok agrees ⟨fits.statics, fits.memories, fits.points⟩ held
    · exact .error ⟨fits.statics, fits.memories, fits.points⟩ held
  · exact .error fits held

end Exec.Agrees

/-- A relation between steps of bodies that holds of steps in sequence. -/
structure BodyStep.Congruence {σ κ κ' : Type}
    (related : {α : Type} → BodyStep σ κ α → BodyStep σ κ' α → Prop) : Prop where
  pure : ∀ {α : Type} (value : α), related (Pure.pure value) (Pure.pure value)
  throw : ∀ {α : Type} (halt : Halt),
    related (α := α) (MonadExcept.throw halt) (MonadExcept.throw halt)
  bind : ∀ {α β : Type} {first : BodyStep σ κ α} {first' : BodyStep σ κ' α}
    {next : α → BodyStep σ κ β} {next' : α → BodyStep σ κ' β}, related first first' →
    (∀ value, related (next value) (next' value)) → related (first >>= next) (first' >>= next')

/-- Steps of two bodies agree, and so do the local variables that they leave. -/
def BodyStep.Agrees {σ α : Type} (model : Model) (allowed : Array Activity → Prop)
    (frames : Frame → Frame → Prop) (steps : BodyStep σ Activity α)
    (encoded : BodyStep σ Nat α) : Prop :=
  ∀ frame frame', frames frame frame' →
    Exec.Agrees model allowed (fun result result' => result.1 = result'.1 ∧ frames result.2 result'.2)
      (steps.run frame) (encoded.run frame')

namespace BodyStep.Agrees

variable {σ α β : Type} {model : Model} {allowed : Array Activity → Prop}
  {frames : Frame → Frame → Prop}

theorem pure (value : α) :
    Agrees (σ := σ) model allowed frames (Pure.pure value) (Pure.pure value) :=
  fun _ _ framed => .pure ⟨rfl, framed⟩

theorem throw (halt : Halt) :
    Agrees (σ := σ) (α := α) model allowed frames (MonadExcept.throw halt)
      (MonadExcept.throw halt) := by
  intro frame frame' framed machine fits held
  exact .error fits held

theorem bind {first : BodyStep σ Activity α} {first' : BodyStep σ Nat α}
    {next : α → BodyStep σ Activity β} {next' : α → BodyStep σ Nat β}
    (early : Agrees model allowed frames first first')
    (late : ∀ value, Agrees model allowed frames (next value) (next' value)) :
    Agrees model allowed frames (first >>= next) (first' >>= next') := by
  intro frame frame' framed
  simp only [StateT.run_bind]
  refine (early frame frame' framed).bind ?_
  rintro ⟨value, after⟩ ⟨other, after'⟩ ⟨rfl, framed⟩
  exact late value after after' framed

/-- A run outside of the frame. -/
theorem lift {steps : ExecWith σ Activity α} {encoded : Exec σ α}
    (agrees : Exec.Agrees model allowed Eq steps encoded) :
    Agrees model allowed frames (StateT.lift steps) (StateT.lift encoded) := by
  intro frame frame' framed
  refine Exec.Agrees.bind agrees ?_
  rintro value _ rfl
  exact .pure ⟨rfl, framed⟩

theorem congruence : BodyStep.Congruence (BodyStep.Agrees (σ := σ) model allowed frames) :=
  ⟨pure, throw, bind⟩

end BodyStep.Agrees

/-- Everything that statements with so many points can do is related. -/
structure Actions.Agrees {σ κ κ' : Type}
    (related : {α : Type} → BodyStep σ κ α → BodyStep σ κ' α → Prop) (setting : BodySetting)
    (points : Nat) (actions : Actions σ κ) (encoded : Actions σ κ') : Prop
    extends BodyStep.Congruence related where
  parameters : actions.parameters = encoded.parameters
  /-- Parameters are static variables and no arrays. -/
  static : ∀ callee, ∀ parameter ∈ actions.parameters callee,
    setting.shapes.Allows setting.locals false (.static parameter)
  eval : ∀ expr, expr.WellFormedAlone setting → related (actions.eval expr) (encoded.eval expr)
  assign : ∀ place op value, place.WellFormed setting → value.WellFormed setting →
    related (actions.assign place op value) (encoded.assign place op value)
  suspendAt : setting.caller.isSome = true → ∀ point < points,
    related (actions.suspendAt point) (encoded.suspendAt point)
  drive : ∀ caller callee count, setting.caller = some caller →
    setting.shapes.CanCall caller callee count →
    related (actions.drive callee) (encoded.drive callee)
  finish : related actions.finish encoded.finish

namespace Actions.Agrees

variable {σ κ κ' : Type} {related : {α : Type} → BodyStep σ κ α → BodyStep σ κ' α → Prop}
  {setting : BodySetting} {points : Nat} {actions : Actions σ κ} {encoded : Actions σ κ'}
  (agrees : Actions.Agrees related setting points actions encoded) {condition : Expr}

include agrees

/-- Statements in sequence. -/
theorem thenDo {first next : BodyStep σ κ Exit} {first' next' : BodyStep σ κ' Exit}
    (early : related first first') (late : related next next') :
    related (Actions.thenDo first next) (Actions.thenDo first' next') := by
  refine agrees.bind early fun exit => ?_
  cases exit with
  | next => exact late
  | _ => exact agrees.pure _

/-- The rounds of a loop. -/
theorem repeatFrom {round current : BodyStep σ κ Exit} {round' current' : BodyStep σ κ' Exit}
    (each : related round round') (rounds : Nat) (now : related current current') :
    related (Actions.repeatFrom round rounds current)
      (Actions.repeatFrom round' rounds current') := by
  induction rounds generalizing current current' with
  | zero =>
    rw [repeatFrom.eq_def, repeatFrom.eq_def]
    refine agrees.bind now fun exit => ?_
    cases exit with
    | breakLoop | leave => exact agrees.pure _
    | next | continueLoop => exact agrees.throw _
  | succ rounds ih =>
    rw [repeatFrom.eq_def, repeatFrom.eq_def]
    refine agrees.bind now fun exit => ?_
    cases exit with
    | breakLoop | leave => exact agrees.pure _
    | next | continueLoop => exact ih each

/-- A value that decides how to go on. -/
theorem decide {α : Type} (formed : condition.WellFormed setting)
    {zero other : BodyStep σ κ α} {zero' other' : BodyStep σ κ' α} (onZero : related zero zero')
    (onOther : related other other') :
    related (actions.eval condition >>= fun value => if value = 0 then zero else other)
      (encoded.eval condition >>= fun value => if value = 0 then zero' else other') := by
  refine agrees.bind (agrees.eval condition formed.alone) fun value => ?_
  split
  · exact onZero
  · exact onOther

/-- Arguments that are stored. -/
theorem pass (callee : CoroutineId) {args : List Expr}
    (formed : Expr.WellFormedAll setting args) :
    related (actions.pass callee args) (encoded.pass callee args) := by
  rw [Actions.pass, Actions.pass, ← agrees.parameters]
  have known := agrees.static callee
  generalize actions.parameters callee = parameters at known ⊢
  induction parameters generalizing args with
  | nil => exact agrees.pure _
  | cons parameter rest ih =>
    cases args with
    | nil => exact agrees.pure _
    | cons arg others =>
      refine agrees.bind ?_ fun _ => ?_
      · exact agrees.assign _ none arg
          ⟨known parameter (by simp), fun index same => by cases same⟩ formed.1
      · exact ih formed.2 fun other member => known other (by simp [member])

/-- A wait agrees if its condition is well formed. -/
theorem wait (formed : condition.WellFormed setting) :
    related (actions.wait condition) (encoded.wait condition) :=
  agrees.decide formed (agrees.pure _) (agrees.pure _)

/-- A subroutine that is waited for. -/
theorem await {callee : CoroutineId} {count : Nat}
    (callable : ∃ caller, setting.caller = some caller ∧
      setting.shapes.CanCall caller callee count) :
    related (actions.await callee) (encoded.await callee) := by
  obtain ⟨caller, here, possible⟩ := callable
  refine agrees.bind (agrees.drive caller callee count here possible) fun ended => ?_
  split
  · exact agrees.pure _
  · exact agrees.pure _

/-- A round of a loop with a condition. -/
theorem guarded (formed : condition.WellFormed setting) {body : BodyStep σ κ Exit}
    {body' : BodyStep σ κ' Exit} (inner : related body body') :
    related (actions.guarded condition body) (encoded.guarded condition body') :=
  agrees.decide formed (agrees.pure _) inner

omit agrees

mutual

/-- Every statement does the same with actions that agree. -/
theorem exec (agrees : Actions.Agrees related setting points actions encoded) (fuel point : Nat)
    {inLoop : Bool} (statement : Stmt) (formed : statement.WellFormed setting inLoop)
    (within : point + statement.pointCount ≤ points) :
    related (actions.exec fuel point statement) (encoded.exec fuel point statement) := by
  cases statement with
  | letVar id value =>
    cases value with
    | none => exact agrees.pure _
    | some value =>
      obtain ⟨⟨length, found, plain⟩, inner⟩ := formed
      have known : setting.shapes.Allows setting.locals false (.localVar id) :=
        ⟨length, found, by simp [plain rfl]⟩
      exact agrees.bind (agrees.assign ⟨.localVar id, none⟩ none value ⟨known, nofun⟩
        (inner value rfl)) fun _ => agrees.pure _
  | yield location =>
    have inside : point < points := by simp only [Stmt.pointCount] at within; omega
    exact agrees.bind (agrees.suspendAt formed point inside) fun _ => agrees.pure _
  | waitUntil condition hint location =>
    have inside : point < points := by simp only [Stmt.pointCount] at within; omega
    exact agrees.bind (agrees.suspendAt formed.1 point inside) fun _ => agrees.wait formed.2
  | call callee args location =>
    have inside : point < points := by simp only [Stmt.pointCount] at within; omega
    obtain ⟨caller, here, -⟩ := formed.1
    exact agrees.bind (agrees.pass callee formed.2) fun _ =>
      agrees.bind (agrees.suspendAt (by simp [here]) point inside) fun _ => agrees.await formed.1
  | ifThen condition taken otherwise =>
    simp only [Stmt.pointCount] at within
    have first := execAll agrees fuel point taken formed.2.1 (by omega)
    have second := execAll agrees fuel (point + Stmt.pointCounts taken) otherwise formed.2.2
      (by omega)
    exact agrees.decide formed.1 second first
  | whileLoop condition body =>
    have inner := execAll agrees fuel point body formed.2 within
    exact agrees.repeatFrom (agrees.guarded formed.1 inner) fuel (agrees.guarded formed.1 inner)
  | loop body =>
    have inner := execAll agrees fuel point body formed within
    exact agrees.repeatFrom inner fuel inner
  | breakLoop | continueLoop => exact agrees.pure _
  | returnFrom value =>
    cases value with
    | none => exact agrees.bind agrees.finish fun _ => agrees.pure _
    | some value =>
      exact agrees.bind (agrees.eval value (formed.2 value rfl).alone) fun _ => agrees.pure _
  | assign place op value =>
    exact agrees.bind (agrees.assign place op value formed.1 formed.2) fun _ => agrees.pure _
  | eval expr => exact agrees.bind (agrees.eval expr formed) fun _ => agrees.pure _

/-- So do statements one behind the other. -/
theorem execAll (agrees : Actions.Agrees related setting points actions encoded)
    (fuel point : Nat) {inLoop : Bool} (statements : List Stmt)
    (formed : Stmt.WellFormedAll setting inLoop statements)
    (within : point + Stmt.pointCounts statements ≤ points) :
    related (actions.execAll fuel point statements) (encoded.execAll fuel point statements) := by
  cases statements with
  | nil => exact agrees.pure _
  | cons first rest =>
    simp only [Stmt.pointCounts] at within
    have early := exec agrees fuel point first formed.1 (by omega)
    have late := execAll agrees fuel (point + first.pointCount) rest formed.2 (by omega)
    exact agrees.thenDo early late

end

mutual

/-- Going on inside a statement does the same with actions that agree. -/
theorem resume (agrees : Actions.Agrees related setting points actions encoded)
    (fuel point target : Nat) {inLoop : Bool} (statement : Stmt)
    (formed : statement.WellFormed setting inLoop)
    (within : point + statement.pointCount ≤ points) :
    related (actions.resume fuel point target statement)
      (encoded.resume fuel point target statement) := by
  cases statement with
  | waitUntil condition hint location => exact agrees.wait formed.2
  | call callee args location => exact agrees.await formed.1
  | ifThen condition taken otherwise =>
    simp only [Stmt.pointCount] at within
    have first := resumeAll agrees fuel point target taken formed.2.1 (by omega)
    have second := resumeAll agrees fuel (point + Stmt.pointCounts taken) target otherwise
      formed.2.2 (by omega)
    simp only [Actions.resume]
    split
    · exact first
    · exact second
  | whileLoop condition body =>
    have inner := agrees.execAll fuel point body formed.2 within
    have now := resumeAll agrees fuel point target body formed.2 within
    exact agrees.repeatFrom (agrees.guarded formed.1 inner) fuel now
  | loop body =>
    have inner := agrees.execAll fuel point body formed within
    have now := resumeAll agrees fuel point target body formed within
    exact agrees.repeatFrom inner fuel now
  | _ => exact agrees.pure _

/-- So do statements from a point on. -/
theorem resumeAll (agrees : Actions.Agrees related setting points actions encoded)
    (fuel point target : Nat) {inLoop : Bool} (statements : List Stmt)
    (formed : Stmt.WellFormedAll setting inLoop statements)
    (within : point + Stmt.pointCounts statements ≤ points) :
    related (actions.resumeAll fuel point target statements)
      (encoded.resumeAll fuel point target statements) := by
  cases statements with
  | nil => exact agrees.pure _
  | cons first rest =>
    simp only [Stmt.pointCounts] at within
    have now := resume agrees fuel point target first formed.1 (by omega)
    have late := agrees.execAll fuel (point + first.pointCount) rest formed.2 (by omega)
    have other := resumeAll agrees fuel (point + first.pointCount) target rest formed.2 (by omega)
    simp only [Actions.resumeAll]
    split
    · exact agrees.thenDo now late
    · exact other

end

/-- A whole body does the same with actions that agree. -/
theorem runFrom (agrees : Actions.Agrees related setting points actions encoded) (fuel : Nat)
    {body : List Stmt} (formed : Stmt.WellFormedAll setting false body)
    (within : Stmt.pointCounts body ≤ points) (point : Option Point) :
    related (actions.runFrom fuel body point) (encoded.runFrom fuel body point) := by
  have small : 0 + Stmt.pointCounts body ≤ points := by omega
  have ending : ∀ exit : Exit, related (actions.leaving exit) (encoded.leaving exit) := by
    intro exit
    cases exit with
    | leave value => exact agrees.pure _
    | next | breakLoop | continueLoop => exact agrees.bind agrees.finish fun _ => agrees.pure _
  cases point with
  | none => exact agrees.bind (agrees.execAll fuel 0 body formed small) ending
  | some target => exact agrees.bind (agrees.resumeAll fuel 0 target body formed small) ending

end Actions.Agrees

end Coro
