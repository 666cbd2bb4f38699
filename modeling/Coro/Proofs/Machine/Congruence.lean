import Coro.Proofs.Machine.Law

/-!
Expressions that call functions differ only as the functions do.

Whatever relation between runs holds of the steps that evaluation is made of, and of the functions
that are called, holds of all expressions and assignments.
-/

namespace Coro

namespace Exec

variable {σ κ : Type} [Host σ]

/--
A relation between runs that holds of each step of evaluation and of runs in sequence.

The steps may look up variables in two models, as far as they are granted.
-/
structure Congruence (related : {α : Type} → ExecWith σ κ α → ExecWith σ κ α → Prop)
    (model model' : Model) (granted : References) : Prop where
  pure : ∀ {α : Type} (value : α), related (Pure.pure value) (Pure.pure value)
  bind : ∀ {α β : Type} {first first' : ExecWith σ κ α} {next next' : α → ExecWith σ κ β},
    related first first' → (∀ value, related (next value) (next' value)) →
    related (first >>= next) (first' >>= next')
  locate : ∀ {α : Type} frame var index {next next' : Slot → ExecWith σ κ α}, granted.var var →
    (∀ slot, slot.Granted granted → related (next slot) (next' slot)) →
    related (Exec.locate model frame var index >>= next)
      (Exec.locate model' frame var index >>= next')
  load : ∀ frame slot, related (Exec.load model frame slot) (Exec.load model' frame slot)
  store : ∀ frame slot value, slot.Granted granted →
    related (Exec.store model frame slot value) (Exec.store model' frame slot value)
  compute : ∀ op left right, related (Exec.compute op left right) (Exec.compute op left right)
  external : ∀ (id : ExternalId) args,
    related (Exec.require model.externals[id]? >>= (callExternal · args))
      (Exec.require model'.externals[id]? >>= (callExternal · args))

namespace Congruence

variable {related : {α : Type} → ExecWith σ κ α → ExecWith σ κ α → Prop} {model model' : Model}
  {granted : References} {callees other : Callees σ κ}

mutual

/-- Expressions are related if the functions are that they call. -/
theorem eval (congruence : Congruence related model model' granted)
    (functions : ∀ id args, related (callees.function id args) (other.function id args))
    (frame : Frame) {expr : Expr} (refers : expr.Refers granted) :
    related (Exec.eval model callees frame expr) (Exec.eval model' other frame expr) := by
  cases expr with
  | const value => exact congruence.pure value
  | read var =>
    exact congruence.locate frame var 0 refers fun slot _ => congruence.load frame slot
  | element var index =>
    -- The index is evaluated before the variable is looked up.
    refine congruence.bind (eval congruence functions frame refers.2) fun value => ?_
    exact congruence.locate frame var value refers.1 fun slot _ => congruence.load frame slot
  | call callee args =>
    refine congruence.bind (evalAll congruence functions frame refers.2) fun values => ?_
    -- Only functions of the program can differ; the host is the same on both sides.
    cases callee with
    | function id => exact functions id values
    | external id => exact congruence.external id values
  | unary op operand =>
    have inner : operand.Refers granted := refers
    exact congruence.bind (eval congruence functions frame inner) fun _ => congruence.pure _
  | binary op left right =>
    have first := eval congruence functions frame refers.1
    have second := eval congruence functions frame refers.2
    -- A logical operator looks at its right side only behind some values of its left side.
    cases op
    case logicAnd =>
      refine congruence.bind first fun value => ?_
      split
      · exact congruence.pure _
      · exact congruence.bind second fun _ => congruence.pure _
    case logicOr =>
      refine congruence.bind first fun value => ?_
      split
      · exact congruence.pure _
      · exact congruence.bind second fun _ => congruence.pure _
    all_goals
      exact congruence.bind first fun _ => congruence.bind second fun _ => congruence.compute _ _ _

theorem evalAll (congruence : Congruence related model model' granted)
    (functions : ∀ id args, related (callees.function id args) (other.function id args))
    (frame : Frame) {exprs : List Expr} (refers : Expr.RefersAll granted exprs) :
    related (Exec.evalAll model callees frame exprs) (Exec.evalAll model' other frame exprs) := by
  cases exprs with
  | nil => exact congruence.pure _
  | cons first rest =>
    -- From left to right: the first value is known before the others are looked at.
    refine congruence.bind (eval congruence functions frame refers.1) fun _ => ?_
    exact congruence.bind (evalAll congruence functions frame refers.2) fun _ => congruence.pure _

end

/-- Assignments are related if the functions are that they call. -/
theorem assign (congruence : Congruence related model model' granted)
    (functions : ∀ id args, related (callees.function id args) (other.function id args))
    (frame : Frame) {place : Place} (op : Option BinaryOp) {value : Expr}
    (refers : place.Refers granted ∧ value.Refers granted) :
    related (Exec.assign model callees frame place op value)
      (Exec.assign model' other frame place op value) := by
  -- The place comes first, and only its index can call functions.
  have placed : ∀ {next next' : Slot → ExecWith σ κ Frame},
      (∀ slot, slot.Granted granted → related (next slot) (next' slot)) →
      related (Exec.slotOf model callees frame place >>= next)
        (Exec.slotOf model' other frame place >>= next') := by
    intro next next' late
    obtain ⟨var, index⟩ := place
    cases index with
    | none => exact congruence.locate frame var 0 refers.1.1 late
    | some index =>
      simp only [Exec.slotOf, bind_assoc]
      exact congruence.bind (congruence.eval functions frame (refers.1.2 index rfl)) fun inside =>
        congruence.locate frame var inside refers.1.1 late
  refine placed fun slot allowed => ?_
  refine congruence.bind (congruence.eval functions frame refers.2) fun value => ?_
  -- A compound assignment reads the old value last.
  cases op with
  | none =>
    exact congruence.bind (congruence.pure value) fun _ => congruence.store frame _ _ allowed
  | some op =>
    refine congruence.bind (congruence.load frame slot) fun old => ?_
    exact congruence.bind (congruence.compute op old value) fun _ =>
      congruence.store frame _ _ allowed

/-- Two models that give variables in the same way are the same to evaluation. -/
theorem ofEq (externals : model.externals = model'.externals)
    (locate : ∀ {α : Type} frame var index {next next' : Slot → ExecWith σ κ α},
      granted.var var → (∀ slot, slot.Granted granted → next slot = next' slot) →
      Exec.locate model frame var index >>= next = Exec.locate model' frame var index >>= next')
    (store : ∀ frame slot value, slot.Granted granted →
      (Exec.store model frame slot value : ExecWith σ κ Frame) =
        Exec.store model' frame slot value) :
    Congruence (σ := σ) (κ := κ) Eq model model' granted where
  pure _ := rfl
  bind early late := by rw [early, funext late]
  locate := locate
  load frame slot := by
    cases slot with
    | external id => simp only [Exec.load, externals]
    | _ => rfl
  store := store
  compute _ _ _ := rfl
  external _ _ := by rw [externals]

end Congruence

end Exec

end Coro
