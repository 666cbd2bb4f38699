import Coro.Machine.Bench
import Coro.Machine.Eval
import Coro.Proofs.Resolution.Stages

/-!
Constants have the values that execution gives their expressions.

The value that a static variable starts with is computed from both operands of every operator.
Execution leaves out the right operand of a logical operator that the left one settles. So the two
agree where what is left out could have been computed as well, and only there.
-/

namespace Coro

/-- A logical operator has its value from the left operand alone. -/
def BinaryOp.settledBy : BinaryOp → Int64 → Bool
  | .logicAnd, left => left == 0
  | .logicOr, left => left != 0
  | _, _ => false

theorem BinaryOp.result?_of_settledBy {op : BinaryOp} {left : Int64} (settled : op.settledBy left)
    (right : Int64) : op.result? left right = some (truth (left != 0)) := by
  cases op with
  | logicAnd =>
    cases eq_of_beq settled
    rfl
  | logicOr =>
    have settled : (left != 0) = true := settled
    rw [result?, settled, Bool.true_or]
  | _ => cases settled

namespace Ast.Expr

/-- An expression of literals and operators. -/
def isLiteral : Expr → Bool
  | .int _ _ => true
  | .char _ _ => true
  | .unary _ operand _ => operand.isLiteral
  | .binary _ left right _ => left.isLiteral && right.isLiteral
  | _ => false

/-- The value of literals and operators where nothing is computed that is not needed. -/
def value? : Expr → Option Int64
  | .int value _ => some (Int64.ofNat value)
  | .char byte _ => some (Int64.ofNat byte.toNat)
  | .unary op operand _ => operand.value?.map op.apply
  | .binary op left right _ => do
    let left ← left.value?
    if op.settledBy left then return truth (left != 0)
    op.result? left (← right.value?)
  | _ => none

/-- The operands that are not needed for the value. -/
def leftOut : Expr → List Expr
  | .unary _ operand _ => operand.leftOut
  | .binary op left right _ => left.leftOut ++ left.value?.elim [] fun value =>
    if op.settledBy value then [right] else right.leftOut
  | _ => []

end Ast.Expr

/-! ## Execution -/

namespace Exec

variable {σ κ : Type}

/-- A value, or the fault of a division by zero where there is none. -/
def quotient (value : Option Int64) : ExecWith σ κ Int64 :=
  match value with
  | some value => return value
  | none => throw (.fault .divisionByZero)

variable [Host σ]

/-- Execution computes the right operand of an operator only where the left one leaves it open. -/
theorem eval_binary (model : Model) (callees : Callees σ κ) (frame : Frame) (op : BinaryOp)
    (left right : Expr) : eval model callees frame (.binary op left right) =
      eval model callees frame left >>= fun value =>
        if op.settledBy value then pure (truth (value != 0))
        else eval model callees frame right >>= fun other => quotient (op.result? value other) := by
  cases op with
  | logicAnd =>
    simp only [eval]
    congr 1
    funext value
    by_cases zero : value = 0
    · simp [zero, BinaryOp.settledBy, truth]
    · have needed : (value != 0) = true := bne_iff_ne.mpr zero
      simp [zero, needed, BinaryOp.settledBy, BinaryOp.result?, quotient]
  | logicOr =>
    simp only [eval]
    congr 1
    funext value
    by_cases zero : value = 0
    · simp [zero, BinaryOp.settledBy, BinaryOp.result?, quotient]
    · simp [zero, BinaryOp.settledBy, truth]
  | _ =>
    simp only [eval, BinaryOp.settledBy, Bool.false_eq_true, ↓reduceIte]
    rfl

/-- A literal expression is resolved, and its execution changes nothing. -/
theorem eval_literal (around : Surroundings) (names : BodyNames) {written : Ast.Expr}
    (literal : written.isLiteral) : ∃ expr, around.expression names written = .ok expr ∧
      ∀ (model : Model) (callees : Callees σ κ) (frame : Frame),
        eval model callees frame expr = quotient written.value? := by
  fun_induction Ast.Expr.isLiteral written with
  | case1 value location =>
    exact ⟨.const (Int64.ofNat value), by simp [Surroundings.expression]; rfl, fun _ _ _ => by
      simp [eval, Ast.Expr.value?, quotient]⟩
  | case2 byte location =>
    exact ⟨.const (Int64.ofNat byte.toNat), by simp [Surroundings.expression]; rfl, fun _ _ _ => by
      simp [eval, Ast.Expr.value?, quotient]⟩
  | case3 op operand location ih =>
    obtain ⟨inner, resolved, same⟩ := ih literal
    refine ⟨.unary op inner, by rw [Surroundings.expression, resolved]; rfl,
      fun model callees frame => ?_⟩
    rw [eval, same, Ast.Expr.value?]
    cases operand.value? <;> rfl
  | case4 op left right location ih ih' =>
    obtain ⟨first, second⟩ := Bool.and_eq_true_iff.mp literal
    obtain ⟨one, resolved, same⟩ := ih first
    obtain ⟨two, resolved', same'⟩ := ih' second
    refine ⟨.binary op one two, by rw [Surroundings.expression, resolved, resolved']; rfl,
      fun model callees frame => ?_⟩
    rw [eval_binary, same, same', Ast.Expr.value?]
    cases left.value? with
    | none => rfl
    | some value =>
      by_cases settled : op.settledBy value
      · simp [quotient, settled]
      · cases right.value? with
        | none =>
          simp [quotient, settled]
          rfl
        | some other => simp [quotient, settled]
  | case5 => cases literal

end Exec

/-! ## Constants -/

namespace Ast.Expr

/-- A constant is what execution computes, if what this leaves out has a value too. -/
theorem constant_iff {written : Expr} (literal : written.isLiteral) {value : Int64} :
    written.constant = .ok value ↔ written.value? = some value ∧
      ∀ operand ∈ written.leftOut, ∃ known, operand.constant = .ok known := by
  fun_induction isLiteral written generalizing value with
  | case1 number location | case2 byte location =>
    simp [constant, value?, leftOut, pure, Except.pure]
  | case3 op operand location ih =>
    simp only [constant, bind_eq_ok, pure_eq_ok, value?, leftOut, Option.map_eq_some_iff]
    constructor
    · rintro ⟨inner, known, rfl⟩
      obtain ⟨found, others⟩ := (ih literal).mp known
      exact ⟨⟨inner, found, rfl⟩, others⟩
    · rintro ⟨⟨inner, found, rfl⟩, others⟩
      exact ⟨inner, (ih literal).mpr ⟨found, others⟩, rfl⟩
  | case4 op left right location ih ih' =>
    obtain ⟨first, second⟩ := Bool.and_eq_true_iff.mp literal
    -- Both sides need the left operand; its value tells what they need of the right one.
    have parts : (Expr.binary op left right location).constant = .ok value ↔ ∃ one two,
        left.constant = .ok one ∧ right.constant = .ok two ∧ op.result? one two = some value := by
      simp only [constant, bind_eq_ok]
      constructor
      · rintro ⟨one, known, two, known', found⟩
        split at found
        case h_1 result computed =>
          cases pure_eq_ok.mp found
          exact ⟨one, two, known, known', computed⟩
        case h_2 => exact absurd found throw_ne_ok
      · rintro ⟨one, two, known, known', computed⟩
        exact ⟨one, known, two, known', by rw [computed]; rfl⟩
    rw [parts, value?, leftOut]
    constructor
    · rintro ⟨one, two, known, known', computed⟩
      obtain ⟨found, others⟩ := (ih first).mp known
      obtain ⟨found', others'⟩ := (ih' second).mp known'
      by_cases settled : op.settledBy one
      · rw [BinaryOp.result?_of_settledBy settled] at computed
        rw [found, Option.elim_some, if_pos settled]
        refine ⟨Option.bind_eq_some_iff.mpr ⟨one, rfl, by rw [if_pos settled]; exact computed⟩, ?_⟩
        exact List.forall_mem_append.mpr ⟨others, List.forall_mem_singleton.mpr ⟨two, known'⟩⟩
      · rw [found, Option.elim_some, if_neg settled]
        refine ⟨Option.bind_eq_some_iff.mpr ⟨one, rfl, ?_⟩,
          List.forall_mem_append.mpr ⟨others, others'⟩⟩
        rw [if_neg settled]
        exact Option.bind_eq_some_iff.mpr ⟨two, found', computed⟩
    · rintro ⟨needed, others⟩
      obtain ⟨here, there⟩ := List.forall_mem_append.mp others
      obtain ⟨one, found, needed⟩ := Option.bind_eq_some_iff.mp needed
      have known := (ih first).mpr ⟨found, here⟩
      rw [found, Option.elim_some] at there
      by_cases settled : op.settledBy one
      · rw [if_pos settled] at needed there
        obtain ⟨two, known'⟩ := List.forall_mem_singleton.mp there
        cases needed
        exact ⟨one, two, known, known', BinaryOp.result?_of_settledBy settled two⟩
      · rw [if_neg settled] at needed there
        obtain ⟨two, found', computed⟩ := Option.bind_eq_some_iff.mp needed
        exact ⟨one, two, known, (ih' second).mpr ⟨found', there⟩, computed⟩
  | case5 => cases literal

/-- Nothing but a fault in it keeps a literal expression from having a value. -/
theorem constant_cases {written : Expr} (literal : written.isLiteral) :
    (∃ value, written.constant = .ok value) ∨
      ∃ location, written.constant = .error ⟨.notConstant, location⟩ := by
  fun_induction isLiteral written with
  | case1 | case2 => exact .inl ⟨_, rfl⟩
  | case3 op operand location ih =>
    rcases ih literal with ⟨value, known⟩ | ⟨place, unknown⟩
    · exact .inl ⟨op.apply value, by rw [constant, known]; rfl⟩
    · exact .inr ⟨place, by rw [constant, unknown]; rfl⟩
  | case4 op left right location ih ih' =>
    obtain ⟨first, second⟩ := Bool.and_eq_true_iff.mp literal
    rcases ih first with ⟨one, known⟩ | ⟨place, unknown⟩
    · rcases ih' second with ⟨two, known'⟩ | ⟨place, unknown⟩
      · cases computed : op.result? one two with
        | some value =>
          refine .inl ⟨value, ?_⟩
          simp only [constant, known, known', bind, Except.bind, computed]
          rfl
        | none =>
          refine .inr ⟨location, ?_⟩
          simp only [constant, known, known', bind, Except.bind, computed]
          rfl
      · exact .inr ⟨place, by rw [constant, known, unknown]; rfl⟩
    · exact .inr ⟨place, by rw [constant, unknown]; rfl⟩
  | case5 => cases literal

/--
Constants and execution agree on literals and operators, but for operands that execution leaves out.

Execution gives a value or divides by zero, and changes nothing. The expression is a constant of the
same value exactly if in addition every operand that was left out is one; otherwise it is refused.
-/
theorem constant_iff_executed {σ κ : Type} [Host σ] {written : Expr} (literal : written.isLiteral)
    (around : Surroundings) (names : BodyNames) :
    ∃ expr, around.expression names written = .ok expr ∧
      ∀ (model : Model) (callees : Callees σ κ) (frame : Frame) (machine : Machine σ κ),
        ((∃ value, Exec.eval model callees frame expr machine = .ok value machine) ∨
          Exec.eval model callees frame expr machine =
            .error (.fault .divisionByZero) machine) ∧
        (∀ value, written.constant = .ok value ↔
          Exec.eval model callees frame expr machine = .ok value machine ∧
            ∀ operand ∈ written.leftOut, ∃ known, operand.constant = .ok known) ∧
        ((∃ location, written.constant = .error ⟨.notConstant, location⟩) ↔
          Exec.eval model callees frame expr machine = .error (.fault .divisionByZero) machine ∨
            ¬ ∀ operand ∈ written.leftOut, ∃ known, operand.constant = .ok known) := by
  obtain ⟨expr, resolved, same⟩ := Exec.eval_literal (σ := σ) (κ := κ) around names literal
  refine ⟨expr, resolved, fun model callees frame machine => ?_⟩
  have gives : ∀ value : Int64, Exec.quotient (some value) machine = .ok value machine :=
    fun _ => rfl
  have stops : Exec.quotient none machine = .error (.fault .divisionByZero) machine := rfl
  have values : ∀ value, Exec.eval model callees frame expr machine = .ok value machine ↔
      written.value? = some value := by
    intro value
    rw [same]
    cases written.value? <;> simp [gives, stops]
  have faults : Exec.eval model callees frame expr machine =
      .error (.fault .divisionByZero) machine ↔ written.value? = none := by
    rw [same]
    cases written.value? <;> simp [gives, stops]
  refine ⟨?_, fun value => by rw [values, constant_iff literal], ?_⟩
  · cases found : written.value? with
    | none => exact .inr (faults.mpr found)
    | some value => exact .inl ⟨value, (values value).mpr found⟩
  · rw [faults]
    constructor
    · rintro ⟨location, refused⟩
      cases found : written.value? with
      | none => exact .inl rfl
      | some value =>
        -- Were all that is left out constant, the whole would be, too.
        refine .inr fun others => ?_
        have known := (constant_iff literal).mpr ⟨found, others⟩
        rw [refused] at known
        cases known
    · intro lacks
      refine (constant_cases literal).resolve_left ?_
      rintro ⟨value, known⟩
      obtain ⟨found, others⟩ := (constant_iff literal).mp known
      rcases lacks with missing | refused
      · rw [found] at missing
        cases missing
      · exact refused others

/-- Seven divided by two, and a truth whose second operand is left out. -/
def halves : Expr :=
  .binary .add (.binary .div (.int 7 default) (.int 2 default) default)
    (.binary .logicOr (.char 97 default) (.int 2 default) default) default

/-- The operand that is left out has a value, so both agree. -/
theorem halves_executed : ∃ expr,
    Surroundings.expression ⟨.empty, [], .routine⟩ ⟨[], []⟩ halves = .ok expr ∧
      halves.constant = .ok 4 ∧
      ∀ (model : Model) (callees : Callees Bench) (frame : Frame) (machine : Machine Bench),
        Exec.eval model callees frame expr machine = .ok 4 machine := by
  obtain ⟨expr, resolved, agree⟩ :=
    constant_iff_executed (σ := Bench) (κ := Nat) (by decide : halves.isLiteral)
      ⟨.empty, [], .routine⟩ ⟨[], []⟩
  have known : halves.constant = .ok 4 := rfl
  exact ⟨expr, resolved, known, fun model callees frame machine =>
    ((agree model callees frame machine).2.1 4).mp known |>.1⟩

/-- A division by zero that no execution comes to. -/
def unreached : Expr :=
  .binary .logicAnd (.int 0 default)
    (.binary .div (.int 1 default) (.int 0 default) default) default

/-- It is no constant, although execution gives it a value. -/
theorem unreached_refused : unreached.isLiteral ∧
    unreached.constant = .error ⟨.notConstant, default⟩ ∧ ∃ expr,
      Surroundings.expression ⟨.empty, [], .routine⟩ ⟨[], []⟩ unreached = .ok expr ∧
      ∀ (model : Model) (callees : Callees Bench) (frame : Frame) (machine : Machine Bench),
        Exec.eval model callees frame expr machine = .ok 0 machine := by
  refine ⟨rfl, rfl, ?_⟩
  obtain ⟨expr, resolved, same⟩ := Exec.eval_literal (σ := Bench) (κ := Nat)
    ⟨.empty, [], .routine⟩ ⟨[], []⟩ (by decide : unreached.isLiteral)
  exact ⟨expr, resolved, fun model callees frame machine => by rw [same]; rfl⟩

end Ast.Expr

end Coro
