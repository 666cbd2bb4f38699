import Mathlib.Data.Int.ModEq
import Coro.Machine.Bench
import Coro.Machine.Run
import Coro.Proofs.Model.Fitting

/-!
Truncation is arithmetic modulo a power of two.

What a type keeps of a value is the one number of its range that is congruent to it. Sums,
differences, products, shifts to the left and operators on single bits give congruent results for
congruent operands, so it does not matter whether values are truncated on the way or only when they
are stored.
-/

namespace Coro

variable {one other : Int64} {type : IntType}

/-- The operators whose low bits come from the low bits of their operand. -/
def UnaryOp.modular : UnaryOp → Bool
  | negate | complement => true
  | not => false

/-- The operators whose low bits come from the low bits of their operands. -/
def BinaryOp.modular : BinaryOp → Bool
  | add | sub | mul | and | or | xor | shl => true
  | _ => false

namespace IntType

/-- Two values are truncated alike exactly if their low bits are the same. -/
theorem wrap_eq_iff : type.wrap one = type.wrap other ↔
    one.toBitVec.setWidth type.bits = other.toBitVec.setWidth type.bits := by
  refine ⟨fun same => ?_, wrap_congr⟩
  rw [← setWidth_wrap (Nat.le_refl _) one, same, setWidth_wrap (Nat.le_refl _) other]

/-- The low bits of two values are the same exactly if the values are congruent. -/
theorem setWidth_eq_iff_modEq :
    one.toBitVec.setWidth type.bits = other.toBitVec.setWidth type.bits ↔
      one.toInt ≡ other.toInt [ZMOD 2 ^ type.bits] := by
  -- Numbers of 64 bits and their unsigned readings differ by multiples of a larger power.
  have reading : ∀ value : Int64,
      value.toInt ≡ value.toBitVec.toNat [ZMOD 2 ^ type.bits] := by
    intro value
    have divides : (2 : Int) ^ type.bits ∣ 2 ^ 64 := pow_dvd_pow 2 type.bits_lt.le
    rw [← Int64.toInt_toBitVec, BitVec.toInt_eq_toNat_bmod]
    exact Int.ModEq.of_dvd divides Int.bmod_emod
  rw [← BitVec.toNat_inj, BitVec.toNat_setWidth, BitVec.toNat_setWidth]
  constructor
  · intro same
    refine (reading one).trans (Int.ModEq.trans ?_ (reading other).symm)
    exact_mod_cast (Int.natCast_modEq_iff.mpr same)
  · intro same
    have same := ((reading one).symm.trans same).trans (reading other)
    exact Int.natCast_modEq_iff.mp (by exact_mod_cast same)

/-- The values of a type are few enough for 64 bits. -/
theorem range_le (type : IntType) :
    Int64.minValue.toInt ≤ type.least ∧ type.greatest ≤ Int64.maxValue.toInt := by
  cases type <;> decide

/-- What a type keeps of a value is the one number of its range that is congruent to it. -/
theorem eq_wrap_iff (type : IntType) (value : Int64) (number : Int) :
    number = (type.wrap value).toInt ↔ type.least ≤ number ∧ number ≤ type.greatest ∧
      number ≡ value.toInt [ZMOD 2 ^ type.bits] := by
  constructor
  · rintro rfl
    obtain ⟨low, high⟩ := (type.fits_iff _).mp (type.fits_wrap value)
    exact ⟨low, high, setWidth_eq_iff_modEq.mp (setWidth_wrap (Nat.le_refl _) value)⟩
  · rintro ⟨low, high, same⟩
    -- The number is one of 64 bits that fits the type, so truncating it changes nothing.
    obtain ⟨below, above⟩ := type.range_le
    have exact : (Int64.ofInt number).toInt = number :=
      Int64.toInt_ofInt_of_le (le_trans below low) (lt_of_le_of_lt (le_trans high above) (by decide))
    have fits : type.wrap (Int64.ofInt number) = Int64.ofInt number :=
      (type.fits_iff _).mpr (by rw [exact]; exact ⟨low, high⟩)
    rw [← exact] at same
    rw [← wrap_eq_iff.mpr (setWidth_eq_iff_modEq.mpr same), fits, exact]

/-! ## Operators -/

/-- The amount of a shift depends on the low bits alone, of which every type keeps enough. -/
theorem smod_eq_of_wrap_eq (same : type.wrap one = type.wrap other) :
    one.toBitVec.smod 64 = other.toBitVec.smod 64 := by
  have congruent := setWidth_eq_iff_modEq.mp (wrap_eq_iff.mp same)
  have divides : (64 : Int) ∣ 2 ^ type.bits := by cases type <;> decide
  rw [← BitVec.toInt_inj, BitVec.toInt_smod, BitVec.toInt_smod, Int64.toInt_toBitVec,
    Int64.toInt_toBitVec, Int.fmod_eq_emod_of_nonneg _ (by decide),
    Int.fmod_eq_emod_of_nonneg _ (by decide)]
  exact congruent.of_dvd divides

theorem wrap_apply_congr {op : UnaryOp} (modular : op.modular)
    (same : type.wrap one = type.wrap other) :
    type.wrap (op.apply one) = type.wrap (op.apply other) := by
  have short := type.bits_lt.le
  rw [wrap_eq_iff] at same ⊢
  cases op with
  | negate =>
    simp only [UnaryOp.apply, Int64.toBitVec_neg, BitVec.setWidth_neg_of_le short, same]
  | complement => simp only [UnaryOp.apply, Int64.toBitVec_not, BitVec.setWidth_not short, same]
  | not => cases modular

/-- Operands that are truncated alike have results that are, and there is no fault. -/
theorem wrap_result_congr {op : BinaryOp} (modular : op.modular) {left left' right right' : Int64}
    (first : type.wrap left = type.wrap left') (second : type.wrap right = type.wrap right') :
    ∃ value value',
      op.result? left right = some value ∧ op.result? left' right' = some value' ∧
        type.wrap value = type.wrap value' := by
  have short := type.bits_lt.le
  have amount := smod_eq_of_wrap_eq second
  rw [wrap_eq_iff] at first second
  cases op
  case add | sub | mul | and | or | xor | shl =>
    refine ⟨_, _, rfl, rfl, wrap_eq_iff.mpr ?_⟩
    simp only [Int64.toBitVec_add, Int64.toBitVec_sub, Int64.toBitVec_mul, Int64.toBitVec_and,
      Int64.toBitVec_or, Int64.toBitVec_xor, Int64.toBitVec_shiftLeft, BitVec.sub_eq_add_neg,
      BitVec.setWidth_add _ _ short, BitVec.setWidth_mul _ _ short, BitVec.setWidth_neg_of_le short,
      BitVec.setWidth_and, BitVec.setWidth_or, BitVec.setWidth_xor, BitVec.shiftLeft_eq',
      BitVec.setWidth_shiftLeft_of_le short, first, second, amount]
  all_goals cases modular

end IntType

/-! ## Expressions -/

/-- No operator of the expression but modular ones; what they are applied to may be anything. -/
def Expr.modular : Expr → Bool
  | .unary op operand => op.modular && operand.modular
  | .binary op left right => op.modular && left.modular && right.modular
  | _ => true

/-- The type of the variable that a slot belongs to. -/
def Slot.type? (model : Model) (frame : Frame) : Slot → Option IntType
  | .static id _ => model.statics[id]?.map (·.type)
  | .localVar id _ => frame.locals[id]?.map (·.type)
  | .external id => model.externals[id]?.bind (·.kind.type?)

namespace Exec

variable {σ κ : Type}

/-- Where results are used up to truncation, computations that agree up to it can be exchanged. -/
theorem bind_eq_of_wrap_eq {α : Type} {one other : ExecWith σ κ Int64}
    (same : type.wrap <$> one = type.wrap <$> other) {next next' : Int64 → ExecWith σ κ α}
    (alike : ∀ value value', type.wrap value = type.wrap value' → next value = next' value') :
    one >>= next = other >>= next' := by
  funext machine
  have same := congrFun same machine
  simp only [Functor.map, EStateM.map] at same
  simp only [bind, EStateM.bind]
  cases first : one machine <;> cases second : other machine <;>
    simp only [first, second, EStateM.Result.ok.injEq, EStateM.Result.error.injEq, reduceCtorEq]
      at same ⊢
  · obtain ⟨value, rfl⟩ := same
    rw [alike _ _ value]
  · exact same

variable [Host σ] (type : IntType) (model : Model) (callees : Callees σ κ) (frame : Frame)

/-- The value of an expression, with every operand and every result truncated at once. -/
def evalTruncated : Expr → ExecWith σ κ Int64
  | .unary op operand => return type.wrap (op.apply (← evalTruncated operand))
  | .binary op left right => do
    let left ← evalTruncated left
    let right ← evalTruncated right
    return type.wrap (← compute op left right)
  | expr => return type.wrap (← eval model callees frame expr)

/-- Truncating the value alone, or all that it is computed from, gives the same. -/
theorem wrap_eval {expr : Expr} (modular : expr.modular) :
    type.wrap <$> eval model callees frame expr =
      type.wrap <$> evalTruncated type model callees frame expr := by
  have twice := fun value => type.fits_wrap value
  simp only [IntType.Fits] at twice
  -- By induction on the expression: each operator takes operands that are truncated alike.
  fun_induction Expr.modular expr with
  | case1 op operand ih =>
    obtain ⟨outer, inner⟩ := Bool.and_eq_true_iff.mp modular
    simp only [eval, evalTruncated, map_eq_pure_bind, bind_assoc, pure_bind]
    refine bind_eq_of_wrap_eq (ih inner) fun value value' same => ?_
    rw [IntType.wrap_apply_congr outer same, twice]
  | case2 op left right ih ih' =>
    obtain ⟨outer, second⟩ := Bool.and_eq_true_iff.mp modular
    obtain ⟨outer, first⟩ := Bool.and_eq_true_iff.mp outer
    have plain : eval model callees frame (.binary op left right) = (do
        let left ← eval model callees frame left
        let right ← eval model callees frame right
        compute op left right) := by
      -- The logical operators, which are evaluated in another way, are not modular.
      rw [eval]
      all_goals
        rintro rfl
        cases outer
    simp only [plain, evalTruncated, map_eq_pure_bind, bind_assoc, pure_bind]
    refine bind_eq_of_wrap_eq (ih first) fun one one' same => ?_
    refine bind_eq_of_wrap_eq (ih' second) fun two two' same' => ?_
    obtain ⟨value, value', known, known', alike⟩ := IntType.wrap_result_congr outer same same'
    simp only [compute, known, known', pure_bind, alike, twice]
  | case3 expr other other' =>
    simp only [map_eq_pure_bind]
    rw [evalTruncated]
    · simp only [bind_assoc, pure_bind, twice]
    · exact other
    · exact other'

/-- A store keeps no more of a value than the type of its variable does. -/
theorem store_congr {slot : Slot} (typed : slot.type? model frame = some type)
    (same : type.wrap one = type.wrap other) :
    (store model frame slot one : ExecWith σ κ Frame) = store model frame slot other := by
  cases slot with
  | static id index =>
    obtain ⟨storage, known, rfl⟩ := Option.map_eq_some_iff.mp typed
    simp only [store, known, require, pure_bind, same]
  | localVar id index =>
    obtain ⟨entry, known, rfl⟩ := Option.map_eq_some_iff.mp typed
    simp only [store, known, require, pure_bind, same]
  | external id =>
    obtain ⟨external, known, kind⟩ := Option.bind_eq_some_iff.mp typed
    have value : externalValue external.kind one = externalValue external.kind other := by
      cases data : external.kind with
      | data kind' volatile =>
        rw [data] at kind
        cases kind
        exact same
      | function =>
        rw [data] at kind
        cases kind
    simp only [store, known, require, pure_bind, writeExternal, value]

end Exec

/--
Truncation is arithmetic modulo a power of two.

What a type keeps of a value is the one number of its range that is congruent to it. Modular
operators, and shifts by any amount, give the same for truncated operands as for exact ones. So an
expression of such operators stores the same value whether or not it is truncated at every step.
-/
theorem IntType.truncation_modular (type : IntType) :
    (∀ (value : Int64) (number : Int), number = (type.wrap value).toInt ↔
      type.least ≤ number ∧ number ≤ type.greatest ∧
        number ≡ value.toInt [ZMOD 2 ^ type.bits]) ∧
    (∀ (op : UnaryOp) (value : Int64), op.modular →
      type.wrap (op.apply (type.wrap value)) = type.wrap (op.apply value)) ∧
    (∀ (op : BinaryOp) (left right : Int64), op.modular → ∃ exact cut,
      op.result? left right = some exact ∧
      op.result? (type.wrap left) (type.wrap right) = some cut ∧ type.wrap cut = type.wrap exact) ∧
    (∀ value amount : Int64, ∃ exact cut, BinaryOp.shl.result? value amount = some exact ∧
      BinaryOp.shl.result? (type.wrap value) amount = some cut ∧ type.wrap cut = type.wrap exact) ∧
    ∀ {σ κ : Type} [Host σ] (model : Model) (callees : Callees σ κ) (frame : Frame) (slot : Slot)
      (expr : Expr), slot.type? model frame = some type → expr.modular →
        (Exec.evalTruncated type model callees frame expr >>= Exec.store model frame slot) =
          (Exec.eval model callees frame expr >>= Exec.store model frame slot) := by
  have once : ∀ value, type.wrap value = type.wrap (type.wrap value) :=
    fun value => (type.fits_wrap value).symm
  refine ⟨type.eq_wrap_iff, fun op value modular => (wrap_apply_congr modular (once value)).symm,
    fun op left right modular => ?_, fun value amount => ?_, ?_⟩
  · obtain ⟨exact, cut, known, known', same⟩ := wrap_result_congr modular (once left) (once right)
    exact ⟨exact, cut, known, known', same.symm⟩
  · obtain ⟨exact, cut, known, known', same⟩ :=
      @wrap_result_congr type .shl rfl value _ amount amount (once value) rfl
    exact ⟨exact, cut, known, known', same.symm⟩
  · intro σ κ _ model callees frame slot expr typed modular
    exact Exec.bind_eq_of_wrap_eq (Exec.wrap_eval type model callees frame modular).symm
      fun value value' same => Exec.store_congr type model frame typed same

/-- A model whose only variable is a byte. -/
def Model.oneByte : Model :=
  { (default : Model) with statics := [{ (default : StaticVariable) with type := .u8 }] }

/-- A sum that is too large for a byte, and its operands that are, too. -/
theorem IntType.byte_truncation : (44 : Int) = (IntType.u8.wrap 300).toInt ∧
    (∃ exact cut, BinaryOp.add.result? 300 500 = some exact ∧
      BinaryOp.add.result? (IntType.u8.wrap 300) (IntType.u8.wrap 500) = some cut ∧
        IntType.u8.wrap cut = IntType.u8.wrap exact) ∧
    (Exec.evalTruncated .u8 .oneByte (Exec.outermost (σ := Bench) default 9) (.enter [] [])
        (.binary .add (.const 300) (.const 500)) >>=
          Exec.store .oneByte (.enter [] []) (.static 0 0)) =
      (Exec.eval .oneByte (Exec.outermost default 9) (.enter [] [])
        (.binary .add (.const 300) (.const 500)) >>=
          Exec.store .oneByte (.enter [] []) (.static 0 0)) :=
  ⟨((truncation_modular .u8).1 300 44).mpr ⟨by decide, by decide, by decide⟩,
    (truncation_modular .u8).2.2.1 .add 300 500 rfl,
    (truncation_modular .u8).2.2.2.2 .oneByte _ _ (.static 0 0) _ rfl rfl⟩

end Coro
