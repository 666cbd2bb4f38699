import Coro.Proofs.Machine.Truncation

/-!
What functions return.

A call gives the value of the `return` that ended the function, and nothing makes it fit the type
that is declared for it. It fits if every function returns only what fits by its form: constants
and truth values, variables, and calls of functions that do the same.
-/

namespace Coro

/-- The type of a variable, in a body with some local variables. -/
def Model.typeOf? (model : Model) (locals : List Local) : Var → Option IntType
  | .static id => model.statics[id]?.map StaticVariable.type
  | .localVar id => locals[id]?.map Local.type
  | .external id => model.externals[id]?.bind fun external => external.kind.type?

/-- Operators that tell whether something is true. -/
def BinaryOp.isTruth : BinaryOp → Bool
  | .equal | .notEqual | .less | .lessOrEqual | .greater | .greaterOrEqual => true
  | .logicAnd | .logicOr => true
  | _ => false

/-- The form of an expression tells that its values fit a type. -/
def Expr.bounded (model : Model) (locals : List Local) (type : IntType) : Expr → Bool
  | .const value => decide (type.Fits value)
  | .read var => (model.typeOf? locals var).any type.holds
  | .element var _ => (model.typeOf? locals var).any type.holds
  -- The host may answer anything, so an external function tells nothing.
  | .call (.function id) _ => (model.functions[id]?.bind Function.returns).any type.holds
  | .call (.external _) _ => false
  | .unary op _ => op == .not
  | .binary op _ _ => op.isTruth

/-- What an instruction returns from a function fits the type of the function by its form. -/
def Function.admits (model : Model) (function : Function) : Instr → Bool
  | .returnFrom (some value) => function.returns.all fun type =>
      value.bounded model function.locals type
  | _ => true

/-- Every function of a program returns only what fits its type by its form. -/
def Program.tight (program : Program) : Bool :=
  (program.model.functions.zip program.functions).all fun (function, code) =>
    code.all (function.admits program.model)

/-- The code of a function in a tight program admits no other return. -/
theorem Program.tight_admits {program : Program} (tight : program.tight = true) {id : FunctionId}
    {function : Function} {code : Code} (found : program.model.functions[id]? = some function)
    (made : program.functions[id]? = some code) :
    ∀ instr ∈ code, function.admits program.model instr = true := by
  have paired : (function, code) ∈ program.model.functions.zip program.functions :=
    List.mem_of_getElem? (List.getElem?_zip_eq_some.mpr ⟨found, made⟩)
  exact List.all_eq_true.mp (List.all_eq_true.mp tight (function, code) paired)

namespace Exec

variable {function : Function}

section Values

variable {σ : Type} {α : Type}

/-- The value that a run gives. -/
def value? (run : Exec σ α) (machine : Machine σ) : Option α :=
  match run machine with
  | .ok value _ => some value
  | .error _ _ => none

theorem ok_of_value? {run : Exec σ α} {machine : Machine σ} {value : α}
    (given : value? run machine = some value) : ∃ after, run machine = .ok value after := by
  unfold value? at given
  cases ran : run machine with
  | ok found after =>
    rw [ran] at given
    cases given
    exact ⟨after, rfl⟩
  | error halt after =>
    rw [ran] at given
    cases given

/-- A kept condition and the kind of values that a run gives do not depend on each other. -/
theorem Keeps.returning {kept : Machine σ → Prop} {stops : Halt → Prop} {run : Exec σ α}
    {post final : α → Prop} (keeps : Keeps kept stops run post) (gives : Returns run final) :
    Keeps kept stops run final := by
  intro machine held
  have outcome := keeps machine held
  cases ran : run machine with
  | ok value after =>
    rw [ran] at outcome
    exact ⟨outcome.1, gives machine value after ran⟩
  | error halt after =>
    rw [ran] at outcome
    exact outcome

theorem require_returns {found : Option α} {post : α → Prop}
    (given : ∀ value, found = some value → post value) :
    Returns (σ := σ) (require found) post := by
  intro machine value after ran
  cases found with
  | none => cases ran
  | some known =>
    cases ran
    exact given value rfl

end Values

variable {σ : Type} [Host σ] {program : Program} {host : σ} {callees : Callees σ}
  {frame : Frame} {locals : List Local} {type : IntType}

/-- The value in a slot fits the type of its variable. -/
theorem load_fits (fits : frame.Fitting locals) {slot : Slot}
    (known : program.model.typeOf? locals slot.var = some type) :
    Truncates program host (load program.model frame slot) type.Fits := by
  cases slot with
  | static id index =>
    refine Keeps.get fun machine fitting => (truncates_law.found _).returning ?_
    refine require_returns fun value read => ?_
    exact fitting.statics id index type value (List.getElem?_map ▸ known) read
  | localVar id index =>
    refine (truncates_law.found _).returning (require_returns fun value read => ?_)
    exact fits.values id index type value (List.getElem?_map ▸ known) read
  | external id =>
    obtain ⟨external, listed, typed⟩ := Option.bind_eq_some_iff.mp known
    cases kind : external.kind with
    | function =>
      rw [kind] at typed
      cases typed
    | data declared volatile =>
      rw [kind] at typed
      cases typed
      exact (load_truncates frame _).returning (load_external listed kind)

theorem compute_fits {op : BinaryOp} (telling : op.isTruth = true) (left right : Int64) :
    Truncates program host (compute op left right) type.Fits := by
  cases op
  case equal | notEqual | less | lessOrEqual | greater | greaterOrEqual | logicAnd | logicOr =>
    exact truncates_law.pure (type.fits_truth _)
  all_goals cases telling

/-- The functions that can be called keep to their types. -/
def CalleesObey (program : Program) (host : σ) (callees : Callees σ) : Prop :=
  ∀ (id : FunctionId) function type args, program.model.functions[id]? = some function →
    function.returns = some type → Truncates program host (callees.function id args) type.Fits

/-- An expression has values that fit, if its form tells so. -/
theorem eval_bounded (inner : CalleesTruncate program host callees)
    (obeyed : CalleesObey program host callees) (fits : frame.Fitting locals) {expr : Expr}
    (refers : expr.Refers program.model.dataReferences)
    (bounded : expr.bounded program.model locals type = true) :
    Truncates program host (eval program.model callees frame expr) type.Fits := by
  have law : OpenLaw (Truncates program host) := truncates_law
  have reads := reads_truncate inner
  -- A variable is read wherever its index is, and gives what fits its own type.
  have looked : ∀ var index, program.model.dataReferences.var var →
      (program.model.typeOf? locals var).any type.holds = true →
      Truncates program host (locate program.model frame var index >>= load program.model frame)
        type.Fits := by
    intro var index granted typed
    obtain ⟨narrow, known, holds⟩ := (Option.any_eq_true _ _).mp typed
    refine law.bind (truncates_law.locate frame var index) fun slot same => ?_
    exact law.weaken (load_fits fits (same ▸ known)) fun _ fitting => fitting.widen holds
  -- Only the outermost part decides, so parts of an expression may have any values.
  cases expr with
  | const value => exact law.pure (of_decide_eq_true bounded)
  | read var => exact looked var 0 refers bounded
  | element var index =>
    exact law.bind (law.eval reads trivial refers.2) fun value _ =>
      looked var value refers.1 bounded
  | call callee args =>
    refine law.bind (law.evalAll reads trivial refers.2) fun values _ => ?_
    cases callee with
    | external id => cases bounded
    | function id =>
      obtain ⟨narrow, known, holds⟩ := (Option.any_eq_true _ _).mp bounded
      obtain ⟨function, found, declared⟩ := Option.bind_eq_some_iff.mp known
      exact law.weaken (obeyed id function narrow values found declared) fun _ fitting =>
        fitting.widen holds
  | unary op operand =>
    obtain rfl : op = .not := by simpa [Expr.bounded] using bounded
    have evaluated : operand.Refers program.model.dataReferences := refers
    exact law.bind (law.eval reads trivial evaluated) fun _ _ => law.pure (type.fits_truth _)
  | binary op left right =>
    have first : Truncates program host (eval program.model callees frame left) fun _ => True :=
      law.eval reads trivial refers.1
    have second : Truncates program host (eval program.model callees frame right) fun _ => True :=
      law.eval reads trivial refers.2
    have telling : op.isTruth = true := bounded
    -- A logical operator may know its value from the left side alone.
    cases op
    case logicAnd =>
      refine law.bind first fun value _ => ?_
      split
      · exact law.pure type.fits_zero
      · exact law.bind second fun _ _ => law.pure (type.fits_truth _)
    case logicOr =>
      refine law.bind first fun value _ => ?_
      split
      · exact law.pure (type.fits_truth true)
      · exact law.bind second fun _ _ => law.pure (type.fits_truth _)
    all_goals exact law.bind first fun _ _ => law.bind second fun _ _ => compute_fits telling _ _

/-- Only a `return` with a value leaves a body with one. -/
theorem execute_novalue {own : Option CoroutineId} {instr : Instr}
    (other : ∀ value, instr ≠ .returnFrom (some value)) :
    Returns (execute program callees own frame instr) fun result =>
      ∀ value, result.1 ≠ .leave (some value) := by
  have law : OpenLaw (σ := σ) Returns := returns_law
  have any {α : Type} (run : Exec σ α) : Returns run fun _ => True := fun _ _ _ _ => trivial
  cases instr with
  | setLabel label | jump label | suspend | resume point => exact law.pure (by simp)
  | jumpIfFalse condition label | returnUnless condition hint =>
    refine law.bind (any _) fun value _ => law.pure ?_
    simp only
    split <;> simp
  | assign place op value | eval expr => exact law.bind (any _) fun _ _ => law.pure (by simp)
  | setState point =>
    cases own with
    | none => exact law.pure (by simp)
    | some id => exact law.bind (any _) fun _ _ => law.pure (by simp)
  | drive callee =>
    refine law.bind (any _) fun _ _ => law.bind (any _) fun _ _ => law.bind (any _) fun _ _ => ?_
    split
    · exact law.pure (by simp)
    · exact law.bind (any _) fun _ _ => law.pure (by simp)
  | finish =>
    cases own with
    | none => exact law.pure (by simp)
    | some id =>
      exact law.bind (any _) fun _ _ => law.bind (any _) fun _ _ => law.bind (any _) fun _ _ =>
        law.pure (by simp)
  | returnFrom value =>
    cases value with
    | none => exact law.pure (by simp)
    | some value => exact absurd rfl (other value)

/-- An instruction of a function leaves it with a value that fits, if its form tells so. -/
theorem execute_bounded (inner : CalleesTruncate program host callees)
    (obeyed : CalleesObey program host callees) (declared : function.returns = some type)
    (fits : frame.Fitting function.locals) {instr : Instr}
    (refers : instr.Refers program.model.dataReferences)
    (admitted : function.admits program.model instr = true) :
    Truncates program host (execute program callees none frame instr) fun result =>
      result.2.Fitting function.locals ∧
        ∀ value, result.1 = .leave value → ∀ returned ∈ value, type.Fits returned := by
  have law : OpenLaw (Truncates program host) := truncates_law
  -- Either the value of an expression is returned, or none is.
  by_cases returning : ∃ value, instr = .returnFrom (some value)
  · obtain ⟨value, rfl⟩ := returning
    have bounded : value.bounded program.model function.locals type = true := by
      simpa [Function.admits, declared] using admitted
    refine law.bind (eval_bounded inner obeyed fits (refers value rfl) bounded) fun found fitting =>
      law.pure ⟨fits, ?_⟩
    rintro _ ⟨⟩ _ ⟨⟩
    exact fitting
  · have plain : Returns (execute program callees none frame instr) _ :=
      execute_novalue fun value same => returning ⟨value, same⟩
    refine (execute_truncates inner frame refers).returning fun machine result after ran =>
      ⟨execute_frame refers fits machine result after ran, fun value left returned given => ?_⟩
    rw [Option.mem_def.mp given] at left
    exact absurd left (plain machine result after ran returned)

/-- The functions of a tight program keep to their types, however they call each other. -/
theorem callees_obey (typed : program.Typed) (closed : program.Closed)
    (tight : program.tight = true) (fuel levels : Nat) :
    CalleesObey program host (Exec.callees program fuel levels) := by
  have law : OpenLaw (Truncates program host) := truncates_law
  -- Functions that call each other do so one level further in.
  induction levels with
  | zero => exact fun _ _ _ _ _ _ => law.throw trivial
  | succ levels ih =>
    intro id function type args found declared
    refine law.require (fun _ => trivial) fun known listed => ?_
    obtain rfl := Option.some.inj (found.symm.trans listed)
    refine law.require (fun _ => trivial) fun code made => ?_
    have few : (args.take function.arity).length ≤ function.arity := List.length_take_le ..
    have body : program.model.body? (.function id) =
        some ⟨function.locals, function.arity, function.body⟩ :=
      Option.map_eq_some_iff.mpr ⟨function, found, rfl⟩
    have each : ∀ instr ∈ code, ∀ frame : Frame, frame.Fitting function.locals → _ :=
      fun instr member frame fits => execute_bounded (callees_truncate typed fuel levels) ih
        declared fits (typed (.function id) code made instr member)
        (Program.tight_admits tight found made instr member)
    have ran := law.runValue (fun value => ∀ returned ∈ value, type.Fits returned) (by simp) each
      fuel List.suffix_rfl (closed.enter_fitting body few)
    have ended : Truncates program host (runBody program fuel (Exec.callees program fuel levels)
        function.locals code (args.take function.arity)) fun value =>
          ∀ returned ∈ value, type.Fits returned :=
      law.bind (law.enter ran) fun _ given => law.pure given
    refine law.bind ended fun value given => ?_
    cases value with
    | none => exact law.pure type.fits_zero
    | some returned => exact law.pure (given returned rfl)

/-- A call of a function in a tight program has a value that fits. -/
theorem call_fits (typed : program.Typed) (closed : program.Closed) (tight : program.tight = true)
    (fuel levels : Nat) (frame : Frame) {id : FunctionId}
    (found : program.model.functions[id]? = some function) (declared : function.returns = some type)
    {args : List Expr} (refers : Expr.RefersAll program.model.dataReferences args) :
    Truncates program host (eval program.model (Exec.callees program fuel levels) frame
      (.call (.function id) args)) type.Fits := by
  have inner : CalleesTruncate program host (Exec.callees program fuel levels) :=
    callees_truncate typed fuel levels
  refine truncates_law.bind (truncates_law.evalAll (reads_truncate inner) trivial refers)
    fun values _ => ?_
  exact callees_obey typed closed tight fuel levels id function type values found declared

/-- Code that is run from some moment on comes to a `return` whose expression has a value. -/
def ComesToReturn (program : Program) (callees : Callees σ) (code : Code) (first : Moment σ)
    (value : Int64) : Prop :=
  ∃ moment expr rest left, Reaches program callees none code first moment ∧
    moment.rest = .returnFrom (some expr) :: rest ∧
    eval program.model callees moment.frame expr moment.machine = .ok value left

/-- A function gives the value of the `return` it comes to, or zero. -/
theorem runFunction_returns {fuel : Nat} {id : FunctionId} {args : List Int64}
    {machine after : Machine σ} {value : Int64}
    (found : program.model.functions[id]? = some function)
    (ran : runFunction program fuel callees id args machine = .ok value after) :
    value = 0 ∨ ∃ code, program.functions[id]? = some code ∧
      ComesToReturn program callees code ⟨code, .enter function.locals (args.take function.arity),
        { machine with depth := machine.depth + 1 }⟩ value := by
  rw [runFunction, found, require_some, pure_bind] at ran
  cases made : program.functions[id]? with
  | none =>
    rw [made] at ran
    cases ran
  | some code =>
    rw [made, require_some, pure_bind] at ran
    obtain ⟨result, left, body, last⟩ := bind_ok ran
    cases last
    obtain ⟨⟨found, frame⟩, inside, entered, same⟩ := bind_ok body
    cases same
    obtain ⟨-, between, went, -⟩ := enter_ok entered
    obtain ⟨moment, reached, leaves⟩ := run_leaves fuel went
    -- A body that ends, or is left without a value, has given none.
    cases result with
    | none => exact .inl rfl
    | some returned =>
      refine .inr ⟨code, rfl, moment, ?_⟩
      cases leaves with
      | @left instr rest frame frame' machine after value done =>
        by_cases returning : ∃ expr, instr = .returnFrom (some expr)
        · obtain ⟨expr, rfl⟩ := returning
          obtain ⟨value, left, evaluated, given⟩ := bind_ok done
          cases given
          exact ⟨expr, rest, _, reached, rfl, evaluated⟩
        · exact absurd rfl (execute_novalue (fun expr same => returning ⟨expr, same⟩) _ _ _ done
            returned)

end Exec

namespace Machine

variable {σ : Type} [Host σ]

/--
A call gives what the function returned, and it may be more than the type of the function can hold.

What a variable no wider than that type keeps of it is the same either way. In a tight program,
where all returned expressions fit by their form, the value of every call fits.
-/
theorem results_as_returned {source : Source} {program : Program}
    {warnings : List (Located Warning)} (linked : source.link = .ok (program, warnings))
    {id : FunctionId} {function : Function} {type : IntType}
    (found : program.model.functions[id]? = some function)
    (declared : function.returns = some type) {fuel levels : Nat} {frame : Frame}
    {args : List Expr} {machine after : Machine σ} {value : Int64}
    (called : Exec.eval program.model (Exec.callees program fuel levels) frame
      (.call (.function id) args) machine = .ok value after) :
    (value = 0 ∨ ∃ inner code values between, levels = inner + 1 ∧
      program.functions[id]? = some code ∧
      Exec.evalAll program.model (Exec.callees program fuel levels) frame args machine =
        .ok values between ∧
      Exec.ComesToReturn program (Exec.callees program fuel inner) code
        ⟨code, .enter function.locals (values.take function.arity),
          { between with depth := between.depth + 1 }⟩ value) ∧
    (∀ narrow : IntType, narrow.bits ≤ type.bits →
      narrow.wrap value = narrow.wrap (type.wrap value)) ∧
    (program.tight = true → Expr.RefersAll program.model.dataReferences args →
      ∀ host, machine.Fitting program host → type.wrap value = value) := by
  refine ⟨?_, fun narrow fewer => (IntType.wrap_wrap_of_le fewer value).symm,
    fun tight refers host fits => ?_⟩
  · obtain ⟨values, between, evaluated, ran⟩ := Exec.bind_ok called
    cases levels with
    | zero => cases ran
    | succ inner =>
      refine (Exec.runFunction_returns found ran).imp (fun zero => zero) fun returned => ?_
      obtain ⟨code, made, comes⟩ := returned
      exact ⟨inner, code, values, between, rfl, made, evaluated, comes⟩
  · obtain ⟨model, -, formed, lowered⟩ := Source.link_named linked
    have typed := lowered.typed formed
    have kept := Exec.call_fits typed (Source.link_closed linked) tight fuel levels frame found
      declared refers machine fits
    rw [called] at kept
    exact kept.2

end Machine

/-- A function that returns what it is given, made to fit. -/
def Source.passing : Source :=
  .ofText "passing" "fn f(u8 n)->u8{return n;}main{}"

/-- The function gives what is left of too large an argument. -/
theorem Source.passing_links : ∃ program warnings, passing.link = .ok (program, warnings) ∧
    program.model.functions.map Function.returns = [some .u8] ∧ program.tight = true ∧
    Exec.value? (Exec.eval program.model (Exec.callees program 5 1) (.enter [] [])
      (.call (.function 0) [.const 300])) (Machine.start program Bench.empty) = some 44 :=
  passing.links_of_decide (by decide +kernel)

/-- What is left of the argument fits the type of the function. -/
theorem Machine.passing_returns_what_fits : ∃ program warnings,
    Source.passing.link = .ok (program, warnings) ∧
    Exec.value? (Exec.eval program.model (Exec.callees program 5 1) (.enter [] [])
      (.call (.function 0) [.const 300])) (Machine.start program Bench.empty) = some 44 ∧
    IntType.u8.wrap 44 = 44 := by
  obtain ⟨program, warnings, linked, declared, tight, given⟩ := Source.passing_links
  obtain ⟨function, one, returns⟩ := List.map_eq_singleton_iff.mp declared
  obtain ⟨after, called⟩ := Exec.ok_of_value? given
  obtain ⟨model, named, formed, lowered⟩ := Source.link_named linked
  have found : program.model.functions[0]? = some function := by simp [one]
  obtain ⟨-, -, fits⟩ := results_as_returned linked found returns called
  exact ⟨program, warnings, linked, given, fits tight ⟨trivial, trivial⟩ Bench.empty
    (start_fitting lowered named Bench.empty)⟩

/-- A variable takes the value of a function that returns more than its type can hold. -/
def Source.exceeding : Source :=
  .ofText "exceeding" "static u16 g;\nfn f() -> u8 \x7b return 300; \x7d\nmain \x7b g = f(); \x7d"

/-- The value reaches the variable as it was returned, and it does not fit. -/
theorem Source.exceeding_returns : ∃ program warnings,
    exceeding.link = .ok (program, warnings) ∧
    program.model.functions.map Function.returns = [some .u8] ∧
    Exec.value? (Exec.eval program.model (Exec.callees program 5 1) (.enter [] [])
      (.call (.function 0) [])) (Machine.start program Bench.empty) = some 300 ∧
    IntType.u8.wrap 300 ≠ 300 ∧
    ((Machine.start program Bench.empty).after program [(9, .boot)]).statics = #[#[300]] :=
  exceeding.links_of_decide (by decide +kernel)

end Coro
