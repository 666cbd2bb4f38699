import Coro.Proofs.Registers.Placement

/-!
A wish for registers is refused only where it must be.

Wishes are served one after the other, and each sees the registers that those before it took. As
registers are never given back, what is taken then is taken in the end.
-/

namespace Coro

variable {request : BindingRequest} {bytes first : Nat} {program : Program} {hint : RegisterHint}

/-! ## The order of wishes -/

/-- The wish for a single register. -/
def RegisterClass.IsExact (group : RegisterClass) : Prop :=
  ∃ number, group = .exact number

theorem BindingRequest.isExact_iff : request.isExact = true ↔ request.hint.group.IsExact := by
  rw [isExact, RegisterClass.IsExact]
  cases request.hint.group <;> simp

/-- One wish comes before another: those for single registers first, and else in the text. -/
def RegisterHint.Precedes (first second : RegisterHint) : Prop :=
  first.group.IsExact ∧ ¬ second.group.IsExact ∨
    (first.group.IsExact ↔ second.group.IsExact) ∧
      first.location.start.Before second.location.start

theorem RegisterHint.Precedes.asymm {first second : RegisterHint} (one : first.Precedes second) :
    ¬ second.Precedes first := by
  rintro (⟨exactly, pooled⟩ | ⟨alike, earlier⟩)
  · rcases one with ⟨other, -⟩ | ⟨alike, -⟩
    · exact pooled other
    · exact pooled (alike.mpr exactly)
  · rcases one with ⟨exactly, pooled⟩ | ⟨-, before⟩
    · exact pooled (alike.mpr exactly)
    · exact before.asymm earlier

theorem Position.Before.of_ne {one other : Position} (different : one ≠ other)
    (ordered : one.line < other.line ∨ one.line = other.line ∧ one.column ≤ other.column) :
    one.Before other := by
  obtain ⟨line, column⟩ := one
  obtain ⟨line', column'⟩ := other
  rw [ne_eq, Position.mk.injEq] at different
  simp only [Position.Before] at ordered ⊢
  omega

/-- Wishes at different places are served in their order. -/
theorem Program.servedRequests_ordered
    (apart : program.bindingRequests.Pairwise fun one other => one.hint.location.start ≠
      other.hint.location.start) :
    program.servedRequests.Pairwise fun one other => one.hint.Precedes other.hint := by
  -- Sorting keeps the places apart, so that none stands at the place of the one before it.
  have sorted : (program.bindingRequests.mergeSort BindingRequest.notAfter).Pairwise
      fun one other => one.hint.location.start.Before other.hint.location.start := by
    have still := (List.mergeSort_perm program.bindingRequests
      BindingRequest.notAfter).symm.pairwise apart fun different => different.symm
    refine (List.pairwise_mergeSort ?_ ?_ program.bindingRequests).imp₂ ?_ still
    · intro first second third
      simp only [BindingRequest.notAfter, decide_eq_true_eq]
      omega
    · intro first second
      simp only [BindingRequest.notAfter, Bool.or_eq_true, decide_eq_true_eq]
      omega
    · intro first second ordered different
      simp only [BindingRequest.notAfter, decide_eq_true_eq] at ordered
      exact .of_ne different ordered
  have alike {one other : BindingRequest} (same : one.isExact = other.isExact)
      (before : one.hint.location.start.Before other.hint.location.start) :
      one.hint.Precedes other.hint := by
    refine .inr ⟨?_, before⟩
    rw [← BindingRequest.isExact_iff, ← BindingRequest.isExact_iff, same]
  refine List.pairwise_append.mpr ⟨?_, ?_, fun one here other there => ?_⟩
  · refine (sorted.filter _).imp_of_mem fun here there => alike ?_
    rw [(List.mem_filter.mp here).2, (List.mem_filter.mp there).2]
  · refine (sorted.filter _).imp_of_mem fun here there => alike ?_
    have first := (List.mem_filter.mp here).2
    have second := (List.mem_filter.mp there).2
    rw [Bool.not_eq_true'] at first second
    rw [first, second]
  · have pooled := (List.mem_filter.mp there).2
    rw [Bool.not_eq_true', ← Bool.not_eq_true] at pooled
    exact .inl ⟨BindingRequest.isExact_iff.mp (List.mem_filter.mp here).2,
      mt BindingRequest.isExact_iff.mpr pooled⟩

/-! ## Registers for one wish -/

/-- Registers from r2 to r17 hold so many bytes from a first one on; larger values start even. -/
def Fits (first bytes : Nat) : Prop :=
  2 ≤ first ∧ first + bytes ≤ 18 ∧ (1 < bytes → first % 2 = 0)

/-- The registers from a first one on are those that a wish could get. -/
def RegisterClass.Suits (group : RegisterClass) (first bytes : Nat) : Prop :=
  Fits first bytes ∧ group.Holds first bytes

theorem registerSpan_avr (positive : 0 < bytes) {span : List Nat} :
    registerSpan .avr first bytes = some span ↔ span = List.range' first bytes ∧
      Fits first bytes := by
  rw [registerSpan_eq_some]
  constructor
  · rintro ⟨rfl, even, known⟩
    -- The ends of the span tell where it lies.
    have lowest := List.mem_range'_1.mp (known first (List.mem_range'_1.mpr (by omega)))
    have highest := List.mem_range'_1.mp
      (known (first + bytes - 1) (List.mem_range'_1.mpr (by omega)))
    exact ⟨rfl, lowest.1, by omega, even⟩
  · rintro ⟨rfl, low, high, even⟩
    refine ⟨rfl, even, fun register member => List.mem_range'_1.mpr ?_⟩
    have := List.mem_range'_1.mp member
    omega

/-- All registers of a span are of a class if the span lies where the class has them. -/
theorem allows_iff_holds {group : RegisterClass} (positive : 0 < bytes) (fits : Fits first bytes)
    (pooled : ¬ group.IsExact) :
    (∀ register ∈ List.range' first bytes, group.allows register = true) ↔
      group.Holds first bytes := by
  obtain ⟨low, high, -⟩ := fits
  cases group with
  | low =>
    simp only [RegisterClass.allows, isLowRegister, decide_eq_true_eq, List.mem_range'_1,
      RegisterClass.Holds]
    refine ⟨fun all => ⟨low, ?_⟩, fun below register inside => by omega⟩
    have := all (first + bytes - 1) (by omega)
    omega
  | high =>
    simp only [RegisterClass.allows, isLowRegister, Bool.not_eq_true', decide_eq_false_iff_not,
      List.mem_range'_1, RegisterClass.Holds]
    refine ⟨fun all => ⟨?_, high⟩, fun above register inside => by omega⟩
    have := all first (by omega)
    omega
  | any => simp [RegisterClass.allows, RegisterClass.Holds]
  | exact number => exact absurd ⟨number, rfl⟩ pooled

namespace Plan

variable {plan : Plan} {request : BindingRequest} {number : Nat}

/-- Some register from a first one on is taken. -/
def Blocks (plan : Plan) (first bytes : Nat) : Prop :=
  ∃ binding ∈ plan.bindings, ∃ register ∈ binding.registers, register ∈ List.range' first bytes

theorem not_blocks :
    ¬ plan.Blocks first bytes ↔ ∀ register ∈ List.range' first bytes, plan.Free register := by
  rw [Blocks]
  constructor
  · intro clear register inside binding member taken
    exact clear ⟨binding, member, register, taken, inside⟩
  · rintro free ⟨binding, member, register, taken, inside⟩
    exact free register inside binding member taken

theorem owner?_eq_some {register : Nat} {owner : String}
    (found : plan.owner? register = some owner) :
    ∃ binding ∈ plan.bindings, register ∈ binding.registers ∧ binding.path = owner := by
  obtain ⟨binding, listed, rfl⟩ := Option.map_eq_some_iff.mp found
  exact ⟨binding, List.mem_of_find?_eq_some listed, by simpa using List.find?_some listed, rfl⟩

/-- A wish for a single register fails if the registers are not there, or somebody has one. -/
theorem exactSpan_cases (positive : 0 < request.bytes) :
    ¬ Fits number request.bytes ∧ plan.exactSpan .avr request number =
        .error (.registerUnavailable request.path (registerName number)) ∨
    Fits number request.bytes ∧ ¬ plan.Blocks number request.bytes ∧
      plan.exactSpan .avr request number = .ok (List.range' number request.bytes) ∨
    Fits number request.bytes ∧ ∃ owner ∈ plan.bindings,
      (∃ register ∈ owner.registers, register ∈ List.range' number request.bytes) ∧
      plan.exactSpan .avr request number = .error
        (.conflictingRegisterHint request.path (registerName number) owner.path) := by
  rw [exactSpan]
  cases spanned : registerSpan .avr number request.bytes with
  | none =>
    refine .inl ⟨fun fits => ?_, rfl⟩
    rw [(registerSpan_avr positive).mpr ⟨rfl, fits⟩] at spanned
    cases spanned
  | some span =>
    obtain ⟨rfl, fits⟩ := (registerSpan_avr positive).mp spanned
    refine .inr ?_
    cases owned : (List.range' number request.bytes).findSome? plan.owner? with
    | none =>
      refine .inl ⟨fits, not_blocks.mpr fun register inside => owner?_eq_none.mp ?_, ?_⟩
      · exact List.findSome?_eq_none_iff.mp owned register inside
      · simp only [owned]
        rfl
    | some owner =>
      obtain ⟨register, inside, found⟩ := List.exists_of_findSome?_eq_some owned
      obtain ⟨binding, member, taken, rfl⟩ := owner?_eq_some found
      refine .inr ⟨fits, binding, member, ⟨register, taken, inside⟩, ?_⟩
      simp only [owned]
      rfl

theorem span_unbindable (unbindable : request.bindable = false) :
    plan.span .avr request = .error (.unbindableStorage request.path) := by
  simp [span, unbindable]
  rfl

theorem span_exact (bindable : request.bindable = true)
    (exactly : request.hint.group = .exact number) :
    plan.span .avr request = plan.exactSpan .avr request number := by
  simp [span, bindable, exactly]

theorem span_pooled (bindable : request.bindable = true) (pooled : ¬ request.hint.group.IsExact) :
    plan.span .avr request = plan.pooledSpan .avr request request.hint.group := by
  rw [span, bindable]
  cases group : request.hint.group with
  | exact number => exact absurd ⟨number, group⟩ pooled
  | _ => rfl

/-- A wish for a class gets the lowest free registers, if there are any. -/
theorem pooledSpan_cases (positive : 0 < request.bytes) (pooled : ¬ request.hint.group.IsExact) :
    (∃ first, plan.pooledSpan .avr request request.hint.group =
        .ok (List.range' first request.bytes) ∧
      request.hint.group.Suits first request.bytes ∧ ¬ plan.Blocks first request.bytes ∧
      ∀ lower < first, request.hint.group.Suits lower request.bytes →
        plan.Blocks lower request.bytes) ∨
    plan.pooledSpan .avr request request.hint.group =
        .error (.registerPoolExhausted request.path request.hint.group) ∧
      ∀ first, request.hint.group.Suits first request.bytes → plan.Blocks first request.bytes := by
  let tried (first : Nat) : Bool := (registerSpan .avr first request.bytes).any fun span =>
    span.all fun register => request.hint.group.allows register && (plan.owner? register).isNone
  -- A span is taken if it suits the wish and nobody has a register of it.
  have tried_iff {first : Nat} : tried first = true ↔
      request.hint.group.Suits first request.bytes ∧ ¬ plan.Blocks first request.bytes := by
    by_cases inside : Fits first request.bytes
    · rw [RegisterClass.Suits, ← allows_iff_holds positive inside pooled, not_blocks, and_assoc,
        ← forall₂_and]
      simp [tried, (registerSpan_avr positive).mpr ⟨rfl, inside⟩, inside, owner?_eq_none]
    · cases spanned : registerSpan .avr first request.bytes with
      | none => simp [tried, spanned, RegisterClass.Suits, inside]
      | some span => exact absurd ((registerSpan_avr positive).mp spanned).2 inside
  -- What suits the wish is one of those that are tried, from the lowest on.
  have listed {first : Nat} (inside : Fits first request.bytes) : 2 ≤ first ∧ first < 2 + 16 := by
    unfold Fits at inside
    omega
  simp only [pooledSpan, List.find?_filterMap]
  cases found : Target.avr.registers.find? tried with
  | some first =>
    obtain ⟨fit, -, none⟩ := List.find?_range'_eq_some.mp found
    obtain ⟨suits, clear⟩ := tried_iff.mp fit
    have spanned := (registerSpan_avr positive).mpr ⟨rfl, suits.1⟩
    refine .inl ⟨first, ?_, suits, clear, fun lower smaller suits => ?_⟩
    · simp [spanned]
      rfl
    · by_contra clear
      have unfit := none lower (listed suits.1).1 smaller
      simp [tried_iff.mpr ⟨suits, clear⟩] at unfit
  | none =>
    refine .inr ⟨rfl, fun first suits => ?_⟩
    by_contra clear
    have unfit := List.find?_range'_eq_none.mp found first (listed suits.1).1 (listed suits.1).2
    simp [tried_iff.mpr ⟨suits, clear⟩] at unfit

/-! ## One wish among the others -/

variable (plan) (target : Target)

/-- Some wishes are served, and then the others with the plan that is there. -/
theorem serve_append (front back : List BindingRequest) :
    plan.serve target (front ++ back) =
      (((plan.serve target front).1.serve target back).1,
        (plan.serve target front).2 ++ ((plan.serve target front).1.serve target back).2) := by
  induction front generalizing plan with
  | nil => rfl
  | cons request rest ih =>
    rw [List.cons_append, serve, serve]
    split
    · exact ih _
    · simp [ih]

/-- Bindings and warnings come behind those that are there, each for one of the wishes. -/
theorem serve_adds (requests : List BindingRequest) :
    (∃ more, (plan.serve target requests).1.bindings = plan.bindings ++ more ∧
      ∀ binding ∈ more, ∃ request ∈ requests, request.storage = binding.storage) ∧
    ∀ warning ∈ (plan.serve target requests).2,
      ∃ request ∈ requests, request.hint.location = warning.location := by
  induction requests generalizing plan with
  | nil => exact ⟨⟨[], by simp [serve]⟩, by simp [serve]⟩
  | cons request rest ih =>
    rw [serve]
    split
    · rename_i registers given
      obtain ⟨⟨more, grown, told⟩, warned⟩ := ih ⟨plan.bindings ++ [⟨request.storage, request.path,
        registers⟩]⟩
      refine ⟨⟨_ :: more, by rw [grown, List.append_assoc, List.singleton_append], ?_⟩, ?_⟩
      · exact List.forall_mem_cons.mpr ⟨⟨request, List.mem_cons_self, rfl⟩, fun binding member =>
          (told binding member).imp fun _ => And.imp_left (List.mem_cons_of_mem _)⟩
      · exact fun warning member =>
          (warned warning member).imp fun _ => And.imp_left (List.mem_cons_of_mem _)
    · obtain ⟨⟨more, grown, told⟩, warned⟩ := ih plan
      refine ⟨⟨more, grown, fun binding member =>
        (told binding member).imp fun _ => And.imp_left (List.mem_cons_of_mem _)⟩, ?_⟩
      exact List.forall_mem_cons.mpr ⟨⟨request, List.mem_cons_self, rfl⟩, fun warning member =>
        (warned warning member).imp fun _ => And.imp_left (List.mem_cons_of_mem _)⟩

/-- Wishes for other storage, at other places. -/
def Spares (requests : List BindingRequest) (request : BindingRequest) : Prop :=
  ∀ other ∈ requests, other.storage ≠ request.storage ∧
    other.hint.location ≠ request.hint.location

/-- Wishes for other storage, at other places, lead to other bindings and warnings. -/
theorem serve_spares {requests : List BindingRequest} (spares : Spares requests request) :
    (plan.serve target requests).1.bindings.filter (·.storage = request.storage) =
      plan.bindings.filter (·.storage = request.storage) ∧
    (plan.serve target requests).2.filter (·.location = request.hint.location) = [] := by
  obtain ⟨⟨more, grown, told⟩, warned⟩ := plan.serve_adds target requests
  constructor
  · have none : more.filter (·.storage = request.storage) = [] := by
      refine List.filter_eq_nil_iff.mpr fun binding member => ?_
      obtain ⟨other, listed, same⟩ := told binding member
      simpa [← same] using (spares other listed).1
    rw [grown, List.filter_append, none, List.append_nil]
  · refine List.filter_eq_nil_iff.mpr fun warning member => ?_
    obtain ⟨other, listed, same⟩ := warned warning member
    simpa [← same] using (spares other listed).2

/-- A wish is met or not by the plan that it finds. -/
theorem serve_outcome {front back : List BindingRequest} (early : Spares front request)
    (late : Spares back request) :
    let found := (empty.serve target front).1
    let served := empty.serve target (front ++ request :: back)
    (∃ registers, found.span target request = .ok registers ∧
      served.1.bindings.filter (·.storage = request.storage) =
        [⟨request.storage, request.path, registers⟩] ∧
      served.2.filter (·.location = request.hint.location) = []) ∨
    ∃ warning, found.span target request = .error warning ∧
      served.1.bindings.filter (·.storage = request.storage) = [] ∧
      served.2.filter (·.location = request.hint.location) =
        [⟨warning, request.hint.location⟩] := by
  obtain ⟨bound, warned⟩ := empty.serve_spares target early
  have none : empty.bindings.filter (·.storage = request.storage) = [] := rfl
  rw [none] at bound
  simp only [serve_append, List.filter_append, warned, List.nil_append]
  generalize (empty.serve target front).1 = found at bound ⊢
  cases given : found.span target request with
  | ok registers =>
    obtain ⟨later, quiet⟩ := serve_spares
      ⟨found.bindings ++ [⟨request.storage, request.path, registers⟩]⟩ target late
    refine .inl ⟨registers, rfl, ?_, ?_⟩
    · simpa [serve, given, bound] using later
    · simpa [serve, given] using quiet
  | error warning =>
    obtain ⟨later, quiet⟩ := serve_spares found target late
    refine .inr ⟨warning, rfl, ?_, ?_⟩
    · simpa [serve, given, bound] using later
    · simpa [serve, given] using quiet

end Plan

/-- The path of some storage, as warnings tell it. -/
def Program.path? (program : Program) : Storage → Option String
  | .static id => program.model.statics[id]?.map fun storage => storage.path.dotted
  | .state id => program.model.coroutines[id]?.map fun coroutine =>
    coroutine.path.dotted ++ ".state"

/-- A binding was made for a wish that comes before another. -/
def Program.Earlier (program : Program) (binding : Binding) (hint : RegisterHint) : Prop :=
  ∃ other, program.hint? binding.storage = some other ∧ other.Precedes hint

/-- What happens when it is the turn of a wish, with the plan that it finds. -/
structure Program.Turn (program : Program) (plan : Plan) (unmet : List (Located Warning))
    (request : BindingRequest) (found : Plan) : Prop where
  /-- All bindings so far are for earlier wishes, and those to come are not. -/
  earlier : ∀ binding, binding ∈ found.bindings ↔
    binding ∈ plan.bindings ∧ program.Earlier binding request.hint
  outcome : (∃ registers, found.span .avr request = .ok registers ∧
      plan.bindings.filter (·.storage = request.storage) =
        [⟨request.storage, request.path, registers⟩] ∧
      unmet.filter (·.location = request.hint.location) = []) ∨
    ∃ warning, found.span .avr request = .error warning ∧
      plan.bindings.filter (·.storage = request.storage) = [] ∧
      unmet.filter (·.location = request.hint.location) = [⟨warning, request.hint.location⟩]

/-- Every wish has its turn. -/
theorem Program.exists_turn
    (apart : program.bindingRequests.Pairwise fun one other => one.hint.location.start ≠
      other.hint.location.start) (member : request ∈ program.bindingRequests) :
    ∃ found, program.Turn (program.bindRegisters .avr).1 (program.bindRegisters .avr).2 request
      found := by
  have perm := program.servedRequests_perm
  have wishes : ∀ other ∈ program.servedRequests, program.Wishes other := fun other listed =>
    bindingRequests_wishes other (perm.mem_iff.mp listed)
  have places := perm.symm.pairwise apart fun different => different.symm
  have once : program.servedRequests.Pairwise fun one other => one.storage ≠ other.storage :=
    List.pairwise_map.mp (((perm.map BindingRequest.storage).nodup_iff).mpr bindingRequests_nodup)
  have ordered := servedRequests_ordered apart
  obtain ⟨front, back, split⟩ := List.append_of_mem (perm.mem_iff.mpr member)
  have served : program.bindRegisters .avr = Plan.empty.serve .avr (front ++ request :: back) := by
    rw [← split]
    rfl
  rw [split, List.pairwise_append, List.pairwise_cons] at places once ordered
  rw [served]
  refine ⟨(Plan.empty.serve .avr front).1, fun binding => ?_,
    Plan.serve_outcome .avr (fun other listed => ⟨?_, fun same => ?_⟩)
      fun other listed => ⟨?_, fun same => ?_⟩⟩
  · -- What is there already was made for those in front, and all else is for the others.
    rw [split] at wishes
    rw [Plan.serve_append]
    obtain ⟨⟨more, grown, told⟩, -⟩ := Plan.serve_adds (Plan.empty.serve .avr front).1 .avr
      (request :: back)
    rw [grown, List.mem_append]
    constructor
    · intro there
      obtain ⟨⟨made, first, known⟩, -⟩ := Plan.serve_adds .empty .avr front
      rw [first] at there
      obtain ⟨other, listed, same⟩ := known binding (by simpa [Plan.empty] using there)
      refine ⟨.inl (first ▸ there), other.hint, ?_, ordered.2.2 other listed request (by simp)⟩
      exact same ▸ (wishes other (by simp [listed])).hint
    · rintro ⟨there | later, hint, known, precedes⟩
      · exact there
      · obtain ⟨other, listed, same⟩ := told binding later
        have hinted := (wishes other (List.mem_append_right _ listed)).hint
        rw [same, known] at hinted
        cases hinted
        rcases List.mem_cons.mp listed with rfl | behind
        · exact absurd precedes precedes.asymm
        · exact absurd precedes (ordered.2.1.1 other behind).asymm
  · exact once.2.2 other listed request List.mem_cons_self
  · exact places.2.2 other listed request List.mem_cons_self (by rw [same])
  · exact (once.2.1.1 other listed).symm
  · exact places.2.1.1 other listed (by rw [same])

/-- Some register from a first one on was taken for a wish that comes before another. -/
def Program.TakenBefore (program : Program) (plan : Plan) (hint : RegisterHint)
    (first bytes : Nat) : Prop :=
  ∃ binding ∈ plan.bindings, program.Earlier binding hint ∧
    ∃ register ∈ binding.registers, register ∈ List.range' first bytes

/-- A binding for an earlier wish for a single register has a register that another one wants. -/
def Program.Rivals (program : Program) (owner : Binding) (hint : RegisterHint)
    (number bytes : Nat) : Prop :=
  (∃ other, program.hint? owner.storage = some other ∧ other.group.IsExact ∧
    other.location.start.Before hint.location.start) ∧
  ∃ register ∈ owner.registers, register ∈ List.range' number bytes

/-- What becomes of a wish for some storage. -/
structure Program.Settles (program : Program) (plan : Plan) (unmet : List (Located Warning))
    (storage : Storage) (hint : RegisterHint) (path : String) (bytes : Nat) : Prop where
  /-- There is one binding of the storage or one warning at the wish, and never both. -/
  once : (plan.bindings.filter (·.storage = storage)).length +
    (unmet.filter (·.location = hint.location)).length = 1
  unbindable : ¬ program.Bindable storage → ⟨.unbindableStorage path, hint.location⟩ ∈ unmet
  /-- A single register is not available if its registers are none of the target. -/
  unavailable : program.Bindable storage → ∀ number, hint.group = .exact number →
    (⟨.registerUnavailable path (registerName number), hint.location⟩ ∈ unmet ↔
      ¬ Fits number bytes)
  /-- Otherwise it is refused exactly if an earlier wish for a single register has it. -/
  conflicting : program.Bindable storage → ∀ number, hint.group = .exact number →
    Fits number bytes →
    ((∃ warning ∈ unmet, warning.location = hint.location) ↔
      ∃ owner ∈ plan.bindings, program.Rivals owner hint number bytes) ∧
    ∀ warning ∈ unmet, warning.location = hint.location →
      ∃ owner ∈ plan.bindings, program.Rivals owner hint number bytes ∧
        warning.value = .conflictingRegisterHint path (registerName number) owner.path
  /-- A class is exhausted only if no suitable registers are free in the end. -/
  exhausted : program.Bindable storage → ¬ hint.group.IsExact →
    ∀ warning ∈ unmet, warning.location = hint.location →
      warning.value = .registerPoolExhausted path hint.group ∧
      ∀ first, hint.group.Suits first bytes → plan.Blocks first bytes
  /-- Of a class, the lowest registers are bound that no earlier wish has taken. -/
  lowest : program.Bindable storage → ¬ hint.group.IsExact →
    ∀ binding ∈ plan.bindings, binding.storage = storage →
      ∃ first, binding.registers = List.range' first bytes ∧ hint.group.Suits first bytes ∧
        ¬ program.TakenBefore plan hint first bytes ∧
        ∀ lower < first, hint.group.Suits lower bytes →
          program.TakenBefore plan hint lower bytes

section Settling

variable {program : Program} {plan found : Plan} {unmet : List (Located Warning)}
  {request : BindingRequest}

theorem Program.Turn.blocks_iff (turn : program.Turn plan unmet request found) :
    found.Blocks first bytes ↔ program.TakenBefore plan request.hint first bytes := by
  simp only [Plan.Blocks, Program.TakenBefore, turn.earlier, and_assoc]

theorem Program.TakenBefore.blocks (taken : program.TakenBefore plan hint first bytes) :
    plan.Blocks first bytes := by
  obtain ⟨binding, member, -, overlap⟩ := taken
  exact ⟨binding, member, overlap⟩

/-- For a single register, the earlier wishes are those for single registers before it. -/
theorem Program.rivals_iff {owner : Binding} {number : Nat} (exactly : hint.group = .exact number) :
    program.Rivals owner hint number bytes ↔ program.Earlier owner hint ∧
      ∃ register ∈ owner.registers, register ∈ List.range' number bytes := by
  have single : hint.group.IsExact := ⟨number, exactly⟩
  refine and_congr_left fun _ => exists_congr fun other => and_congr_right fun _ => ?_
  constructor
  · rintro ⟨alike, before⟩
    exact .inr ⟨iff_of_true alike single, before⟩
  · rintro (⟨-, pooled⟩ | ⟨alike, before⟩)
    · exact absurd single pooled
    · exact ⟨alike.mpr single, before⟩

section Turns

variable (turn : program.Turn plan unmet request found)

include turn

/-- A wish that is met has the registers of its turn, and no warning. -/
theorem Program.Turn.met {registers : List Nat} (given : found.span .avr request = .ok registers) :
    (∀ warning ∈ unmet, warning.location ≠ request.hint.location) ∧
      ∀ binding ∈ plan.bindings, binding.storage = request.storage →
        binding.registers = registers := by
  rcases turn.outcome with ⟨others, same, bound, quiet⟩ | ⟨warning, refused, -⟩
  · cases same.symm.trans given
    refine ⟨by simpa using quiet, fun binding member stored => ?_⟩
    have listed : binding ∈ plan.bindings.filter (·.storage = request.storage) := by
      simp [member, stored]
    rw [bound] at listed
    rw [List.mem_singleton.mp listed]
  · rw [given] at refused
    cases refused

/-- A wish that is not met has the warning of its turn, and no binding. -/
theorem Program.Turn.refused {warning : Warning}
    (given : found.span .avr request = .error warning) :
    ⟨warning, request.hint.location⟩ ∈ unmet ∧
      (∀ other ∈ unmet, other.location = request.hint.location → other.value = warning) ∧
      ∀ binding ∈ plan.bindings, binding.storage ≠ request.storage := by
  rcases turn.outcome with ⟨registers, met, -⟩ | ⟨others, same, free, told⟩
  · rw [given] at met
    cases met
  · cases same.symm.trans given
    refine ⟨?_, fun other member here => ?_, by simpa using free⟩
    · exact List.mem_of_mem_filter (told ▸ List.mem_singleton_self _)
    · have listed : other ∈ unmet.filter (·.location = request.hint.location) := by
        simp [member, here]
      rw [told] at listed
      rw [List.mem_singleton.mp listed]

/-- A wish whose turn has come is settled. -/
theorem Program.Turn.settles (wishes : program.Wishes request) :
    program.Settles plan unmet request.storage request.hint request.path request.bytes := by
  have positive := bytes?_pos wishes.bytes
  constructor
  case once =>
    rcases turn.outcome with ⟨_, -, bound, told⟩ | ⟨_, -, bound, told⟩
    · rw [bound, told]
      rfl
    · rw [bound, told]
      rfl
  case unbindable =>
    intro unbindable
    rw [← wishes.bindable, Bool.not_eq_true] at unbindable
    exact (turn.refused (Plan.span_unbindable unbindable)).1
  case unavailable =>
    intro bindable number exactly
    have span := found.span_exact (wishes.bindable.mpr bindable) exactly
    rcases found.exactSpan_cases positive with ⟨outside, given⟩ | ⟨fits, -, given⟩ |
      ⟨fits, owner, -, -, given⟩
    · exact iff_of_true (turn.refused (span.trans given)).1 outside
    · exact iff_of_false (fun told => (turn.met (span.trans given)).1 _ told rfl) (not_not.mpr fits)
    · refine iff_of_false (fun told => ?_) (not_not.mpr fits)
      cases (turn.refused (span.trans given)).2.1 _ told rfl
  case conflicting =>
    intro bindable number exactly fits
    have span := found.span_exact (wishes.bindable.mpr bindable) exactly
    rcases found.exactSpan_cases positive with ⟨outside, -⟩ | ⟨-, free, given⟩ |
      ⟨-, owner, member, overlap, given⟩
    · exact absurd fits outside
    · obtain ⟨quiet, -⟩ := turn.met (span.trans given)
      refine ⟨iff_of_false ?_ ?_, fun warning told here => absurd here (quiet warning told)⟩
      · rintro ⟨warning, told, here⟩
        exact quiet warning told here
      · rintro ⟨owner, member, rivals⟩
        obtain ⟨earlier, overlap⟩ := (rivals_iff exactly).mp rivals
        exact free ⟨owner, (turn.earlier owner).mpr ⟨member, earlier⟩, overlap⟩
    · obtain ⟨told, only, -⟩ := turn.refused (span.trans given)
      obtain ⟨bound, earlier⟩ := (turn.earlier owner).mp member
      have rivals := (rivals_iff exactly).mpr ⟨earlier, overlap⟩
      exact ⟨iff_of_true ⟨_, told, rfl⟩ ⟨owner, bound, rivals⟩, fun warning told here =>
        ⟨owner, bound, rivals, only warning told here⟩⟩
  case exhausted =>
    intro bindable pooled warning told here
    have span := found.span_pooled (wishes.bindable.mpr bindable) pooled
    rcases found.pooledSpan_cases positive pooled with ⟨first, given, -⟩ | ⟨given, none⟩
    · exact absurd here ((turn.met (span.trans given)).1 warning told)
    · refine ⟨(turn.refused (span.trans given)).2.1 warning told here, fun first suits => ?_⟩
      exact (turn.blocks_iff.mp (none first suits)).blocks
  case lowest =>
    intro bindable pooled binding member stored
    have span := found.span_pooled (wishes.bindable.mpr bindable) pooled
    rcases found.pooledSpan_cases positive pooled with ⟨first, given, suits, free, lower⟩ |
      ⟨given, -⟩
    · exact ⟨first, (turn.met (span.trans given)).2 binding member stored, suits,
        mt turn.blocks_iff.mpr free, fun other smaller fits =>
          turn.blocks_iff.mp (lower other smaller fits)⟩
    · exact absurd stored ((turn.refused (span.trans given)).2.2 binding member)

end Turns

/-- Every wish of a program is requested. -/
theorem Program.exists_request {storage : Storage}
    (length : program.coroutines.length = program.model.coroutines.length)
    (wished : program.hint? storage = some hint) :
    ∃ request ∈ program.bindingRequests, request.storage = storage ∧ request.hint = hint ∧
      program.path? storage = some request.path := by
  cases storage with
  | static id =>
    obtain ⟨known, listed, hinted⟩ := Option.bind_eq_some_iff.mp wished
    refine ⟨_, List.mem_append_left _ (List.mem_filterMap.mpr ⟨(known, id),
      List.mem_zipIdx_iff_getElem?.mpr listed, Option.map_eq_some_iff.mpr ⟨hint, hinted, rfl⟩⟩),
      rfl, rfl, by simp [path?, listed]⟩
  | state id =>
    obtain ⟨known, listed, hinted⟩ := Option.bind_eq_some_iff.mp wished
    obtain ⟨small, -⟩ := List.getElem?_eq_some_iff.mp listed
    have machine := List.getElem?_eq_getElem (length ▸ small)
    refine ⟨_, List.mem_append_right _ (List.mem_filterMap.mpr ⟨((known, _), id),
      List.mem_zipIdx_iff_getElem?.mpr (List.getElem?_zip_eq_some.mpr ⟨listed, machine⟩),
      Option.map_eq_some_iff.mpr ⟨hint, hinted, rfl⟩⟩), rfl, rfl, by simp [path?, listed]⟩

end Settling

/--
A wish for registers is refused only where it must be.

Storage with a wish is bound, or there is one warning at the wish. What is volatile or an array is
never bound. A single register is refused exactly if there are no such registers, or an earlier wish
for a single register has one of them. A class is refused only if none of its registers are left in
the end, and otherwise the lowest ones are bound that were free.
-/
theorem Source.wishes_settle {source : Source} {program : Program}
    {warnings unmet : List (Located Warning)} {plan : Plan} {storage : Storage}
    {hint : RegisterHint} (linked : source.link = .ok (program, warnings))
    (bound : program.bindRegisters .avr = (plan, unmet))
    (wished : program.hint? storage = some hint) :
    ∃ path bytes, program.path? storage = some path ∧ program.bytes? storage = some bytes ∧
      program.Settles plan unmet storage hint path bytes := by
  obtain ⟨description, resolved, -, -, lowered, -⟩ := link_eq_ok linked
  have lowers := Model.lower_lowersTo lowered
  have length : program.coroutines.length = program.model.coroutines.length := by
    rw [lowers.length_coroutines, lowers.hoisted]
    rfl
  obtain ⟨request, member, rfl, rfl, path⟩ := Program.exists_request length wished
  have wishes := Program.bindingRequests_wishes request member
  obtain ⟨found, turn⟩ := Program.exists_turn (link_wishes linked) member
  rw [bound] at turn
  exact ⟨request.path, request.bytes, path, wishes.bytes, turn.settles wishes⟩

/-- Wishes for two registers, and for the second of them. -/
def Source.contested : Source :=
  .ofText "contested" "static u16 a;static u8 b;use_reg a r2;use_reg b r3;main{}"

/-- The second wish gets no register. -/
theorem Source.contested_links : ∃ program warnings, contested.link = .ok (program, warnings) ∧
    program.bindingRequests.Pairwise (BindingRequest.notAfter · ·) ∧
    (program.hint? (.static 1)).map RegisterHint.group = some (.exact 3) ∧
    (program.path? (.static 1), program.bytes? (.static 1)) = (some "b", some 1) ∧
    program.model.statics[1]?.map (fun storage => (storage.volatile, storage.length)) =
      some (false, none) ∧
    (Plan.empty.serve .avr (program.bindingRequests.filter BindingRequest.isExact ++
      program.bindingRequests.filter fun request => !request.isExact)).2.map Located.location =
        (program.hint? (.static 1)).toList.map RegisterHint.location :=
  contested.links_of_decide (by decide +kernel)

/-- The wish is refused because of the other one. -/
theorem Source.contested_settled : ∃ program warnings plan unmet hint,
    contested.link = .ok (program, warnings) ∧ program.bindRegisters .avr = (plan, unmet) ∧
    program.hint? (.static 1) = some hint ∧ Fits 3 1 ∧
    ∃ warning ∈ unmet, warning.location = hint.location ∧ ∃ owner ∈ plan.bindings,
      program.Rivals owner hint 3 1 ∧
      warning.value = .conflictingRegisterHint "b" (registerName 3) owner.path := by
  obtain ⟨program, warnings, linked, sorted, grouped, told, kept, served⟩ := contested_links
  obtain ⟨hint, wished, exactly⟩ := Option.map_eq_some_iff.mp grouped
  obtain ⟨storage, listed, plain⟩ := Option.map_eq_some_iff.mp kept
  have bound := Program.bindRegisters_of_sorted sorted
  obtain ⟨path, bytes, named, sized, settles⟩ := wishes_settle linked bound wished
  rw [named, sized] at told
  cases told
  have bindable : program.Bindable (.static 1) :=
    ⟨storage, listed, congrArg Prod.fst plain, congrArg Prod.snd plain⟩
  have fits : Fits 3 1 := by unfold Fits; decide
  have refused : hint.location ∈ (program.hint? (.static 1)).toList.map RegisterHint.location := by
    simp [wished]
  rw [← served] at refused
  obtain ⟨warning, member, here⟩ := List.mem_map.mp refused
  exact ⟨program, warnings, _, _, hint, linked, bound, wished, fits, warning, member, here,
    (settles.conflicting bindable 3 exactly fits).2 warning member here⟩

end Coro
