import Coro.Emit.File
import Coro.Proofs.Program.Cycle

/-!
Registers that are bound are bound soundly.

Wishes are served one after the other, and each takes registers that nobody has. So what is true of
the registers of one wish, and of those taken before it, is true of the whole plan.
-/

namespace Coro

variable {program : Program}

/-! ## Wishes -/

namespace Program

/-- The wish to keep some storage in registers, if there is one. -/
def hint? (program : Program) : Storage → Option RegisterHint
  | .static id => program.model.statics[id]?.bind StaticVariable.hint
  | .state id => program.model.coroutines[id]?.bind Coroutine.stateHint

/-- The size of some storage in bytes. -/
def bytes? (program : Program) : Storage → Option Nat
  | .static id => program.model.statics[id]?.map fun storage => storage.type.bytes
  | .state id => program.coroutines[id]?.map fun machine => machine.width.type.bytes

/-- States can be kept in registers, and variables that are neither volatile nor arrays. -/
def Bindable (program : Program) : Storage → Prop
  | .static id => ∃ storage, program.model.statics[id]? = some storage ∧
      storage.volatile = false ∧ storage.length = none
  | .state _ => True

/-- A request says what the program wishes for some storage. -/
structure Wishes (program : Program) (request : BindingRequest) : Prop where
  hint : program.hint? request.storage = some request.hint
  bytes : program.bytes? request.storage = some request.bytes
  bindable : request.bindable = true ↔ program.Bindable request.storage

variable {program : Program}

/-- All requests say what the program wishes. -/
theorem bindingRequests_wishes : ∀ request ∈ program.bindingRequests, program.Wishes request := by
  refine List.forall_mem_append.mpr ⟨fun request member => ?_, fun request member => ?_⟩
  · obtain ⟨⟨storage, id⟩, listed, told⟩ := List.mem_filterMap.mp member
    obtain ⟨hint, wished, rfl⟩ := Option.map_eq_some_iff.mp told
    have found := List.mem_zipIdx_iff_getElem?.mp listed
    refine ⟨by simp [hint?, found, wished], by simp [bytes?, found], ?_⟩
    simp [Bindable, found]
  · obtain ⟨⟨⟨coroutine, machine⟩, id⟩, listed, told⟩ := List.mem_filterMap.mp member
    obtain ⟨hint, wished, rfl⟩ := Option.map_eq_some_iff.mp told
    obtain ⟨found, made⟩ := List.getElem?_zip_eq_some.mp (List.mem_zipIdx_iff_getElem?.mp listed)
    refine ⟨by simp [hint?, found, wished], by simp [bytes?, made], ?_⟩
    simp [Bindable]

/-- Requests for numbered entries are for different storage. -/
theorem storages_apart {α : Type} {list : List α} {make : α × Nat → Option BindingRequest}
    {storage : Nat → Storage} (injective : Function.Injective storage)
    (made : ∀ entry request, make entry = some request → request.storage = storage entry.2) :
    (list.zipIdx.filterMap make).Pairwise fun one other => one.storage ≠ other.storage := by
  refine List.pairwise_filterMap.mpr ((pairwise_zipIdx list).imp ?_)
  intro one other smaller request first request' second
  rw [made one request first, made other request' second]
  exact injective.ne (Nat.ne_of_lt smaller)

/-- No storage has two requests. -/
theorem bindingRequests_nodup : (program.bindingRequests.map BindingRequest.storage).Nodup := by
  refine List.pairwise_map.mpr (List.pairwise_append.mpr ⟨?_, ?_, ?_⟩)
  · refine storages_apart (fun _ _ => Storage.static.inj) fun entry request made => ?_
    obtain ⟨hint, -, rfl⟩ := Option.map_eq_some_iff.mp made
    rfl
  · refine storages_apart (fun _ _ => Storage.state.inj) fun entry request made => ?_
    obtain ⟨hint, -, rfl⟩ := Option.map_eq_some_iff.mp made
    rfl
  · -- A variable is no state.
    intro request early request' late
    obtain ⟨_, -, made⟩ := List.mem_filterMap.mp early
    obtain ⟨_, -, made'⟩ := List.mem_filterMap.mp late
    obtain ⟨hint, -, rfl⟩ := Option.map_eq_some_iff.mp made
    obtain ⟨hint', -, rfl⟩ := Option.map_eq_some_iff.mp made'
    exact Storage.noConfusion

theorem servedRequests_perm : program.servedRequests.Perm program.bindingRequests :=
  (List.filter_append_perm _ _).trans (List.mergeSort_perm _ _)

end Program

/-! ## Registers for one wish -/

/-- Registers that a wish allows: consecutive ones of the target, of the right number and class. -/
structure BindingRequest.Admits (request : BindingRequest) (target : Target)
    (registers : List Nat) : Prop where
  consecutive : ∃ first, registers = List.range' first request.bytes ∧
    (1 < request.bytes → first % 2 = 0) ∧
    ∀ number, request.hint.group = .exact number → first = number
  known : ∀ register ∈ registers, register ∈ target.registers
  allowed : ∀ register ∈ registers, request.hint.group.allows register = true

/-- The registers from a first one on, if all of them are there. -/
theorem registerSpan_eq_some {target : Target} {first bytes : Nat} {span : List Nat} :
    registerSpan target first bytes = some span ↔ span = List.range' first bytes ∧
      (1 < bytes → first % 2 = 0) ∧ ∀ register ∈ span, register ∈ target.registers := by
  simp only [registerSpan]
  split
  · rename_i odd
    constructor
    · intro found
      cases found
    · rintro ⟨-, even, -⟩
      exact absurd (even odd.1) odd.2
  · rename_i even
    have aligned : 1 < bytes → first % 2 = 0 := by
      intro large
      by_contra odd
      exact even ⟨large, odd⟩
    have whole : (List.range' first bytes).all target.registers.contains = true ↔
        ∀ register ∈ List.range' first bytes, register ∈ target.registers := by
      simp [List.all_eq_true]
    split
    · rename_i there
      constructor
      · intro found
        cases found
        exact ⟨rfl, aligned, whole.mp there⟩
      · rintro ⟨rfl, -, -⟩
        rfl
    · rename_i missing
      constructor
      · intro found
        cases found
      · rintro ⟨rfl, -, there⟩
        exact absurd (whole.mpr there) missing

namespace Plan

variable {plan : Plan} {target : Target} {request : BindingRequest} {registers : List Nat}

/-- A register that nobody has. -/
def Free (plan : Plan) (register : Nat) : Prop :=
  ∀ binding ∈ plan.bindings, register ∉ binding.registers

theorem owner?_eq_none {register : Nat} : plan.owner? register = none ↔ plan.Free register := by
  simp [owner?, Free]

/-- A wish for one register gets free ones, from this one on. -/
theorem exactSpan_eq_ok {number : Nat} (exactly : request.hint.group = .exact number)
    (given : plan.exactSpan target request number = .ok registers) :
    request.Admits target registers ∧ ∀ register ∈ registers, plan.Free register := by
  rw [exactSpan] at given
  split at given
  · exact absurd given throw_ne_ok
  · rename_i span found
    split at given
    · rename_i nobody
      obtain rfl := pure_eq_ok.mp given
      obtain ⟨rfl, even, known⟩ := registerSpan_eq_some.mp found
      refine ⟨⟨⟨number, rfl, even, fun other same => ?_⟩, known, fun register _ => ?_⟩, ?_⟩
      · exact RegisterClass.exact.inj (exactly.symm.trans same)
      · rw [exactly]
        rfl
      · intro register member
        exact owner?_eq_none.mp (List.findSome?_eq_none_iff.mp nobody register member)
    · exact absurd given throw_ne_ok

/-- A wish for a class gets free registers of this class. -/
theorem pooledSpan_eq_ok (pooled : ∀ number, request.hint.group ≠ .exact number)
    (given : plan.pooledSpan target request request.hint.group = .ok registers) :
    request.Admits target registers ∧ ∀ register ∈ registers, plan.Free register := by
  simp only [pooledSpan] at given
  split at given
  · rename_i span found
    obtain rfl := pure_eq_ok.mp given
    obtain ⟨first, -, made⟩ := List.mem_filterMap.mp (List.mem_of_find?_eq_some found)
    obtain ⟨rfl, even, known⟩ := registerSpan_eq_some.mp made
    -- The span was searched for by the class and the owner of each of its registers.
    have fits : ∀ register ∈ List.range' first request.bytes,
        request.hint.group.allows register = true ∧ plan.owner? register = none := by
      simpa using List.find?_some found
    refine ⟨⟨⟨first, rfl, even, fun number same => absurd same (pooled number)⟩, known, ?_⟩, ?_⟩
    · exact fun register member => (fits register member).1
    · exact fun register member => owner?_eq_none.mp (fits register member).2
  · exact absurd given throw_ne_ok

/-- A wish gets free registers that it allows. -/
theorem span_eq_ok (given : plan.span target request = .ok registers) :
    request.bindable = true ∧ request.Admits target registers ∧
      ∀ register ∈ registers, plan.Free register := by
  rw [span] at given
  split at given
  · exact absurd given throw_ne_ok
  · rename_i bindable
    refine ⟨by simpa using bindable, ?_⟩
    split at given
    · rename_i exactly
      exact exactSpan_eq_ok exactly given
    · rename_i pooled
      exact pooledSpan_eq_ok pooled given

/-! ## The whole plan -/

/-- A plan has bindings for some of these requests, in their order, and no register twice. -/
structure Serves (plan : Plan) (target : Target) (requests : List BindingRequest) : Prop where
  granted : ∀ binding ∈ plan.bindings, ∃ request ∈ requests, request.storage = binding.storage ∧
    request.bindable = true ∧ request.Admits target binding.registers
  apart : plan.bindings.Pairwise fun one other => one.registers.Disjoint other.registers
  ordered : (plan.bindings.map Binding.storage).Sublist (requests.map BindingRequest.storage)

theorem empty_serves : empty.Serves target [] :=
  ⟨by simp [empty], List.Pairwise.nil, List.Sublist.slnil⟩

variable {served : List BindingRequest}

/-- A request that gets no registers changes nothing. -/
theorem Serves.skip (serves : plan.Serves target served) :
    plan.Serves target (served ++ [request]) where
  granted binding member := by
    obtain ⟨known, listed, fits⟩ := serves.granted binding member
    exact ⟨known, List.mem_append_left _ listed, fits⟩
  apart := serves.apart
  ordered := by
    rw [List.map_append]
    exact serves.ordered.trans (List.sublist_append_left _ _)

/-- A request that gets registers takes them from nobody. -/
theorem Serves.grant (serves : plan.Serves target served)
    (given : plan.span target request = .ok registers) :
    Serves ⟨plan.bindings ++ [⟨request.storage, request.path, registers⟩]⟩ target
      (served ++ [request]) := by
  obtain ⟨bindable, admits, free⟩ := span_eq_ok given
  have before : plan.Serves target (served ++ [request]) := serves.skip
  refine ⟨List.forall_mem_append.mpr ⟨before.granted, ?_⟩, ?_, ?_⟩
  · rintro binding member
    obtain rfl := List.mem_singleton.mp member
    exact ⟨request, by simp, rfl, bindable, admits⟩
  · refine List.pairwise_append.mpr ⟨serves.apart, List.pairwise_singleton _ _, ?_⟩
    intro binding known other new register early late
    obtain rfl := List.mem_singleton.mp new
    exact free register late binding known early
  · rw [List.map_append, List.map_append]
    exact serves.ordered.append (List.Sublist.refl _)

/-- Serving requests leaves a plan that serves them, and those before. -/
theorem Serves.serve (serves : plan.Serves target served) (requests : List BindingRequest) :
    (plan.serve target requests).1.Serves target (served ++ requests) := by
  induction requests generalizing plan served with
  | nil => simpa [Plan.serve] using serves
  | cons request rest ih =>
    rw [Plan.serve, ← List.singleton_append, ← List.append_assoc]
    split
    · rename_i registers given
      exact ih (serves.grant given)
    · exact ih serves.skip

theorem serve_serves (target : Target) (requests : List BindingRequest) :
    (empty.serve target requests).1.Serves target requests :=
  empty_serves.serve requests

/-- The registers in use are those that are bound. -/
theorem Serves.mem_fixed (serves : plan.Serves target served) {register : Nat} :
    register ∈ plan.fixed target ↔ ∃ binding ∈ plan.bindings, register ∈ binding.registers := by
  have owned : (plan.owner? register).isSome = true ↔
      ∃ binding ∈ plan.bindings, register ∈ binding.registers := by
    simp [owner?]
  rw [fixed, List.mem_filter, owned]
  refine ⟨And.right, fun bound => ⟨?_, bound⟩⟩
  obtain ⟨binding, member, inside⟩ := bound
  obtain ⟨_, -, -, -, admits⟩ := serves.granted binding member
  exact admits.known register inside

end Plan

/-- The registers from a first one on lie where a class has them. -/
def RegisterClass.Holds : RegisterClass → (first bytes : Nat) → Prop
  | low, first, bytes => 2 ≤ first ∧ first + bytes ≤ 16
  | high, first, bytes => 16 ≤ first ∧ first + bytes ≤ 18
  | any, _, _ => True
  | exact number, first, _ => first = number

/-- A binding keeps storage as the program wishes, in consecutive registers from r2 to r17. -/
structure Program.Binds (program : Program) (binding : Binding) : Prop where
  bindable : program.Bindable binding.storage
  placed : ∃ hint bytes first, program.hint? binding.storage = some hint ∧
    program.bytes? binding.storage = some bytes ∧ 0 < bytes ∧
    binding.registers = List.range' first bytes ∧ 2 ≤ first ∧ first + bytes ≤ 18 ∧
    (1 < bytes → first % 2 = 0) ∧ hint.group.Holds first bytes

/-- All storage has some size. -/
theorem Program.bytes?_pos {storage : Storage} {bytes : Nat}
    (known : program.bytes? storage = some bytes) : 0 < bytes := by
  have positive : ∀ type : IntType, 0 < type.bytes := by
    intro type
    cases type <;> decide
  cases storage with
  | static id =>
    obtain ⟨storage, -, rfl⟩ := Option.map_eq_some_iff.mp known
    exact positive _
  | state id =>
    obtain ⟨machine, -, rfl⟩ := Option.map_eq_some_iff.mp known
    exact positive _

/-- Registers that a wish allows bind its storage. -/
theorem Program.Wishes.binds {request : BindingRequest} {binding : Binding}
    (wishes : program.Wishes request) (same : request.storage = binding.storage)
    (bindable : request.bindable = true) (admits : request.Admits .avr binding.registers) :
    program.Binds binding := by
  obtain ⟨⟨first, registers, even, exactly⟩, known, allowed⟩ := admits
  rw [registers] at known allowed
  have positive := bytes?_pos wishes.bytes
  -- The ends of the span tell where it lies.
  have start : first ∈ List.range' first request.bytes := List.mem_range'_1.mpr (by omega)
  have stop : first + request.bytes - 1 ∈ List.range' first request.bytes :=
    List.mem_range'_1.mpr (by omega)
  have lowest := List.mem_range'_1.mp (known _ start)
  have highest := List.mem_range'_1.mp (known _ stop)
  refine ⟨same ▸ wishes.bindable.mp bindable, request.hint, request.bytes, first,
    same ▸ wishes.hint, same ▸ wishes.bytes, positive, registers, lowest.1, by omega, even, ?_⟩
  have left := allowed _ start
  have right := allowed _ stop
  cases group : request.hint.group with
  | low =>
    simp only [group, RegisterClass.allows, isLowRegister, decide_eq_true_eq] at right
    exact ⟨lowest.1, by omega⟩
  | high =>
    simp only [group, RegisterClass.allows, isLowRegister, Bool.not_eq_true',
      decide_eq_false_iff_not] at left
    exact ⟨by omega, by omega⟩
  | any => trivial
  | exact number => exact exactly number group

theorem intercalate_blank (first : String) (rest : List String) :
    " ".intercalate (first :: rest) = first ++ String.join (rest.map (" " ++ ·)) := by
  induction rest generalizing first with
  | nil => simp
  | cons second rest ih => simp [String.intercalate_cons_cons, ih, String.append_assoc]

/--
Registers are bound soundly.

Each binding is for storage that wishes it and can be bound, and fills registers from r2 to r17 as
the wish allows. No two bindings share a register or are for the same storage. The flags keep free
the registers that are bound, each once and in ascending order.
-/
theorem Program.bindRegisters_sound {program : Program} {plan : Plan}
    {warnings : List (Located Warning)} (bound : program.bindRegisters .avr = (plan, warnings)) :
    (∀ binding ∈ plan.bindings, program.Binds binding) ∧
    plan.bindings.Pairwise (fun one other => one.registers.Disjoint other.registers) ∧
    (plan.bindings.map Binding.storage).Nodup ∧
    (plan.fixed .avr).Pairwise (· < ·) ∧
    (∀ register, register ∈ plan.fixed .avr ↔
      ∃ binding ∈ plan.bindings, register ∈ binding.registers) ∧
    Emit.flagsText .avr program plan =
      Emit.profileFlag ((program.model.flags.map FlagsRequest.profile).getD .size) ++
        String.join ((plan.fixed .avr).map fun register => " -ffixed-r" ++ toString register) ++
        "\n" := by
  obtain rfl : (Plan.empty.serve .avr program.servedRequests).1 = plan := congrArg Prod.fst bound
  have serves := Plan.serve_serves .avr program.servedRequests
  have perm := program.servedRequests_perm
  refine ⟨fun binding member => ?_, serves.apart, ?_, ?_, fun _ => serves.mem_fixed, ?_⟩
  · obtain ⟨request, listed, same, bindable, admits⟩ := serves.granted binding member
    exact (bindingRequests_wishes request (perm.mem_iff.mp listed)).binds same bindable admits
  · -- What is bound is bound in the order of the requests, and these are for different storage.
    have once := ((perm.map BindingRequest.storage).nodup_iff).mpr bindingRequests_nodup
    exact serves.ordered.nodup once
  · exact (List.pairwise_lt_range' 1).sublist List.filter_sublist
  · rw [Emit.flagsText, intercalate_blank, List.map_map]
    rfl

/-- Wishes in the order of the text are served as they stand, those for single registers first. -/
theorem Program.bindRegisters_of_sorted
    (sorted : program.bindingRequests.Pairwise (BindingRequest.notAfter · ·)) :
    program.bindRegisters .avr = Plan.empty.serve .avr
      (program.bindingRequests.filter BindingRequest.isExact ++
        program.bindingRequests.filter fun request => !request.isExact) := by
  have same : program.servedRequests = _ :=
    congrArg (fun requests => requests.filter BindingRequest.isExact ++
      requests.filter fun request => !request.isExact) (List.mergeSort_of_pairwise sorted)
  rw [← same]
  rfl

/-- Wishes for any registers, for those of an array, and for a single register. -/
def Source.hinting : Source :=
  .ofText "hinting"
    "static u16 a;static u8 b[2];static u8 c;use_reg a;use_reg b;use_reg c r2;main{}"

/-- The wish for one register is served first, and the array is not bound. -/
theorem Source.hinting_links : ∃ program warnings, hinting.link = .ok (program, warnings) ∧
    program.bindingRequests.Pairwise (BindingRequest.notAfter · ·) ∧
    (Plan.empty.serve .avr (program.bindingRequests.filter BindingRequest.isExact ++
      program.bindingRequests.filter fun request => !request.isExact)).1.bindings.map
        (fun binding => (binding.storage, binding.registers)) =
      [(.static 2, [2]), (.static 0, [4, 5])] :=
  hinting.links_of_decide (by decide +kernel)

/-- Two variables are kept in registers, and these registers are kept free. -/
theorem Source.hinting_bound : ∃ program warnings plan unmet,
    hinting.link = .ok (program, warnings) ∧ program.bindRegisters .avr = (plan, unmet) ∧
    plan.bindings.map (fun binding => (binding.storage, binding.registers)) =
      [(.static 2, [2]), (.static 0, [4, 5])] ∧
    (∀ binding ∈ plan.bindings, program.Binds binding) ∧
    ∀ register, register ∈ plan.fixed .avr ↔ register ∈ [2, 4, 5] := by
  obtain ⟨program, warnings, linked, sorted, served⟩ := hinting_links
  have bound := Program.bindRegisters_of_sorted sorted
  obtain ⟨binds, -, -, -, fixed, -⟩ := Program.bindRegisters_sound bound
  refine ⟨program, warnings, _, _, linked, bound, served, binds, fun register => ?_⟩
  calc register ∈ Plan.fixed _ .avr
      ↔ ∃ binding ∈ Plan.bindings _, register ∈ binding.registers := fixed register
    _ ↔ ∃ entry ∈ [(Storage.static 2, [2]), (.static 0, [4, 5])], register ∈ entry.2 := by
        rw [← served]
        simp only [List.mem_map, exists_exists_and_eq_and]
    _ ↔ register ∈ [2, 4, 5] := by simp

end Coro
