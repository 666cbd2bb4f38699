import Coro.Proofs.Program.CallGraph

/-!
Linking refuses exactly the programs whose calls lead back to a caller.

The way of the search is a chain of calls. A callee that is found on it closes a cycle, which starts
where the callee was entered, so that the fault tells a cycle and the place of its last call.
-/

namespace Coro

variable {frame : CallFrame} {callee caller id : CoroutineId} {way : List CoroutineId}
  {call : Located CoroutineId} {fault : Located LinkError} {location : Location}

/-- A chain of steps that fails does so at one of them. -/
theorem foldlM_eq_error {ε α β : Type} {step : β → α → Except ε β} {list : List α} {start : β}
    {fault : ε} (failed : list.foldlM step start = .error fault) :
    ∃ item ∈ list, ∃ before, step before item = .error fault := by
  -- By induction on the list: the first step fails, or it leaves something for the others.
  induction list generalizing start with
  | nil => cases failed
  | cons first rest ih =>
    rw [List.foldlM_cons, bind_eq_error] at failed
    rcases failed with here | ⟨middle, -, later⟩
    · exact ⟨first, by simp, start, here⟩
    · obtain ⟨item, member, before, there⟩ := ih later
      exact ⟨item, by simp [member], before, there⟩

namespace Program

variable {program : Program}

/-- A coroutine calls a subroutine at a point that stands at a place of the text. -/
def CallsAt (program : Program) (caller callee : CoroutineId) (location : Location) : Prop :=
  ∃ machine, program.coroutines[caller]? = some machine ∧ ⟨.call callee, location⟩ ∈ machine.points

/-- A chain of calls from a coroutine back to it, with the place of the last of them. -/
structure Cycle (program : Program) (chain : List CoroutineId) (callee : CoroutineId)
    (location : Location) : Prop where
  starts : chain.head? = some callee
  edges : chain.IsChain program.Calls
  /-- The last call of the chain has the callee that the chain starts with. -/
  closes : ∃ caller, [caller, callee] <:+ chain ∧ program.CallsAt caller callee location

/-- A call site is a call at a place of the text. -/
theorem callsAt_of_mem (member : call ∈ program.calls caller) :
    program.CallsAt caller call.value call.location := by
  -- Only a coroutine has calls, and each of them is one of its points.
  rw [calls] at member
  cases found : program.coroutines[caller]? with
  | none => simp [found] at member
  | some machine =>
    rw [found] at member
    obtain ⟨suspension, listed, same⟩ := List.mem_filterMap.mp member
    obtain ⟨kind, location⟩ := suspension
    -- The point tells the callee and the place, and no other kind of point is a call.
    cases kind with
    | call callee =>
      cases same
      exact ⟨machine, found, listed⟩
    | _ => cases same

theorem CallsAt.calls (called : program.CallsAt caller callee location) :
    program.Calls caller callee := by
  obtain ⟨machine, found, listed⟩ := called
  obtain ⟨point, place⟩ := List.getElem?_of_mem listed
  exact ⟨machine, point, found, by simp [kindAt?, place]⟩

/-- A cycle leads from its callee back to it. -/
theorem Cycle.leads {chain : List CoroutineId} (cycle : program.Cycle chain callee location) :
    Relation.TransGen program.Calls callee callee := by
  obtain ⟨starts, edges, caller, ⟨way, same⟩, called⟩ := cycle
  -- Without its last coroutine the chain leads from the callee to the last caller.
  have split : (way ++ [caller]) ++ [callee] = chain := by simpa using same
  have early : (way ++ [caller]).IsChain program.Calls := (split ▸ edges).left_of_append
  have first : (way ++ [caller]).head (by simp) = callee := by
    have known : ((way ++ [caller]) ++ [callee]).head? = some callee := split ▸ starts
    rw [List.head?_append_of_ne_nil _ (by simp)] at known
    exact List.head_eq_iff_head?_eq_some (by simp) |>.mpr known
  have leads := List.relationReflTransGen_of_exists_isChain _ early (by simp)
  rw [first, List.getLast_concat] at leads
  exact .tail' leads called.calls

/-- A callee on the way to a call closes a cycle. -/
theorem overlap_cycle (chained : (way ++ [id]).IsChain program.Calls)
    (member : call ∈ program.calls id) (onWay : call.value ∈ way ++ [id]) :
    program.Cycle ((way ++ [id]).dropWhile (· != call.value) ++ [call.value]) call.value
      call.location := by
  have called := callsAt_of_mem member
  -- What is left of the way starts with the callee and still ends with the caller.
  obtain ⟨before, after, same, absent⟩ := List.eq_append_cons_of_mem onWay
  have left : (way ++ [id]).dropWhile (· != call.value) = call.value :: after := by
    rw [same, List.dropWhile_append_of_pos]
    · simp
    · intro other early
      exact bne_iff_ne.mpr fun equal => absent (equal ▸ early)
  have suffix : call.value :: after <:+ way ++ [id] := ⟨before, same.symm⟩
  have last : (call.value :: after).getLast? = some id := by
    have ends := congrArg List.getLast? same
    rw [List.getLast?_concat, List.getLast?_append_of_ne_nil _ (by simp)] at ends
    exact ends.symm
  obtain ⟨front, ends⟩ := List.getLast?_eq_some_iff.mp last
  rw [left]
  refine ⟨rfl, ?_, id, ⟨front, by rw [ends]; simp⟩, called⟩
  -- The last call joins the rest of the way with the callee.
  refine (chained.suffix suffix).append (List.isChain_singleton _) ?_
  intro caller atEnd callee atStart
  rw [last] at atEnd
  cases atEnd
  cases atStart
  exact called.calls

/-- A search that fails has found a cycle. -/
theorem search_error {budget : Nat} {done : List CoroutineId}
    (chained : (way ++ [id]).IsChain program.Calls)
    (failed : program.search budget way done id = .error fault) :
    ∃ chain callee, program.Cycle chain callee fault.location ∧
      fault.value = .overlappingCall (program.pathOf callee) (chain.map program.pathOf) := by
  -- By induction on the budget, with the chain of calls that leads to the coroutine.
  induction budget generalizing way done id with
  | zero => cases failed
  | succ budget ih =>
    simp only [search, bind_eq_error] at failed
    rcases failed with folded | ⟨_, -, given⟩
    · obtain ⟨call, member, before, failed⟩ := foldlM_eq_error folded
      split at failed
      · cases failed
      · split at failed
        · -- The callee is on the way, and the fault is about it.
          rename_i onWay
          cases failed
          exact ⟨_, _, overlap_cycle chained member (List.contains_iff_mem.mp onWay), rfl⟩
        · -- The search goes on with the callee, to which the way leads by one more call.
          refine ih ?_ failed
          refine chained.append (List.isChain_singleton _) ?_
          intro caller atEnd callee atStart
          simp only [List.getLast?_concat, Option.mem_def, Option.some.injEq] at atEnd
          cases atStart
          exact atEnd ▸ (callsAt_of_mem member).calls
    · cases given

/-- A program is refused for a cycle of its calls. -/
theorem checkCalls_error (refused : program.checkCalls = .error fault) :
    ∃ chain callee, program.Cycle chain callee fault.location ∧
      fault.value = .overlappingCall (program.pathOf callee) (chain.map program.pathOf) := by
  -- One of the searches has failed, and each of them starts on an empty way.
  simp only [checkCalls, bind_eq_error] at refused
  rcases refused with folded | ⟨_, -, given⟩
  · obtain ⟨id, -, before, failed⟩ := foldlM_eq_error folded
    split at failed
    · cases failed
    · exact search_error (List.isChain_singleton id) failed
  · cases given

end Program

/-! ## Call sites and subroutines without one -/

theorem pairwise_zipIdx {α : Type} (list : List α) :
    list.zipIdx.Pairwise fun one other => one.2 < other.2 := by
  have numbers : (list.zipIdx.map Prod.snd).Pairwise (· < ·) := by
    rw [List.zipIdx_map_snd]
    exact List.pairwise_lt_range'
  exact List.pairwise_map.mp numbers

/-- One call site stands before another: its caller does, or its point in the same caller. -/
def CallFrame.Before (one other : CallFrame) : Prop :=
  one.caller < other.caller ∨ one.caller = other.caller ∧ one.point < other.point

namespace StateMachine

variable {machine : StateMachine} {caller : CoroutineId}

/-- The call sites of a coroutine are its points that call. -/
theorem mem_frames : frame ∈ machine.frames caller ↔
    frame.caller = caller ∧ kindAt? machine.points frame.point = some (.call frame.callee) := by
  simp only [frames, List.mem_filterMap, kindAt?, Option.map_eq_some_iff]
  constructor
  · rintro ⟨⟨⟨kind, location⟩, point⟩, listed, same⟩
    -- Of all kinds only a call makes a call site.
    cases kind with
    | call callee =>
      cases same
      exact ⟨rfl, _, List.mem_zipIdx_iff_getElem?.mp listed, rfl⟩
    | _ => cases same
  · rintro ⟨rfl, suspension, found, kind⟩
    exact ⟨(suspension, frame.point), List.mem_zipIdx_iff_getElem?.mpr found, by simp [kind]⟩

/-- The call sites of a coroutine stand in the order of their points. -/
theorem frames_ordered : (machine.frames caller).Pairwise CallFrame.Before := by
  refine List.pairwise_filterMap.mpr ((pairwise_zipIdx machine.points).imp ?_)
  rintro ⟨⟨kind, location⟩, point⟩ ⟨⟨kind', location'⟩, point'⟩ smaller frame made frame' made'
  -- Both are calls of the same coroutine, so that only their points tell the order.
  cases kind with
  | call callee =>
    cases kind' with
    | call callee' =>
      cases made
      cases made'
      exact .inr ⟨rfl, smaller⟩
    | _ => cases made'
  | _ => cases made

end StateMachine

namespace Program

variable (program : Program)

/-- The call sites of a program are the points at which its coroutines call. -/
theorem mem_frames : frame ∈ program.frames ↔
    ∃ machine, program.coroutines[frame.caller]? = some machine ∧
      kindAt? machine.points frame.point = some (.call frame.callee) := by
  simp only [frames, List.mem_flatMap, StateMachine.mem_frames]
  constructor
  · rintro ⟨⟨machine, caller⟩, listed, rfl, kind⟩
    exact ⟨machine, List.mem_zipIdx_iff_getElem?.mp listed, kind⟩
  · rintro ⟨machine, found, kind⟩
    exact ⟨(machine, frame.caller), List.mem_zipIdx_iff_getElem?.mpr found, rfl, kind⟩

/-- The call sites of a program stand in the order of their callers and points. -/
theorem frames_ordered : program.frames.Pairwise CallFrame.Before := by
  refine List.pairwise_flatMap.mpr ⟨fun _ _ => StateMachine.frames_ordered, ?_⟩
  refine (pairwise_zipIdx program.coroutines).imp ?_
  intro one other smaller frame early frame' late
  -- Call sites of two coroutines are told apart by their callers.
  have first := (StateMachine.mem_frames.mp early).1
  have second := (StateMachine.mem_frames.mp late).1
  exact .inl (by rw [first, second]; exact smaller)

/-- A subroutine that no call site leads to. -/
def Unused (id : CoroutineId) : Prop :=
  ∃ coroutine, program.model.coroutines[id]? = some coroutine ∧ coroutine.isThread = false ∧
    ∀ frame ∈ program.frames, frame.callee ≠ id

/-- The warning for a coroutine says that nobody calls it, at the place where it is declared. -/
def WarnsOf (id : CoroutineId) (warning : Located Warning) : Prop :=
  ∃ coroutine, program.model.coroutines[id]? = some coroutine ∧
    warning = ⟨.unusedSubroutine coroutine.path.dotted, coroutine.location⟩

theorem filterMap_unless {α β : Type} (skipped : α → Bool) (given : α → β) (list : List α) :
    (list.filterMap fun item => if skipped item then none else some (given item)) =
      (list.filter fun item => !skipped item).map given := by
  induction list with
  | nil => rfl
  | cons item rest ih => by_cases skip : skipped item <;> simp [skip, ih]

/-- The warnings are for the unused subroutines, one for each, in the order of creation. -/
theorem unusedSubroutines_listed : ∃ ids : List CoroutineId, ids.Pairwise (· < ·) ∧
    (∀ id, id ∈ ids ↔ program.Unused id) ∧
    List.Forall₂ program.WarnsOf ids program.unusedSubroutines := by
  let called := program.frames.map CallFrame.callee
  let unused := program.model.coroutines.zipIdx.filter fun numbered =>
    !(numbered.1.isThread || called.contains numbered.2)
  -- A coroutine and its number come together, so both lists are views of one.
  have warned : program.unusedSubroutines = unused.map fun numbered =>
      ⟨.unusedSubroutine numbered.1.path.dotted, numbered.1.location⟩ :=
    filterMap_unless _ _ _
  refine ⟨unused.map Prod.snd, ?_, fun id => ?_, ?_⟩
  · exact List.pairwise_map.mpr ((pairwise_zipIdx _).filter _)
  · constructor
    · intro listed
      obtain ⟨⟨coroutine, number⟩, kept, rfl⟩ := List.mem_map.mp listed
      obtain ⟨known, free⟩ := List.mem_filter.mp kept
      simp only [Bool.not_eq_true', Bool.or_eq_false_iff] at free
      refine ⟨coroutine, List.mem_zipIdx_iff_getElem?.mp known, free.1, fun frame site same => ?_⟩
      have present : called.contains number = true :=
        List.contains_iff_mem.mpr (List.mem_map.mpr ⟨frame, site, same⟩)
      rw [present] at free
      cases free.2
    · rintro ⟨coroutine, found, nested, free⟩
      refine List.mem_map.mpr ⟨(coroutine, id), List.mem_filter.mpr ⟨?_, ?_⟩, rfl⟩
      · exact List.mem_zipIdx_iff_getElem?.mpr found
      · have absent : called.contains id = false := by
          rw [← Bool.not_eq_true, List.contains_iff_mem]
          intro present
          obtain ⟨frame, site, same⟩ := List.mem_map.mp present
          exact free frame site same
        rw [nested, absent]
        rfl
  · rw [warned, List.forall₂_map_left_iff, List.forall₂_map_right_iff, List.forall₂_same]
    rintro ⟨coroutine, number⟩ kept
    have known := (List.mem_filter.mp kept).1
    exact ⟨coroutine, List.mem_zipIdx_iff_getElem?.mp known, rfl⟩

end Program

/--
Linking refuses exactly the programs whose calls form a cycle.

The fault tells a chain of calls from a subroutine back to it, at the place of the last of them.
There is a call site for each point that calls, in the order of callers and points, and a warning
for each subroutine that none of them leads to, in the order of creation.
-/
theorem Ast.Description.link_refuses_cycles {description : Ast.Description} {resolved : Resolved}
    {program : Program} (meant : description.resolve = .ok resolved)
    (lowered : resolved.model.lower = .ok program) :
    ((∃ fault, program.checkCalls = .error fault) ↔
      ∃ id, Relation.TransGen program.Calls id id) ∧
    (∀ fault, program.checkCalls = .error fault →
      ∃ chain callee, program.Cycle chain callee fault.location ∧
        fault.value = .overlappingCall (program.pathOf callee) (chain.map program.pathOf)) ∧
    (∀ frame, frame ∈ program.frames ↔
      ∃ machine, program.coroutines[frame.caller]? = some machine ∧
        kindAt? machine.points frame.point = some (.call frame.callee)) ∧
    program.frames.Pairwise CallFrame.Before ∧
    (∃ ids : List CoroutineId, ids.Pairwise (· < ·) ∧ (∀ id, id ∈ ids ↔ program.Unused id) ∧
      List.Forall₂ program.WarnsOf ids program.unusedSubroutines) ∧
    ∀ source : Source, source.parse = .ok description →
      source.link = (program.checkCalls.mapError .linkage).map fun _ =>
        (program, resolved.warnings ++ program.unusedSubroutines) := by
  -- Calls of a well-formed program lead to coroutines, which the search needs to come to its end.
  obtain ⟨tables, known, complete⟩ := resolve_tables meant
  have formed :=
    (Model.lower_lowersTo lowered).wellFormed (Tables.toModel?_wellFormed known complete)
  refine ⟨⟨?_, ?_⟩, fun fault => Program.checkCalls_error, fun frame => program.mem_frames,
    program.frames_ordered, program.unusedSubroutines_listed,
    fun source parsed => Source.link_eq parsed meant lowered⟩
  · rintro ⟨fault, refused⟩
    obtain ⟨chain, callee, cycle, -⟩ := Program.checkCalls_error refused
    exact ⟨callee, cycle.leads⟩
  · rintro ⟨id, cycle⟩
    cases checked : program.checkCalls with
    | error fault => exact ⟨fault, rfl⟩
    | ok _ => exact absurd cycle (Program.Sound.acyclic ⟨formed, checked⟩ id)

/-- Two subroutines that call each other, and a third one that nobody calls. -/
def Source.circling : Source :=
  .ofText "circling" "thread t{sub a{call b;}sub b{call a;}sub u{}call a;}main{}"

/-- The two subroutines are refused. -/
theorem Source.circling_lowers : ∃ description resolved program,
    circling.parse = .ok description ∧ description.resolve = .ok resolved ∧
    resolved.model.lower = .ok program ∧
    program.checkCalls = .error ⟨.overlappingCall "t.a" ["t.a", "t.b", "t.a"], ⟨⟨1, 35⟩, ⟨1, 36⟩⟩⟩ ∧
    program.frames = [⟨0, 0, 1⟩, ⟨1, 0, 2⟩, ⟨2, 0, 1⟩] :=
  circling.lowers_of_decide (by decide +kernel)

/-- The fault tells the cycle that the call in the second subroutine closes. -/
theorem Source.circling_refused : ∃ description resolved program,
    circling.parse = .ok description ∧ description.resolve = .ok resolved ∧
    resolved.model.lower = .ok program ∧
    (∃ id, Relation.TransGen program.Calls id id) ∧
    (∃ chain callee, program.Cycle chain callee ⟨⟨1, 35⟩, ⟨1, 36⟩⟩ ∧
      program.pathOf callee = "t.a" ∧ chain.map program.pathOf = ["t.a", "t.b", "t.a"]) ∧
    ∃ machine, program.coroutines[2]? = some machine ∧
      kindAt? machine.points 0 = some (.call 1) := by
  obtain ⟨description, resolved, program, parsed, meant, lowered, refused, sites⟩ := circling_lowers
  obtain ⟨exactly, told, listed, -⟩ := Ast.Description.link_refuses_cycles meant lowered
  obtain ⟨chain, callee, cycle, same⟩ := told _ refused
  obtain ⟨name, names⟩ := LinkError.overlappingCall.inj same
  exact ⟨description, resolved, program, parsed, meant, lowered, exactly.mp ⟨_, refused⟩,
    ⟨chain, callee, cycle, name.symm, names.symm⟩, (listed ⟨2, 0, 1⟩).mp (by simp [sites])⟩

end Coro
