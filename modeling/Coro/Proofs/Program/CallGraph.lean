import Coro.Proofs.Program.WellFormed
import Mathlib.Data.List.Perm.Subperm
import Mathlib.Order.WellFoundedSet

/-!
No calls lead back to their caller.

The search is done with a coroutine once it is done with all that it calls, so that what it is done
with leads to no cycle.
-/

namespace Coro

namespace Program

variable {program : Program} {caller callee : CoroutineId}

/-- The calls of a coroutine are those at its points. -/
theorem mem_calls :
    (∃ call ∈ program.calls caller, call.value = callee) ↔ program.Calls caller callee := by
  simp only [calls, Calls]
  cases program.coroutines[caller]? with
  | none => simp
  | some machine =>
    simp only [Option.map_some, Option.getD_some, StateMachine.calls, List.mem_filterMap]
    constructor
    · rintro ⟨call, ⟨suspension, member, kind⟩, rfl⟩
      obtain ⟨point, found⟩ := List.getElem?_of_mem member
      refine ⟨machine, point, rfl, ?_⟩
      -- Only a call has a callee.
      cases known : suspension.kind with
      | call callee =>
        simp only [known, Option.some.injEq] at kind
        simp [kindAt?, found, known, ← kind]
      | _ => simp [known] at kind
    · rintro ⟨_, point, same, kind⟩
      cases same
      obtain ⟨suspension, found, kind⟩ := Option.map_eq_some_iff.mp kind
      exact ⟨⟨callee, suspension.location⟩,
        ⟨suspension, List.mem_of_getElem? found, by simp [kind]⟩, rfl⟩

theorem Calls.lt (calls : program.Calls caller callee) : caller < program.coroutines.length := by
  obtain ⟨machine, _, found, -⟩ := calls
  exact (List.getElem?_eq_some_iff.mp found).1

/-- Nothing that a coroutine calls, directly or not, leads back. -/
def EndsBelow (program : Program) (id : CoroutineId) : Prop :=
  Acc (fun callee caller => program.Calls caller callee) id

/-- The search is done with coroutines that lead nowhere back, and with others than before. -/
structure Extends (program : Program) (before after : List CoroutineId) : Prop where
  kept : ∀ id ∈ before, id ∈ after
  done : ∀ id ∈ after, program.EndsBelow id

section Search

variable (inside : ∀ caller callee : CoroutineId, program.Calls caller callee →
  callee < program.coroutines.length)

/-- Searches one behind the other are done with all that each of them is done with. -/
theorem foldlM_extends {γ : Type} {target : γ → CoroutineId} {list : List γ}
    {step : List CoroutineId → γ → Except (Located LinkError) (List CoroutineId)}
    (each : ∀ item ∈ list, ∀ done after, (∀ id ∈ done, program.EndsBelow id) →
      step done item = .ok after → program.Extends done after ∧ target item ∈ after)
    {done after : List CoroutineId} (sound : ∀ id ∈ done, program.EndsBelow id)
    (searched : list.foldlM step done = .ok after) :
    program.Extends done after ∧ ∀ item ∈ list, target item ∈ after := by
  induction list generalizing done with
  | nil =>
    cases pure_eq_ok.mp searched
    exact ⟨⟨fun _ member => member, sound⟩, by simp⟩
  | cons first rest ih =>
    rw [List.foldlM_cons, bind_eq_ok] at searched
    obtain ⟨middle, here, later⟩ := searched
    obtain ⟨early, found⟩ := each first (by simp) done middle sound here
    obtain ⟨late, others⟩ := ih (fun item member => each item (by simp [member])) early.done later
    refine ⟨⟨fun id member => late.kept id (early.kept id member), late.done⟩, fun item member => ?_⟩
    rcases List.mem_cons.mp member with rfl | member
    · exact late.kept _ found
    · exact others item member

theorem length_way {way : List CoroutineId} (simple : way.Nodup)
    (known : ∀ id ∈ way, id < program.coroutines.length) :
    way.length ≤ program.coroutines.length := by
  have within : way ⊆ List.range program.coroutines.length :=
    fun id member => List.mem_range.mpr (known id member)
  simpa using (simple.subperm within).length_le

include inside

/-- What the search is done with leads to no cycle. -/
theorem search_extends {budget : Nat} {way done after : List CoroutineId} {id : CoroutineId}
    (simple : (way ++ [id]).Nodup) (known : ∀ other ∈ way ++ [id], other < program.coroutines.length)
    (enough : budget + way.length = program.coroutines.length)
    (sound : ∀ other ∈ done, program.EndsBelow other)
    (searched : program.search budget way done id = .ok after) :
    program.Extends done after ∧ id ∈ after := by
  induction budget generalizing way done after id with
  | zero =>
    -- The way would be longer than there are coroutines.
    have short := length_way simple known
    simp only [List.length_append, List.length_singleton] at short
    omega
  | succ budget ih =>
    simp only [search, bind_eq_ok, pure_eq_ok] at searched
    obtain ⟨middle, folded, rfl⟩ := searched
    obtain ⟨grown, callees⟩ : program.Extends done middle ∧
        ∀ call ∈ program.calls id, call.value ∈ middle := by
      refine foldlM_extends (fun call member done after sound searched => ?_) sound folded
      split at searched
      · rename_i seen
        cases pure_eq_ok.mp searched
        exact ⟨⟨fun _ member => member, sound⟩, List.contains_iff_mem.mp seen⟩
      · split at searched
        · exact absurd searched throw_ne_ok
        · -- The callee is not on the way, which it makes longer by one.
          rename_i away
          have fresh : call.value ∉ way ++ [id] := mt List.contains_iff_mem.mpr away
          have called := inside id call.value (mem_calls.mp ⟨call, member, rfl⟩)
          refine ih ?_ ?_ ?_ sound searched
          · simpa using List.Nodup.concat fresh simple
          · intro other member
            rcases List.mem_append.mp member with early | late
            · exact known other early
            · exact List.mem_singleton.mp late ▸ called
          · simp only [List.length_append, List.length_singleton]
            omega
    -- All that the coroutine calls leads nowhere back, and so does it.
    have below : program.EndsBelow id := by
      refine Acc.intro id fun callee calls => ?_
      obtain ⟨call, member, rfl⟩ := mem_calls.mpr calls
      exact grown.done _ (callees call member)
    refine ⟨⟨fun other member => by simp [grown.kept other member], ?_⟩, by simp⟩
    exact List.forall_mem_cons.mpr ⟨below, grown.done⟩

section Checked

variable (checked : program.checkCalls = .ok ()) (id : CoroutineId)

include checked

/-- In a program that passes the check nothing leads back. -/
theorem checkCalls_ends : program.EndsBelow id := by
  simp only [checkCalls, bind_eq_ok] at checked
  obtain ⟨after, folded, -⟩ := checked
  obtain ⟨grown, all⟩ : program.Extends [] after ∧
      ∀ id ∈ List.range program.coroutines.length, id ∈ after := by
    refine foldlM_extends (fun id member done after sound searched => ?_) (by simp) folded
    split at searched
    · rename_i seen
      cases pure_eq_ok.mp searched
      exact ⟨⟨fun _ member => member, sound⟩, List.contains_iff_mem.mp seen⟩
    · refine search_extends inside (List.nodup_singleton id) ?_ rfl sound searched
      simpa using member
  by_cases here : id < program.coroutines.length
  · exact grown.done id (all id (List.mem_range.mpr here))
  · -- Whoever is no coroutine calls nobody.
    exact Acc.intro id fun callee calls => absurd calls.lt here

/-- In a program that passes the check no calls lead back to their caller. -/
theorem checkCalls_acyclic : ¬Relation.TransGen program.Calls id id := by
  intro cycle
  have ends := (checkCalls_ends inside checked id).transGen
  have round := Relation.transGen_swap.mpr cycle
  -- A coroutine on a cycle would have to come before itself.
  induction ends with
  | intro id _ ih => exact ih id round cycle round

/-- In a program that passes the check callers of callers come to an end. -/
theorem checkCalls_begins : Acc program.Calls id := by
  have order : IsStrictOrder CoroutineId (Relation.TransGen program.Calls) :=
    { irrefl := checkCalls_acyclic inside checked, trans := fun _ _ _ => .trans }
  have finite := (Set.finite_lt_nat program.coroutines.length).wellFoundedOn
    (r := Relation.TransGen program.Calls)
  by_cases here : id < program.coroutines.length
  · -- There are finitely many coroutines, and none comes before itself.
    refine finite.induction here fun other _ ih => Acc.intro other fun caller calls => ?_
    exact ih caller calls.lt (.single calls)
  · exact Acc.intro id fun caller calls => absurd (inside caller id calls) here

end Checked

end Search

/-- A well-formed program in which no calls lead back to their caller. -/
structure Sound (program : Program) : Prop extends program.WellFormed where
  checked : program.checkCalls = .ok ()

namespace Sound

variable (sound : program.Sound)

include sound

theorem inside (caller callee : CoroutineId) (calls : program.Calls caller callee) :
    callee < program.coroutines.length := by
  obtain ⟨_, _, -, found, -⟩ := sound.calls caller callee calls
  rw [sound.length]
  exact (List.getElem?_eq_some_iff.mp found).1

/-- Calls stay inside their thread, one by one and so all along. -/
theorem leads_thread {first last : CoroutineId}
    (leads : Relation.ReflTransGen program.Calls first last) {coroutine : Coroutine}
    (known : program.model.coroutines[first]? = some coroutine) :
    ∃ reached, program.model.coroutines[last]? = some reached ∧
      reached.thread = coroutine.thread := by
  induction leads with
  | refl => exact ⟨coroutine, known, rfl⟩
  | tail _ calls ih =>
    obtain ⟨reached, here, before⟩ := ih
    obtain ⟨calling, called, there, further, -, thread⟩ := sound.calls _ _ calls
    obtain rfl := Option.some.inj (here.symm.trans there)
    exact ⟨called, further, thread.trans before⟩

theorem acyclic (id : CoroutineId) : ¬Relation.TransGen program.Calls id id :=
  checkCalls_acyclic sound.inside sound.checked id

theorem ends (id : CoroutineId) : program.EndsBelow id :=
  checkCalls_ends sound.inside sound.checked id

theorem begins (id : CoroutineId) : Acc program.Calls id :=
  checkCalls_begins sound.inside sound.checked id

end Sound

end Program

theorem Source.link_sound {source : Source} {program : Program}
    {warnings : List (Located Warning)} (linked : source.link = .ok (program, warnings)) :
    program.Sound :=
  ⟨(link_program linked).1, (link_program linked).2⟩

end Coro
