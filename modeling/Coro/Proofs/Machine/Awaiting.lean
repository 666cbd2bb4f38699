import Coro.Proofs.Program.CallGraph
import Mathlib.Data.List.Chain

/-!
Who awaits whom.

A coroutine awaits a subroutine while it is suspended at a call of it. Where every subroutine that
has started is awaited by someone, those of a thread form one chain that begins at the thread.
-/

namespace Coro

namespace Program

/-- A coroutine is declared in another one. -/
def IsSubroutine (program : Program) (id : CoroutineId) : Prop :=
  ∃ coroutine, program.model.coroutines[id]? = some coroutine ∧ coroutine.isThread = false

/-- A coroutine awaits a subroutine: its state is a point at which it calls it. -/
def Awaits (program : Program) (states : Array Nat) (caller callee : CoroutineId) : Prop :=
  ∃ machine point, program.coroutines[caller]? = some machine ∧
    states[caller]? = some (stateAt point) ∧ kindAt? machine.points point = some (.call callee)

end Program

/-- A coroutine is not at its start. -/
def Started (states : Array Nat) (id : CoroutineId) : Prop :=
  ∃ state, states[id]? = some state ∧ state ≠ startState

theorem started_of_point {states : Array Nat} {id : CoroutineId} {point : Point}
    (known : states[id]? = some (stateAt point)) : Started states id :=
  ⟨stateAt point, known, Nat.succ_ne_zero point⟩

namespace Program

variable {program : Program} {states after : Array Nat} {caller callee other : CoroutineId}

namespace Awaits

variable (awaits : program.Awaits states caller callee)

include awaits

theorem calls : program.Calls caller callee := by
  obtain ⟨machine, point, found, -, kind⟩ := awaits
  exact ⟨machine, point, found, kind⟩

theorem started : Started states caller := by
  obtain ⟨_, point, -, known, -⟩ := awaits
  exact started_of_point known

theorem unique (again : program.Awaits states caller other) : callee = other := by
  obtain ⟨machine, point, found, known, kind⟩ := awaits
  obtain ⟨_, _, same, here, also⟩ := again
  cases found.symm.trans same
  cases known.symm.trans here
  cases kind.symm.trans also
  rfl

theorem congr (same : after[caller]? = states[caller]?) : program.Awaits after caller callee := by
  obtain ⟨machine, point, found, known, kind⟩ := awaits
  exact ⟨machine, point, found, same.trans known, kind⟩

/-- A suspension that is no call awaits nobody. -/
theorem kind {machine : StateMachine} {point : Point}
    (found : program.coroutines[caller]? = some machine)
    (known : states[caller]? = some (stateAt point)) :
    kindAt? machine.points point = some (.call callee) := by
  obtain ⟨_, _, same, here, kind⟩ := awaits
  cases found.symm.trans same
  cases known.symm.trans here
  exact kind

end Awaits

/-- Every subroutine that has started is awaited by someone. -/
def Answered (program : Program) (states : Array Nat) : Prop :=
  ∀ callee, program.IsSubroutine callee → Started states callee →
    ∃ caller, program.Awaits states caller callee

/-- A coroutine awaits a subroutine that has started. -/
def Follows (program : Program) (states : Array Nat) (caller callee : CoroutineId) : Prop :=
  program.Awaits states caller callee ∧ Started states callee

/-- Those who follow each other, from a coroutine on as far as they go. -/
theorem exists_followers {id : CoroutineId} (ends : program.EndsBelow id) (states : Array Nat) :
    ∃ chain : List CoroutineId, List.IsChain (program.Follows states) (id :: chain) ∧
      ∀ other, Relation.ReflTransGen (program.Follows states) id other → other ∈ id :: chain := by
  induction ends with
  | intro id _ ih =>
    by_cases last : ∃ next, program.Follows states id next
    · obtain ⟨next, follows⟩ := last
      obtain ⟨chain, linked, all⟩ := ih next follows.1.calls
      refine ⟨next :: chain, List.isChain_cons_cons.mpr ⟨follows, linked⟩, fun other path => ?_⟩
      -- The path begins as the chain does, since only one subroutine follows.
      rcases path.cases_head with rfl | ⟨first, step, rest⟩
      · simp
      · obtain rfl := step.1.unique follows.1
        exact List.mem_cons_of_mem _ (all other rest)
    · refine ⟨[], List.isChain_singleton _, fun other path => ?_⟩
      rcases path.cases_head with rfl | ⟨first, step, -⟩
      · simp
      · exact absurd ⟨first, step⟩ last

section Chains

variable (sound : program.Sound) (answered : program.Answered states)

include sound

theorem Awaits.isSubroutine (awaits : program.Awaits states caller callee) :
    program.IsSubroutine callee := by
  obtain ⟨_, called, -, there, nested, -⟩ := sound.calls caller callee awaits.calls
  exact ⟨called, there, nested⟩

/-- Whoever is reached works for the same thread, and has started. -/
theorem follows_thread (path : Relation.TransGen (program.Follows states) caller callee) :
    ∃ calling called, program.model.coroutines[caller]? = some calling ∧
      program.model.coroutines[callee]? = some called ∧ called.isThread = false ∧
      called.thread = calling.thread ∧ Started states callee := by
  induction path with
  | single follows =>
    obtain ⟨calling, called, here, there, nested, thread⟩ := sound.calls _ _ follows.1.calls
    exact ⟨calling, called, here, there, nested, thread, follows.2⟩
  | tail _ follows ih =>
    obtain ⟨first, middle, start, between, -, early, -⟩ := ih
    obtain ⟨_, called, same, there, nested, late⟩ := sound.calls _ _ follows.1.calls
    cases between.symm.trans same
    exact ⟨first, called, start, there, nested, late.trans early, follows.2⟩

include answered

/-- Whatever has started is reached from its thread, along those who await each other. -/
theorem reaches {id : CoroutineId} {coroutine : Coroutine}
    (found : program.model.coroutines[id]? = some coroutine)
    (begun : coroutine.isThread = true ∨ Started states id) :
    Relation.ReflTransGen (program.Follows states) coroutine.thread id := by
  -- Callers of callers come to an end, and only a thread has none.
  induction sound.begins id generalizing coroutine with
  | intro id _ ih =>
    cases top : coroutine.isThread with
    | true => rw [sound.threads id coroutine found top]
    | false =>
      have started := begun.resolve_left (by simp [top])
      obtain ⟨caller, awaits⟩ := answered id ⟨coroutine, found, top⟩ started
      obtain ⟨calling, called, here, there, -, thread⟩ := sound.calls caller id awaits.calls
      cases found.symm.trans there
      rw [thread]
      exact (ih caller awaits.calls here (.inr awaits.started)).tail ⟨awaits, started⟩

/-- No subroutine is awaited by two coroutines. -/
theorem awaiting_unique (awaits : program.Awaits states caller callee)
    (also : program.Awaits states other callee) : caller = other := by
  obtain ⟨first, called, here, there, -, thread⟩ := sound.calls caller callee awaits.calls
  obtain ⟨second, _, hereToo, thereToo, -, threadToo⟩ := sound.calls other callee also.calls
  cases there.symm.trans thereToo
  have one := reaches sound answered here (.inr awaits.started)
  have two := reaches sound answered hereToo (.inr also.started)
  rw [← thread] at one
  rw [← threadToo] at two
  -- One of both is reached from the other; through the callee, unless they are the same.
  have alone : ∀ {first second : CoroutineId}, program.Awaits states first callee →
      program.Awaits states second callee →
      Relation.ReflTransGen (program.Follows states) first second → first = second := by
    intro first second awaits also path
    rcases path.cases_head with same | ⟨next, follows, rest⟩
    · exact same
    · obtain rfl := follows.1.unique awaits
      have back : Relation.ReflTransGen program.Calls next second :=
        Relation.ReflTransGen.mono (fun _ _ follows => follows.1.calls) _ _ rest
      exact absurd (Relation.TransGen.tail' back also.calls) (sound.acyclic next)
  rcases one.total_of_right_unique (fun _ _ _ one two => one.1.unique two.1) two with down | up
  · exact alone awaits also down
  · exact (alone also awaits up).symm

/-- The subroutines of a thread that have started form one chain behind it. -/
theorem exists_chain {thread : CoroutineId} {coroutine : Coroutine}
    (found : program.model.coroutines[thread]? = some coroutine)
    (top : coroutine.isThread = true) :
    ∃ chain : List CoroutineId, (thread :: chain).Nodup ∧
      List.IsChain (program.Awaits states) (thread :: chain) ∧
      ∀ callee, callee ∈ chain ↔ ∃ known, program.model.coroutines[callee]? = some known ∧
        known.isThread = false ∧ known.thread = thread ∧ Started states callee := by
  obtain ⟨chain, linked, all⟩ := exists_followers (sound.ends thread) states
  have own := sound.threads thread coroutine found top
  refine ⟨chain, ?_, linked.imp fun _ _ follows => follows.1, fun callee => ⟨fun member => ?_, ?_⟩⟩
  · -- Each one calls the next, so that none of them can come twice.
    have calls : List.IsChain (Relation.TransGen program.Calls) (thread :: chain) :=
      linked.imp fun _ _ follows => .single follows.1.calls
    refine (List.isChain_iff_pairwise.mp calls).imp fun path same => ?_
    subst same
    exact sound.acyclic _ path
  · have path : Relation.TransGen (program.Follows states) thread callee :=
      List.IsChain.rel_cons (linked.imp fun _ _ => .single) member
    obtain ⟨_, known, same, there, nested, thread, started⟩ := follows_thread sound path
    cases found.symm.trans same
    exact ⟨known, there, nested, thread.trans own, started⟩
  · rintro ⟨known, there, nested, rfl, started⟩
    rcases List.mem_cons.mp (all callee (reaches sound answered there (.inr started))) with rfl | here
    · -- A thread is no subroutine.
      cases found.symm.trans there
      exact absurd top (by simp [nested])
    · exact here

end Chains

end Program

end Coro
