import Coro.Emit.Scheduler
import Coro.Machine.Bench
import Coro.Proofs.Compilation
import Coro.Proofs.Emit.Block
import Coro.Proofs.Machine.Dispatch

/-!
The generated scheduler starts the hooks that the machine starts.

The machine counts towards all intervals in one loop, which ends at the first that is not complete.
The generated file has a block inside a block instead, and only as deep as the longest interval on
which a hook runs. The two keep in step: the counters that both have stay equal, and the intervals
that the file leaves out have no hooks.
-/

namespace Coro

variable {clock : Clock} {values : Counters} {interval one other : Interval}
  {intervals : List Interval} {model : Model} {times : Nat} {program : Program}

/-! ## The block of a dispatch -/

namespace Emit

namespace Block

end Block

end Emit

/-! ## Counting in step -/

namespace Clock

/-- The counter towards an interval; a decisecond needs none. -/
def counter (clock : Clock) : Interval → UInt8
  | .decisecond => 0
  | .second => clock.second
  | .minute => clock.minute
  | .hour => clock.hour

/-- Counting towards an interval changes its counter, which starts anew at the limit. -/
theorem count_counter (clock : Clock) (longer : interval ≠ .decisecond) :
    (clock.count interval).2.counter interval =
      if (clock.count interval).1 then 0 else clock.counter interval + 1 := by
  have next : ∀ (limit : Nat) (value : UInt8), (countTo limit value).2 =
      if (countTo limit value).1 then 0 else value + 1 := by
    intro limit value
    simp only [countTo]
    split <;> rfl
  cases interval with
  | decisecond => exact absurd rfl longer
  | second => exact next 10 clock.second
  | minute => exact next 60 clock.minute
  | hour => exact next 60 clock.hour

theorem count_counter_of_ne (clock : Clock) (different : other ≠ interval) :
    (clock.count interval).2.counter other = clock.counter other := by
  cases interval <;> cases other <;> first | rfl | exact absurd rfl different

end Clock

namespace Emit

/-- Counters in a file have the values that a clock has for some intervals. -/
def Counters.Agree (values : Counters) (clock : Clock) (known : List Interval) : Prop :=
  ∀ interval ∈ known, values (counterSymbol interval) = clock.counter interval

theorem counterSymbol_inj (same : counterSymbol one = counterSymbol other) : one = other := by
  have names := (String.append_right_inj _).mp same
  cases one <;> cases other <;> first | rfl | simp [Interval.name] at names

section Lockstep

variable {program : Program} {clock : Clock} {values : Counters} {known : List Interval}
  {interval : Interval}

/-- Counting on both sides keeps the counters equal. -/
theorem Counters.Agree.count (agree : values.Agree clock known) (longer : interval ≠ .decisecond)
    (counted : interval ∈ known) (value : UInt8)
    (same : value = if (clock.count interval).1 then 0 else clock.counter interval + 1) :
    (values.set (counterSymbol interval) value).Agree (clock.count interval).2 known := by
  intro other member
  -- Each interval has a counter of its own, so the others are not touched on either side.
  by_cases equal : other = interval
  · subst equal
    rw [clock.count_counter longer, ← same]
    exact if_pos rfl
  · rw [clock.count_counter_of_ne equal, ← agree other member]
    exact if_neg fun symbols => equal (counterSymbol_inj symbols)

end Lockstep

/-- Hooks run on an interval or on a longer one. -/
def reaches (model : Model) (interval : Interval) : Bool :=
  (usedIntervals model).any fun used => interval.rank ≤ used.rank

end Emit

/-! ## Dispatches -/

namespace Emit

/-- The lines of a pass, with the block of the periodic dispatch if there is one. -/
def passAround (program : Program) (dispatch : Option Block) : List String :=
  hookCalls program (program.model.hooksOn .runnable) ++
  program.model.threads.map (fun thread => stepSymbol program thread ++ "();") ++
  match dispatch with
  | none => []
  | some block =>
    ["if (" ++ ticksSeenSymbol ++ " != " ++ timebaseSymbol ++ ") \x7b"] ++
    (("++" ++ ticksSeenSymbol ++ ";") :: block.lines).map indent ++ ["\x7d"]

/-- A file has a block, or none, as its periodic dispatch. -/
structure Dispatching (program : Program) (dispatch : Option Block) : Prop where
  worded : ∀ block ∈ dispatch, block.Worded
  pass : passLines program = passAround program dispatch

/-- A file has one periodic dispatch at most. -/
theorem Dispatching.unique {one other : Option Block} (first : Dispatching program one)
    (second : Dispatching program other) : one = other := by
  -- What stands before the dispatch is the same, so the lines of the two blocks are.
  have same := List.append_cancel_left (first.pass.symm.trans second.pass)
  cases one with
  | none =>
    cases other with
    | none => rfl
    | some block => simp at same
  | some block =>
    cases other with
    | none => simp at same
    | some block' =>
      have inside := Block.indent_injective.list_map
        (List.append_cancel_left (List.append_cancel_right same))
      rw [Block.lines_inj (first.worded block rfl) (second.worded block' rfl)
        (List.cons.inj inside).2]

end Emit

end Coro
