import Coro.Interval

/-! Counting time in ticks of a tenth of a second. -/

namespace Coro

/-- Ticks that have come, ticks that were seen, and counters towards the longer intervals. -/
structure Clock where
  timebase : UInt8
  seen : UInt8
  second : UInt8
  minute : UInt8
  hour : UInt8
deriving Repr, DecidableEq, Inhabited

namespace Clock

/-- The clock before the first tick. -/
def start : Clock := ⟨0, 0, 0, 0, 0⟩

/-- A tick comes. -/
def tick (clock : Clock) : Clock :=
  { clock with timebase := clock.timebase + 1 }

/-- A tick has come that was not seen yet. -/
def isBehind (clock : Clock) : Bool :=
  clock.seen != clock.timebase

/-- One more tick has been seen. -/
def see (clock : Clock) : Clock :=
  { clock with seen := clock.seen + 1 }

/-- Counts up to a limit, and then from zero again. -/
def countTo (limit : Nat) (counter : UInt8) : Bool × UInt8 :=
  -- The counter is as wide as the generated one, and wraps like it.
  let next := counter + 1
  if next = UInt8.ofNat limit then (true, 0) else (false, next)

/-- Counts towards an interval and tells whether it is complete. -/
def count (clock : Clock) (interval : Interval) : Bool × Clock :=
  match interval with
  -- Every tick completes a decisecond.
  | .decisecond => (true, clock)
  | .second =>
    let (complete, second) := countTo interval.ratio clock.second
    (complete, { clock with second })
  | .minute =>
    let (complete, minute) := countTo interval.ratio clock.minute
    (complete, { clock with minute })
  | .hour =>
    let (complete, hour) := countTo interval.ratio clock.hour
    (complete, { clock with hour })

end Clock

end Coro
