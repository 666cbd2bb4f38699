import Coro.Text.Letters

/-! Intervals of the time base and the occasions on which hooks run. -/

namespace Coro

/-- How often a periodic hook runs. -/
inductive Interval where
  | decisecond | second | minute | hour
deriving Repr, DecidableEq, Inhabited

namespace Interval

/-- Every interval, the shortest first. -/
def all : List Interval := [decisecond, second, minute, hour]

/-- The name of the interval. -/
def name : Interval → String
  | decisecond => "decisecond"
  | second => "second"
  | minute => "minute"
  | hour => "hour"

/-- The interval with a given name, in any case of letters. -/
def ofName? (name : String) : Option Interval :=
  all.find? fun interval => sameWord interval.name name

/-- How many intervals of the next shorter kind make one; a decisecond is one tick. -/
def ratio : Interval → Nat
  | decisecond => 1
  | second => 10
  | minute | hour => 60

/-- Place in the order from short to long. -/
def rank : Interval → Nat
  | decisecond => 0
  | second => 1
  | minute => 2
  | hour => 3

end Interval

/-- The occasion on which a hook runs: once at start, on every pass, or periodically. -/
inductive HookKind where
  | init
  | runnable
  | every (interval : Interval)
deriving Repr, DecidableEq, Inhabited

end Coro
