/-! Hints on the usual outcome of a condition. -/

namespace Coro

/-- Whether a condition is expected to hold. -/
inductive Likelihood where
  | likely | unlikely
deriving Repr, DecidableEq, Inhabited

end Coro
