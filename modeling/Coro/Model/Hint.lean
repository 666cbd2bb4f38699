import Coro.Location

/-! Advice on where variables should live and how code should be compiled. -/

namespace Coro

/-- The registers that a hint allows. -/
inductive RegisterClass where
  | low
  | high
  | any
  | exact (number : Nat)
deriving Repr, DecidableEq, Inhabited

/-- A class of registers as it is written. -/
def RegisterClass.describe : RegisterClass → String
  | low => "low"
  | high => "high"
  | any => "any"
  | exact number => "r" ++ toString number

/-- The wish to keep some storage in a register. -/
structure RegisterHint where
  group : RegisterClass
  location : Location
deriving Repr, DecidableEq, Inhabited

/-- Wishes on how the code of an entity is compiled. -/
structure Tuning where
  /-- Nothing but the result depends on a call. -/
  isPure : Bool
  noInline : Bool
  alwaysInline : Bool
deriving Repr, DecidableEq, Inhabited

namespace Tuning

/-- No wishes. -/
def none : Tuning := ⟨false, false, false⟩

/-- The wishes of both. -/
def merge (left right : Tuning) : Tuning :=
  ⟨left.isPure || right.isPure, left.noInline || right.noInline,
    left.alwaysInline || right.alwaysInline⟩

end Tuning

/-- What the compiler flags aim at. -/
inductive Profile where
  | size
  | speed
deriving Repr, DecidableEq, Inhabited

end Coro
