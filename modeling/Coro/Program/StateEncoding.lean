import Coro.IntType

/-!
How the state of a coroutine is kept in one unsigned variable.

The state is zero before the start, `k + 1` while suspended at point `k`, and all ones at the end.
-/

namespace Coro

/-- The state of a coroutine that has not started. -/
def startState : Nat := 0

/-- The most suspension points a coroutine may have. -/
def maxPoints : Nat := 256

/-- The most suspension points that a state of one byte can tell apart. -/
def bytePoints : Nat := 254

/-- The size of a state variable. -/
inductive StateWidth where
  | byte | word
deriving Repr, DecidableEq, Inhabited

namespace StateWidth

/-- The size that a number of suspension points needs. -/
def forPoints (count : Nat) : StateWidth :=
  if count ≤ bytePoints then byte else word

/-- The type of the state variable. -/
def type : StateWidth → IntType
  | byte => .u8
  | word => .u16

/-- The state of a coroutine that has ended. -/
def endState : StateWidth → Nat
  | byte => 0xff
  | word => 0xffff

end StateWidth

/-- A suspension point by its number, counted from zero in the order of the text. -/
abbrev Point := Nat

/-- The state while suspended at a point. -/
def stateAt (point : Point) : Nat :=
  point + 1

/-- The point that a state is suspended at, if it is suspended. -/
def pointOf? (state : Nat) (width : StateWidth) : Option Point :=
  if state = startState ∨ state = width.endState then none else some (state - 1)

/-- Every suspension point of a coroutine can be read off its state again. -/
theorem pointOf?_stateAt {point count : Nat} (within : point < count)
    (limited : count ≤ maxPoints) :
    pointOf? (stateAt point) (.forPoints count) = some point := by
  -- Either size keeps its last value free: a byte for the points it has, a word for all.
  have free : point + 1 ≠ (StateWidth.forPoints count).endState := by
    simp only [maxPoints] at limited
    by_cases small : count ≤ bytePoints
    · rw [StateWidth.forPoints, if_pos small]
      simp only [bytePoints] at small
      simp only [StateWidth.endState]
      omega
    · rw [StateWidth.forPoints, if_neg small]
      simp only [StateWidth.endState]
      omega
  simp [pointOf?, stateAt, startState, free]

end Coro
